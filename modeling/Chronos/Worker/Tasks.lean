import Chronos.Worker.Loop
import Mathlib.Data.List.Nodup

namespace Chronos

variable {concurrency : Nat} {s s' : Consumer} {ev : ConsumerEvent} {i : ExecutionId}

namespace Consumer

-- The jobs of a claim that has returned become tasks.
def receive (concurrency : Nat) (s : Consumer) (tasks : List ExecutionId) : Consumer :=
  if tasks = [] then s.waitForWork else (s.addTasks tasks).resume concurrency

-- Tasks that there have not been yet.
structure Fresh (s : Consumer) (tasks : List ExecutionId) : Prop where
  nodup : tasks.Nodup
  unknown : ∀ i ∈ tasks, s.execution i = none

-- Inversion of `step`: what each event requires and where it leads.
inductive Steps (concurrency : Nat) (s : Consumer) : ConsumerEvent → Consumer → Prop
  | snapshot (limit : Nat) (hposition : s.position = .claiming limit false) :
      Steps concurrency s .snapshot
        { s with position := .claiming limit true, seen := s.hasCommitted }
  | claimed (limit : Nat) (tasks : List ExecutionId) (hposition : s.position = .claiming limit true)
      (hlength : tasks.length ≤ limit) (hfresh : Fresh s tasks) :
      Steps concurrency s (.claimed tasks) (s.receive concurrency tasks)
  | raised (limit : Nat) (snapped : Bool) (hposition : s.position = .claiming limit snapped) :
      Steps concurrency s .raised { s with position := .backoff }
  | slept (hposition : s.position = .backoff) :
      Steps concurrency s .slept (s.resume concurrency)
  | commit (i : ExecutionId) (hi : s.execution i = some .running) :
      Steps concurrency s (.commit i) (s.set i .committed)
  | finish (i : ExecutionId) (x : Execution) (committed : Bool) (hi : s.execution i = some x)
      (hx : ∀ c, x ≠ .reported c) : Steps concurrency s (.finish i) (s.set i (.done committed))
  | callback (i : ExecutionId) (committed : Bool) (hi : s.execution i = some (.done committed)) :
      Steps concurrency s (.callback i) (s.onTaskDone i committed)
  | wake (hposition : s.position = .waiting true) :
      Steps concurrency s .wake { s with position := .gathering }
  | wakeIdle (hposition : s.position = .waiting false) :
      Steps concurrency s .wake (s.resume concurrency)
  | freed (hposition : s.position = .waiting true) :
      Steps concurrency s .freed { s with position := .gathering }
  | gathered (hposition : s.position = .gathering) :
      Steps concurrency s .gathered (s.resume concurrency)
  | drain : Steps concurrency s .drain { s with draining := true }

theorem steps_of_step (h : s.step concurrency ev = some s') : Steps concurrency s ev s' := by
  cases ev with
  | snapshot =>
      simp only [Consumer.step] at h
      split at h
      · rename_i limit hposition
        cases h
        exact .snapshot limit hposition
      · cases h
  | claimed tasks =>
      simp only [Consumer.step] at h
      split at h
      · rename_i limit hposition
        split at h
        · rename_i hok
          have hfresh : Fresh s tasks :=
            ⟨hok.2.1, fun i hi => by simpa using List.all_eq_true.mp hok.2.2 i hi⟩
          have hreceive : s.receive concurrency tasks = s' := by
            unfold receive
            split at h
            · rename_i hempty
              rw [if_pos hempty]
              exact Option.some.inj h
            · rename_i hsome
              rw [if_neg hsome]
              exact Option.some.inj h
          exact hreceive ▸ .claimed limit tasks hposition hok.1 hfresh
        · cases h
      · cases h
  | raised =>
      simp only [Consumer.step] at h
      split at h
      · rename_i limit snapped hposition
        cases h
        exact .raised limit snapped hposition
      · cases h
  | slept =>
      simp only [Consumer.step, Option.ite_none_right_eq_some] at h
      obtain ⟨hposition, hs'⟩ := h
      cases hs'
      exact .slept hposition
  | commit i =>
      simp only [Consumer.step, Option.ite_none_right_eq_some] at h
      obtain ⟨hi, hs'⟩ := h
      cases hs'
      exact .commit i hi
  | finish i =>
      simp only [Consumer.step] at h
      split at h
      · rename_i hi
        cases h
        exact .finish i _ false hi (by simp)
      · rename_i hi
        cases h
        exact .finish i _ true hi (by simp)
      · cases h
  | callback i =>
      simp only [Consumer.step] at h
      split at h
      · rename_i committed hi
        cases h
        exact .callback i committed hi
      · cases h
  | wake =>
      simp only [Consumer.step] at h
      split at h
      · rename_i hposition
        cases h
        exact .wake hposition
      · rename_i hposition
        cases h
        exact .wakeIdle hposition
      · cases h
  | freed =>
      simp only [Consumer.step, Option.ite_none_right_eq_some] at h
      obtain ⟨⟨hposition, -⟩, hs'⟩ := h
      cases hs'
      exact .freed hposition
  | gathered =>
      simp only [Consumer.step, Option.ite_none_right_eq_some] at h
      obtain ⟨hposition, hs'⟩ := h
      cases hs'
      exact .gathered hposition
  | drain =>
      cases h
      exact .drain

-- The tasks that are in flight, and those the loop has made.
structure TasksInv (s : Consumer) : Prop where
  nodup : s.inflight.Nodup
  inflight : ∀ i x, s.execution i = some x → (∀ c, x ≠ .reported c) → i ∈ s.inflight
  listed : ∀ i, s.execution i ≠ none → i ∈ s.tasks
  known : ∀ i ∈ s.inflight, s.execution i ≠ none

theorem tasksInv_resume (h : TasksInv s) : TasksInv (s.resume concurrency) := by
  unfold resume
  split
  · exact ⟨h.nodup, h.inflight, h.listed, h.known⟩
  · dsimp only
    split
    · exact ⟨h.nodup, h.inflight, h.listed, h.known⟩
    · exact ⟨h.nodup, h.inflight, h.listed, h.known⟩

theorem tasksInv_init (concurrency : Nat) : TasksInv (init concurrency) :=
  tasksInv_resume ⟨List.nodup_nil, fun _ _ h => (nomatch h), fun _ h => absurd rfl h,
    fun _ h => (nomatch h)⟩

theorem tasksInv_addTasks (h : TasksInv s) {tasks : List ExecutionId} (hfresh : Fresh s tasks) :
    TasksInv (s.addTasks tasks) where
  nodup := by
    refine List.nodup_append.mpr ⟨h.nodup, hfresh.nodup, fun i hi j hj hij => ?_⟩
    exact h.known i hi (hij ▸ hfresh.unknown j hj)
  inflight i x hx hactive := by
    rw [show (s.addTasks tasks).inflight = s.inflight ++ tasks from rfl, List.mem_append]
    by_cases hi : i ∈ tasks
    · exact .inr hi
    · exact .inl (h.inflight i x (by simpa [addTasks, hi] using hx) hactive)
  listed i hi := by
    rw [show (s.addTasks tasks).tasks = s.tasks ++ tasks from rfl, List.mem_append]
    by_cases hnew : i ∈ tasks
    · exact .inr hnew
    · exact .inl (h.listed i (by simpa [addTasks, hnew] using hi))
  known i hi := by
    rw [show (s.addTasks tasks).inflight = s.inflight ++ tasks from rfl, List.mem_append] at hi
    by_cases hnew : i ∈ tasks
    · simp [addTasks, hnew]
    · simpa [addTasks, hnew] using h.known i (hi.resolve_right hnew)

-- An execution gets on that has not been reported.
theorem tasksInv_set (h : TasksInv s) {x y : Execution} (hi : s.execution i = some x)
    (hx : ∀ c, x ≠ .reported c) : TasksInv (s.set i y) where
  nodup := h.nodup
  inflight j z hz hactive := by
    by_cases hji : j = i
    · exact hji ▸ h.inflight i x hi hx
    · exact h.inflight j z (by simpa [set, hji] using hz) hactive
  listed j hj := by
    by_cases hji : j = i
    · exact hji ▸ h.listed i (by simp [hi])
    · exact h.listed j (by simpa [set, hji] using hj)
  known j hj := by
    by_cases hji : j = i
    · simp [set, hji]
    · simpa [set, hji] using h.known j hj

theorem tasksInv_onTaskDone (h : TasksInv s) {committed : Bool} (hi : s.execution i ≠ none) :
    TasksInv (s.onTaskDone i committed) where
  nodup := h.nodup.erase i
  inflight j z hz hactive := by
    by_cases hji : j = i
    · subst hji
      obtain rfl : Execution.reported committed = z := by simpa [onTaskDone, set] using hz
      exact absurd rfl (hactive committed)
    · have hz' : s.execution j = some z := by simpa [onTaskDone, set, hji] using hz
      exact (List.mem_erase_of_ne hji).mpr (h.inflight j z hz' hactive)
  listed j hj := by
    by_cases hji : j = i
    · exact hji ▸ h.listed i hi
    · exact h.listed j (by simpa [onTaskDone, set, hji] using hj)
  known j hj := by
    have hj' := h.known j (List.mem_of_mem_erase hj)
    by_cases hji : j = i
    · simp [onTaskDone, set, hji]
    · simpa [onTaskDone, set, hji] using hj'

-- Every event but the return of a claim leaves the tasks there are.
theorem TasksInv.keep (h : TasksInv s) (hinflight : s'.inflight = s.inflight)
    (hexecution : s'.execution = s.execution) (htasks : s'.tasks = s.tasks) : TasksInv s' where
  nodup := hinflight ▸ h.nodup
  inflight i x hx hactive := hinflight ▸ h.inflight i x (hexecution ▸ hx) hactive
  listed i hi := htasks ▸ h.listed i (hexecution ▸ hi)
  known i hi := hexecution ▸ h.known i (hinflight ▸ hi)

theorem TasksInv.receive (h : TasksInv s) {tasks : List ExecutionId} (hfresh : Fresh s tasks) :
    TasksInv (s.receive concurrency tasks) := by
  unfold Consumer.receive
  split
  · exact h.keep rfl rfl rfl
  · exact tasksInv_resume (tasksInv_addTasks h hfresh)

theorem TasksInv.step (h : TasksInv s) (hstep : Steps concurrency s ev s') : TasksInv s' := by
  cases hstep with
  | claimed limit tasks hposition hlength hfresh => exact h.receive hfresh
  | slept hposition => exact tasksInv_resume h
  | commit i hi => exact tasksInv_set h hi (by simp)
  | finish i x committed hi hx => exact tasksInv_set h hi hx
  | callback i committed hi => exact tasksInv_onTaskDone h (by simp [hi])
  | wakeIdle hposition => exact tasksInv_resume h
  | gathered hposition => exact tasksInv_resume h
  | _ => exact h.keep rfl rfl rfl

end Consumer

end Chronos
