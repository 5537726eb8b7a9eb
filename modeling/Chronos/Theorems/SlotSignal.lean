import Chronos.Worker.Tasks

namespace Chronos

open Txn (Reaches)

variable {concurrency : Nat} {s s' : Consumer} {ev : ConsumerEvent} {i : ExecutionId}

namespace Consumer

-- While the loop is blocked and nothing is there to wake it, the last claim has seen what every
-- execution reported so far has committed.
def KeepsSignals (s : Consumer) : Prop :=
  ∀ watching, s.position = .waiting watching → s.slotFreed = false → ∀ i, s.missed i = false

-- A claim that comes back empty has seen what was reported meanwhile.
def claimSees (s : Consumer) : ConsumerEvent → Bool
  | .claimed [] => s.tasks.all fun i => !s.missed i
  | _ => true

def HasMissed (s : Consumer) : Prop := ∃ i, s.missed i = true

-- What the slots tell at each await: executions reported since the last snapshot leave one free.
def Room (concurrency : Nat) (s : Consumer) : Prop :=
  match s.position with
  | .claiming limit snapped => 0 < limit ∧ s.inflight.length + limit ≤ concurrency ∧
      (snapped = true → s.HasMissed → s.inflight.length + limit < concurrency)
  | .backoff => s.inflight.length < concurrency
  | .waiting _ => s.inflight.length ≤ concurrency ∧
      (s.HasMissed → s.slotFreed = true ∧ s.inflight.length < concurrency)
  | .gathering => s.inflight.length ≤ concurrency ∧
      (s.HasMissed → s.inflight.length < concurrency)
  | .left => True

theorem missed_iff : s.missed i = true ↔
    s.execution i = some (.reported true) ∧ s.seen i = false := by
  simp [missed]

-- The test of the while, where a free slot is known for everything missed.
theorem room_resume (hlength : s.inflight.length ≤ concurrency)
    (hmissed : s.HasMissed → s.inflight.length < concurrency) :
    Room concurrency (s.resume concurrency) := by
  unfold resume
  split
  · trivial
  · dsimp only
    split
    · rename_i hfree
      refine ⟨hfree, ?_, fun h => by cases h⟩
      show s.inflight.length + (concurrency - s.inflight.length) ≤ concurrency
      omega
    · rename_i hfull
      refine ⟨hlength, fun h => ?_⟩
      have hlt := hmissed h
      omega

theorem missed_addTasks {tasks : List ExecutionId} (hfresh : Fresh s tasks) :
    (s.addTasks tasks).HasMissed ↔ s.HasMissed := by
  have hsame : ∀ i, (s.addTasks tasks).missed i = s.missed i := by
    intro i
    by_cases hi : i ∈ tasks
    · simp [missed, addTasks, hi, hfresh.unknown i hi]
    · simp [missed, addTasks, hi]
  simp only [HasMissed, hsame]

-- An execution gets on that has not been reported.
theorem missed_set {x y : Execution} (hi : s.execution i = some x) (hx : ∀ c, x ≠ .reported c)
    (hy : ∀ c, y ≠ .reported c) : (s.set i y).HasMissed ↔ s.HasMissed := by
  have hsame : ∀ j, (s.set i y).missed j = s.missed j := by
    intro j
    by_cases hji : j = i
    · subst hji
      simp [missed, set, hi, hx, hy]
    · simp [missed, set, hji]
  simp only [HasMissed, hsame]

theorem room_congr (hposition : s'.position = s.position) (hinflight : s'.inflight = s.inflight)
    (hfreed : s'.slotFreed = s.slotFreed) (hmissed : s'.HasMissed ↔ s.HasMissed)
    (h : Room concurrency s) : Room concurrency s' := by
  unfold Room at h ⊢
  rw [hposition, hinflight, hfreed, hmissed]
  exact h

-- A report frees a slot.
theorem room_onTaskDone (h : Room concurrency s) {committed : Bool} (hi : i ∈ s.inflight) :
    Room concurrency (s.onTaskDone i committed) := by
  have hlength : (s.inflight.erase i).length + 1 = s.inflight.length := by
    have hpos := List.length_pos_of_mem hi
    rw [List.length_erase_of_mem hi]
    omega
  unfold Room at h ⊢
  rw [show (s.onTaskDone i committed).position = s.position from rfl,
    show (s.onTaskDone i committed).inflight = s.inflight.erase i from rfl]
  cases hposition : s.position with
  | claiming limit snapped =>
      rw [hposition] at h
      exact ⟨h.1, by omega, fun _ _ => by omega⟩
  | backoff =>
      rw [hposition] at h
      exact Nat.lt_of_succ_lt (by omega)
  | waiting watching =>
      rw [hposition] at h
      exact ⟨by omega, fun _ => ⟨rfl, by omega⟩⟩
  | gathering =>
      rw [hposition] at h
      exact ⟨by omega, fun _ => by omega⟩
  | left => trivial

structure LoopInv (concurrency : Nat) (s : Consumer) : Prop where
  tasks : TasksInv s
  room : Room concurrency s

theorem loopInv_init (concurrency : Nat) : LoopInv concurrency (init concurrency) where
  tasks := tasksInv_init concurrency
  room := room_resume (Nat.zero_le _) fun ⟨_, h⟩ => (by cases h)

theorem Room.claimed (h : Room concurrency s) {limit : Nat}
    (hposition : s.position = .claiming limit true) {tasks : List ExecutionId}
    (hfresh : Fresh s tasks) (hlength : tasks.length ≤ limit) :
    Room concurrency ((s.addTasks tasks).resume concurrency) := by
  rw [Room, hposition] at h
  obtain ⟨-, hle, hlt⟩ := h
  have hsum : (s.addTasks tasks).inflight.length = s.inflight.length + tasks.length :=
    List.length_append
  refine room_resume (by omega) fun hmissed => ?_
  have hfree := hlt rfl ((missed_addTasks hfresh).mp hmissed)
  omega

theorem Room.step (h : Room concurrency s) (htasks : TasksInv s)
    (hstep : Steps concurrency s ev s') (hsees : s.claimSees ev = true) : Room concurrency s' := by
  cases hstep with
  | snapshot limit hposition =>
      rw [Room, hposition] at h
      refine ⟨h.1, h.2.1, fun _ ⟨i, hi⟩ => ?_⟩
      -- what has been reported as committed is in the snapshot
      obtain ⟨hreported, hunseen⟩ := missed_iff.mp hi
      have hcommitted : s.hasCommitted i = true := by
        rw [hasCommitted, show s.execution i = some (.reported true) from hreported]
      rw [show s.hasCommitted i = false from hunseen] at hcommitted
      cases hcommitted
  | claimed limit tasks hposition hlength hfresh =>
      unfold receive
      split
      · rename_i hempty
        subst hempty
        rw [Room, hposition] at h
        refine ⟨Nat.le_of_add_right_le h.2.1, fun ⟨i, hi⟩ => ?_⟩
        have hmissed : s.missed i = true := hi
        have hreported := (missed_iff.mp hmissed).1
        have hall := List.all_eq_true.mp hsees i (htasks.listed i (by simp [hreported]))
        simp [hmissed] at hall
      · exact h.claimed hposition hfresh hlength
  | raised limit snapped hposition =>
      rw [Room, hposition] at h
      show s.inflight.length < concurrency
      omega
  | slept hposition =>
      rw [Room, hposition] at h
      exact room_resume (Nat.le_of_lt h) fun _ => h
  | commit i hi =>
      exact room_congr (s := s) rfl rfl rfl (missed_set hi (by simp) (by simp)) h
  | finish i x committed hi hx =>
      exact room_congr (s := s) rfl rfl rfl (missed_set hi hx (by simp)) h
  | callback i committed hi =>
      exact room_onTaskDone h (htasks.inflight i _ hi (by simp))
  | wake hposition =>
      rw [Room, hposition] at h
      exact ⟨h.1, fun hmissed => (h.2 hmissed).2⟩
  | wakeIdle hposition =>
      rw [Room, hposition] at h
      exact room_resume h.1 fun hmissed => (h.2 hmissed).2
  | freed hposition =>
      rw [Room, hposition] at h
      exact ⟨h.1, fun hmissed => (h.2 hmissed).2⟩
  | gathered hposition =>
      rw [Room, hposition] at h
      exact room_resume h.1 h.2
  | drain => exact room_congr rfl rfl rfl Iff.rfl h

theorem LoopInv.step (h : LoopInv concurrency s) (hstep : s.step concurrency ev = some s')
    (hsees : s.claimSees ev = true) : LoopInv concurrency s' :=
  ⟨h.tasks.step (steps_of_step hstep), h.room.step h.tasks (steps_of_step hstep) hsees⟩

theorem LoopInv.keepsSignals (h : LoopInv concurrency s) : s.KeepsSignals := by
  intro watching hposition hfreed i
  by_contra hmissed
  rw [Bool.not_eq_false] at hmissed
  have hroom := h.room
  rw [Room, hposition] at hroom
  have hset := (hroom.2 ⟨i, hmissed⟩).1
  rw [hfreed] at hset
  cases hset

-- The loop blocks after an empty claim.
theorem claimSees_of_keepsSignals (hstep : s.step concurrency ev = some s')
    (hkeeps : s'.KeepsSignals) : s.claimSees ev = true := by
  cases ev with
  | claimed tasks =>
      cases tasks with
      | cons i tasks => rfl
      | nil =>
          simp only [Consumer.step] at hstep
          split at hstep
          · simp only [List.length_nil, Nat.zero_le, List.nodup_nil, List.all_nil, and_self,
              if_true] at hstep
            cases hstep
            refine List.all_eq_true.mpr fun i _ => ?_
            have hseen : s.missed i = false := hkeeps _ rfl rfl i
            simp [hseen]
          · cases hstep
  | _ => rfl

end Consumer

open Consumer

-- In every run of the loop no signal is lost exactly if each claim that comes back empty has seen
-- what the executions reported during it have committed: a signal gets lost nowhere else.
theorem signals_kept (concurrency : Nat) (s : Consumer) :
    Reaches (Consumer.step concurrency) (fun _ _ s' => s'.KeepsSignals) (init concurrency) s ↔
      Reaches (Consumer.step concurrency) (fun s ev _ => s.claimSees ev = true)
        (init concurrency) s := by
  constructor
  · exact fun h => h.imp fun _ _ _ _ hstep hkeeps => claimSees_of_keepsSignals hstep hkeeps
  · intro h
    refine h.imp fun u ev u' hu hstep hsees => ?_
    have hinv : LoopInv concurrency u :=
      hu.invariant (loopInv_init concurrency) fun _ _ _ _ hinv hstep hk => hinv.step hstep hk
    exact (hinv.step hstep hsees).keepsSignals

section Example

def consumerAfter (ok : Consumer → ConsumerEvent → Consumer → Bool) (events : List ConsumerEvent) :
    Consumer :=
  (Txn.runAll (Consumer.step 2) ok (init 2) events).getD (init 2)

-- One job is running when the second claim looks for more.
def firstJob : List ConsumerEvent := [.snapshot, .claimed [1], .snapshot]

-- It finishes while that claim is on its way back with nothing: the loop blocks for the poll
-- interval, the signal of the freed slot cleared.
theorem signal_discarded : ¬ ∀ s, Reaches (Consumer.step 2) (fun _ _ _ => True) (init 2) s →
    s.KeepsSignals := by
  intro h
  let s := consumerAfter (fun _ _ _ => true)
    (firstJob ++ [.commit 1, .finish 1, .callback 1, .claimed []])
  have hrun : Reaches (Consumer.step 2) (fun _ _ _ => True) (init 2) s :=
    (Reaches.getD_runAll (fun _ _ _ => true) _).mono fun _ _ _ _ => trivial
  have hposition : s.position = .waiting false := by decide +kernel
  have hfreed : s.slotFreed = false := by decide +kernel
  have hmissed : s.missed 1 = true := by decide +kernel
  rw [h s hrun false hposition hfreed 1] at hmissed
  cases hmissed

-- Reported after the loop has blocked, the job wakes it.
theorem signals_kept_late :
    let s := consumerAfter (fun s ev _ => claimSees s ev)
      (firstJob ++ [.claimed [], .commit 1, .finish 1, .callback 1, .freed, .gathered])
    s.position = .claiming 2 false ∧
      Reaches (Consumer.step 2) (fun _ _ s' => s'.KeepsSignals) (init 2) s := by
  intro s
  refine ⟨by decide +kernel, (signals_kept 2 s).mpr ?_⟩
  exact Reaches.getD_runAll (fun s ev _ => claimSees s ev) _

end Example

end Chronos
