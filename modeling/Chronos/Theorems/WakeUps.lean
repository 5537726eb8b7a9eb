import Chronos.Worker.Tasks
import Chronos.Worker.Wake

namespace Chronos

open Txn (Reaches)
open Consumer (Steps)

variable {concurrency : Nat} {loop loop' : Consumer} {s s' : Listener} {ev : ConsumerEvent}

-- The loop takes another snapshot before it waits again, or ends, or has no free slot to claim
-- for until a task is reported to it.
def Owed (concurrency : Nat) (loop : Consumer) : Prop :=
  match loop.position with
  | .claiming _ snapped => snapped = false
  | .waiting _ => loop.slotFreed = true ∨ concurrency ≤ loop.inflight.length
  | _ => True

theorem owed_resume : Owed concurrency (loop.resume concurrency) := by
  unfold Consumer.resume
  split
  · trivial
  · dsimp only
    split
    · rfl
    · rename_i hfull
      exact .inr (by simp only [Consumer.waitForWork]; omega)

theorem Owed.step (h : Owed concurrency loop) (hstep : Steps concurrency loop ev loop') :
    ev = .snapshot ∨ Owed concurrency loop' := by
  cases hstep with
  | snapshot limit hposition => exact .inl rfl
  | claimed limit tasks hposition hlength hfresh =>
      rw [Owed, hposition] at h
      cases h
  | raised limit snapped hposition => exact .inr trivial
  | slept hposition => exact .inr owed_resume
  | commit i hi => exact .inr h
  | finish i x committed hi hx => exact .inr h
  | callback i committed hi =>
      right
      unfold Owed at h ⊢
      rw [show (loop.onTaskDone i committed).position = loop.position from rfl]
      cases hposition : loop.position with
      | claiming limit snapped =>
          rw [hposition] at h
          exact h
      | waiting watching => exact .inl rfl
      | _ => trivial
  | wake hposition => exact .inr trivial
  | wakeIdle hposition => exact .inr owed_resume
  | freed hposition => exact .inr trivial
  | gathered hposition => exact .inr owed_resume
  | drain => exact .inr h

-- Nothing but its end moves the loop on from its wait.
theorem waiting_of_steps {watching : Bool} (hposition : loop.position = .waiting watching)
    (hstep : Steps concurrency loop ev loop') (hwake : ev ≠ .wake) (hfreed : ev ≠ .freed) :
    loop'.position = .waiting watching := by
  cases hstep with
  | commit i hi => exact hposition
  | finish i x committed hi hx => exact hposition
  | callback i committed hi => exact hposition
  | drain => exact hposition
  | wake h => exact absurd rfl hwake
  | wakeIdle h => exact absurd rfl hwake
  | freed h => exact absurd rfl hfreed
  | _ => simp_all

-- The idle loop has no tasks, so there is nothing to report to it.
def IdleWait (loop : Consumer) : Prop :=
  loop.position = .waiting false → loop.inflight = [] ∧ loop.slotFreed = false

theorem idleWait_resume : IdleWait (loop.resume concurrency) := by
  intro hposition
  unfold Consumer.resume at hposition ⊢
  split at hposition
  · cases hposition
  · rename_i hdraining
    rw [if_neg hdraining]
    dsimp only at hposition ⊢
    split at hposition
    · cases hposition
    · rename_i hfull
      rw [if_neg hfull]
      simp only [Consumer.waitForWork, Position.waiting.injEq, decide_eq_false_iff_not,
        not_not] at hposition
      exact ⟨hposition, rfl⟩

theorem IdleWait.step (h : IdleWait loop) (htasks : Consumer.TasksInv loop)
    (hstep : Steps concurrency loop ev loop') : IdleWait loop' := by
  cases hstep with
  | claimed limit tasks hposition hlength hfresh =>
      unfold Consumer.receive
      split
      · intro hwait
        simp only [Consumer.waitForWork, Position.waiting.injEq, decide_eq_false_iff_not,
          not_not] at hwait
        exact ⟨hwait, rfl⟩
      · exact idleWait_resume
  | slept hposition => exact idleWait_resume
  | callback i committed hi =>
      intro hwait
      have hmem := htasks.inflight i _ hi (by simp)
      rw [(h hwait).1] at hmem
      cases hmem
  | commit i hi => exact h
  | finish i x committed hi hx => exact h
  | wakeIdle hposition => exact idleWait_resume
  | gathered hposition => exact idleWait_resume
  | drain => exact h
  | _ => exact fun hwait => (by cases hwait)

def unread : Option PubSub → Nat
  | some (.subscribed n) => n
  | _ => 0

structure WakeInv (concurrency : Nat) (s : Listener) : Prop where
  tasks : Consumer.TasksInv s.loop
  idle : IdleWait s.loop
  waits : s.waits.isSome = true ↔ ∃ watching, s.loop.position = .waiting watching
  reading : ∀ n a, s.pubsub = some (.subscribed n) → s.waits = some a → a = .getMessage
  live : s.published ≠ [] → ∃ n, s.pubsub = some (.subscribed n)
  committed : ∀ id ∈ s.published, id ∈ s.jobs
  kept : ∀ id ∈ s.published, id ∈ s.seen ∨ 0 < unread s.pubsub ∨ Owed concurrency s.loop

namespace Listener

theorem enter_of_new {watching : Bool} (h : loop.position = .waiting watching)
    (hpubsub : s.pubsub = none) : s.enter loop =
      { s with loop := loop, pubsub := some .created, waits := some .subscribe } := by
  rw [enter, h]
  simp only [waitForWake, hpubsub]

theorem enter_of_old {watching : Bool} (h : loop.position = .waiting watching) {pubsub : PubSub}
    (hpubsub : s.pubsub = some pubsub) :
    s.enter loop = { s with loop := loop, waits := some .getMessage } := by
  rw [enter, h]
  simp only [waitForWake, hpubsub]

theorem enter_of_not_waiting (h : ∀ watching, loop.position ≠ .waiting watching) :
    s.enter loop = { s with loop := loop, waits := none } := by
  unfold enter
  split
  · rename_i watching hposition
    exact absurd hposition (h watching)
  · rfl

theorem step_loop (hsnapshot : ev ≠ .snapshot) (hwake : ev ≠ .wake) (hfreed : ev ≠ .freed) :
    s.step concurrency (.loop ev) = (s.loop.step concurrency ev).map fun loop =>
      if s.waits.isSome then { s with loop := loop } else s.enter loop := by
  cases ev with
  | snapshot => exact absurd rfl hsnapshot
  | wake => exact absurd rfl hwake
  | freed => exact absurd rfl hfreed
  | _ => rfl

end Listener

theorem WakeInv.enter (htasks : Consumer.TasksInv loop) (hidle : IdleWait loop)
    (hlive : s.published ≠ [] → ∃ n, s.pubsub = some (.subscribed n))
    (hcommitted : ∀ id ∈ s.published, id ∈ s.jobs)
    (hkept : ∀ id ∈ s.published, id ∈ s.seen ∨ 0 < unread s.pubsub ∨ Owed concurrency loop) :
    WakeInv concurrency (s.enter loop) := by
  by_cases hposition : ∃ watching, loop.position = .waiting watching
  · obtain ⟨watching, hwait⟩ := hposition
    cases hpubsub : s.pubsub with
    | none =>
        rw [Listener.enter_of_new hwait hpubsub]
        have hempty : s.published = [] := by
          by_contra hsome
          obtain ⟨n, hn⟩ := hlive hsome
          rw [hpubsub] at hn
          cases hn
        refine ⟨htasks, hidle, by simp [hwait], by simp, ?_, ?_, ?_⟩
        · exact fun hsome => absurd hempty hsome
        · simp [hempty]
        · simp [hempty]
    | some p =>
        rw [Listener.enter_of_old hwait hpubsub]
        refine ⟨htasks, hidle, by simp [hwait], ?_, hlive, hcommitted, hkept⟩
        exact fun n a _ ha => (Option.some.inj ha).symm
  · rw [Listener.enter_of_not_waiting fun watching h => hposition ⟨watching, h⟩]
    refine ⟨htasks, hidle, iff_of_false (by simp) hposition, ?_, hlive, hcommitted, hkept⟩
    exact fun n a _ ha => by cases ha

theorem wakeInv_init (concurrency : Nat) : WakeInv concurrency (Listener.init concurrency) :=
  .enter (Consumer.tasksInv_init concurrency) idleWait_resume (fun h => absurd rfl h) (by simp)
    (by simp)

-- The end of a wait.
theorem WakeInv.resumed (h : WakeInv concurrency s) (hstep : loop.step concurrency ev = some loop')
    (hev : ev = .wake ∨ ev = .freed) (hloop : s.loop = loop) {pubsub : Option PubSub}
    (hlive : s.published ≠ [] → ∃ n, pubsub = some (.subscribed n)) :
    WakeInv concurrency ({ s with pubsub := pubsub }.enter loop') := by
  subst hloop
  have hsteps := Consumer.steps_of_step hstep
  refine .enter (h.tasks.step hsteps) (h.idle.step h.tasks hsteps) hlive h.committed fun id _ => ?_
  right
  right
  rcases hev with rfl | rfl
  · cases hsteps with
    | wake hposition => trivial
    | wakeIdle hposition => exact owed_resume
  · cases hsteps with
    | freed hposition => trivial

theorem WakeInv.snapshot (h : WakeInv concurrency s)
    (hstep : s.loop.step concurrency .snapshot = some loop') :
    WakeInv concurrency ({ s with seen := s.jobs }.enter loop') := by
  have hsteps := Consumer.steps_of_step hstep
  exact .enter (h.tasks.step hsteps) (h.idle.step h.tasks hsteps) h.live h.committed
    fun id hid => .inl (h.committed id hid)

theorem WakeInv.loop_step (h : WakeInv concurrency s) (hstep : s.loop.step concurrency ev = some loop')
    (hsnapshot : ev ≠ .snapshot) (hwake : ev ≠ .wake) (hfreed : ev ≠ .freed) :
    WakeInv concurrency
      (if s.waits.isSome then { s with loop := loop' } else s.enter loop') := by
  have hsteps := Consumer.steps_of_step hstep
  have htasks := h.tasks.step hsteps
  have hidle := h.idle.step h.tasks hsteps
  have hkept : ∀ id ∈ s.published,
      id ∈ s.seen ∨ 0 < unread s.pubsub ∨ Owed concurrency loop' := by
    intro id hid
    rcases h.kept id hid with hseen | hunread | howed
    · exact .inl hseen
    · exact .inr (.inl hunread)
    · exact .inr (.inr ((howed.step hsteps).resolve_left hsnapshot))
  by_cases hwaits : s.waits.isSome = true
  · rw [if_pos hwaits]
    obtain ⟨watching, hposition⟩ := h.waits.mp hwaits
    have hsame := waiting_of_steps hposition hsteps hwake hfreed
    exact ⟨htasks, hidle, iff_of_true hwaits ⟨watching, hsame⟩, h.reading, h.live, h.committed,
      hkept⟩
  · rw [if_neg hwaits]
    exact .enter htasks hidle h.live h.committed hkept

theorem WakeInv.step {ev : ListenerEvent} (h : WakeInv concurrency s)
    (hstep : s.step concurrency ev = some s') : WakeInv concurrency s' := by
  cases ev with
  | loop ev =>
      by_cases hwake : ev = .wake
      · subst hwake
        cases hstep
      by_cases hfreed : ev = .freed
      · subst hfreed
        cases hstep
      by_cases hsnapshot : ev = .snapshot
      · subst hsnapshot
        obtain ⟨loop', hloop, rfl⟩ := Option.map_eq_some_iff.mp hstep
        exact h.snapshot hloop
      · rw [Listener.step_loop hsnapshot hwake hfreed] at hstep
        obtain ⟨loop', hloop, rfl⟩ := Option.map_eq_some_iff.mp hstep
        exact h.loop_step hloop hsnapshot hwake hfreed
  | committed id =>
      obtain rfl := Option.some.inj hstep
      exact ⟨h.tasks, h.idle, h.waits, h.reading, h.live,
        fun i hi => List.mem_cons_of_mem _ (h.committed i hi), h.kept⟩
  | publishWake id =>
      simp only [Listener.step, Listener.publishWake] at hstep
      split at hstep
      · rename_i hid
        split at hstep
        · rename_i n hpubsub
          obtain rfl := Option.some.inj hstep
          refine ⟨h.tasks, h.idle, h.waits, fun k a _ ha => h.reading n a hpubsub ha,
            fun _ => ⟨n + 1, rfl⟩, fun i hi => ?_, fun i _ => .inr (.inl (Nat.succ_pos n))⟩
          rcases List.mem_cons.mp hi with rfl | hi
          · exact hid
          · exact h.committed i hi
        · obtain rfl := Option.some.inj hstep
          exact h
      · cases hstep
  | subscribed =>
      simp only [Listener.step, Option.ite_none_right_eq_some] at hstep
      obtain ⟨hwaits, hs'⟩ := hstep
      obtain rfl := Option.some.inj hs'
      have hempty : s.published = [] := by
        by_contra hsome
        obtain ⟨n, hn⟩ := h.live hsome
        cases h.reading n _ hn hwaits
      refine ⟨h.tasks, h.idle, iff_of_true rfl (h.waits.mp (by rw [hwaits]; rfl)), ?_, ?_, ?_, ?_⟩
      · exact fun n a _ ha => (Option.some.inj ha).symm
      · exact fun hsome => absurd hempty hsome
      · simp [hempty]
      · simp [hempty]
  | message =>
      simp only [Listener.step] at hstep
      split at hstep
      · rename_i n hwaits hpubsub
        obtain ⟨loop', hloop, rfl⟩ := Option.map_eq_some_iff.mp hstep
        exact h.resumed hloop (.inl rfl) rfl fun _ => ⟨n, rfl⟩
      · cases hstep
  | noMessage =>
      simp only [Listener.step, Option.ite_none_right_eq_some] at hstep
      obtain ⟨loop', hloop, rfl⟩ := Option.map_eq_some_iff.mp hstep.2
      exact h.resumed hloop (.inl rfl) rfl h.live
  | failed =>
      simp only [Listener.step, Option.ite_none_right_eq_some] at hstep
      obtain ⟨hwaits, hs'⟩ := hstep
      obtain rfl := Option.some.inj hs'
      have hsome : s.waits.isSome = true := by rcases hwaits with hw | hw <;> rw [hw] <;> rfl
      exact ⟨h.tasks, h.idle, iff_of_true rfl (h.waits.mp hsome), by simp, by simp, by simp, by simp⟩
  | slept =>
      simp only [Listener.step, Option.ite_none_right_eq_some] at hstep
      obtain ⟨loop', hloop, rfl⟩ := Option.map_eq_some_iff.mp hstep.2
      exact h.resumed hloop (.inl rfl) rfl h.live
  | freed done =>
      simp only [Listener.step] at hstep
      split at hstep
      · rename_i waits hwaits
        obtain ⟨loop', hloop, rfl⟩ := Option.map_eq_some_iff.mp hstep
        refine h.resumed hloop (.inr rfl) rfl fun hsome => ?_
        obtain ⟨n, hn⟩ := h.live hsome
        rw [hn, h.reading n waits hn hwaits]
        cases n with
        | zero => exact ⟨0, rfl⟩
        | succ n => cases done <;> exact ⟨_, rfl⟩
      · cases hstep
  | disconnected =>
      obtain rfl := Option.some.inj hstep
      refine ⟨h.tasks, h.idle, h.waits, fun n a hn => ?_, by simp, by simp, by simp⟩
      obtain ⟨p, -, hp⟩ := Option.map_eq_some_iff.mp hn
      cases hp

theorem wakeInv_of_reaches
    (h : Reaches (Listener.step concurrency) (fun _ _ _ => True) (.init concurrency) s) :
    WakeInv concurrency s :=
  h.invariant (wakeInv_init concurrency) fun _ _ _ _ hinv hstep _ => hinv.step hstep

-- Once a wake has reached its subscription, a worker with a free slot does not sleep on the job:
-- the last claim has seen it, or the wait ends without its timeout.
theorem wakes_kept (concurrency : Nat) (s : Listener)
    (h : Reaches (Listener.step concurrency) (fun _ _ _ => True) (.init concurrency) s)
    (watching : Bool) (hwait : s.loop.position = .waiting watching)
    (hroom : s.loop.inflight.length < concurrency) :
    ∀ id ∈ s.published, id ∈ s.seen ∨ (s.step concurrency .message).isSome = true ∨
      ∀ done, (s.step concurrency (.freed done)).isSome = true := by
  have hinv := wakeInv_of_reaches h
  obtain ⟨a, ha⟩ := Option.isSome_iff_exists.mp (hinv.waits.mpr ⟨watching, hwait⟩)
  intro id hid
  rcases hinv.kept id hid with hseen | hunread | howed
  · exact .inl hseen
  · right
    left
    obtain ⟨n, hn⟩ := hinv.live (List.ne_nil_of_mem hid)
    obtain rfl := hinv.reading n a hn ha
    rw [hn] at hunread
    obtain ⟨k, rfl⟩ := Nat.exists_eq_succ_of_ne_zero (Nat.pos_iff_ne_zero.mp hunread)
    cases watching <;> simp [Listener.step, ha, hn, Listener.woken, Consumer.step, hwait]
  · right
    right
    rw [Owed, hwait] at howed
    have hfreed : s.loop.slotFreed = true := howed.resolve_right (by omega)
    obtain rfl : watching = true := by
      cases watching with
      | true => rfl
      | false => rw [(hinv.idle hwait).2] at hfreed; cases hfreed
    intro done
    simp [Listener.step, ha, Consumer.step, hwait, hfreed]

def listenerAfter (events : List ListenerEvent) : Listener :=
  (Txn.runAll (Listener.step 2) (fun _ _ _ => true) (.init 2) events).getD (.init 2)

-- A job that is enqueued between a claim's snapshot and the wait after it.
def enqueuedMeanwhile : List ListenerEvent :=
  [.loop .snapshot, .loop (.claimed []), .subscribed, .noMessage, .loop .snapshot, .committed 7,
    .publishWake 7, .loop (.claimed [])]

theorem wakes_kept_meanwhile :
    (listenerAfter enqueuedMeanwhile).published = [7] ∧
    (listenerAfter enqueuedMeanwhile).seen = [] ∧
    (7 ∈ (listenerAfter enqueuedMeanwhile).seen ∨
      ((listenerAfter enqueuedMeanwhile).step 2 .message).isSome = true ∨
      ∀ done, ((listenerAfter enqueuedMeanwhile).step 2 (.freed done)).isSome = true) := by
  have hrun : Reaches (Listener.step 2) (fun _ _ _ => True) (.init 2)
      (listenerAfter enqueuedMeanwhile) :=
    (Reaches.getD_runAll (fun _ _ _ => true) _).mono fun _ _ _ _ => trivial
  have hpublished : (listenerAfter enqueuedMeanwhile).published = [7] := by decide +kernel
  refine ⟨hpublished, by decide +kernel, ?_⟩
  exact wakes_kept 2 _ hrun false (by decide +kernel) (by decide +kernel) 7 (by simp [hpublished])

end Chronos
