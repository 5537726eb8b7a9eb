import Chronos.Txn.Shape
import Chronos.Refinement.Runs
import Chronos.Theorems.WorkerLifecycle

namespace Chronos

open Txn (TxId Reaches)
open JobRepository

-- A state of the system with the now() of each transaction, the instant of its BEGIN, and the
-- lease that the last claim of each job granted.
structure Timed where
  pool : State
  began : TxId → Time
  granted : JobId → Option Time

def opens : Tx Value → Bool
  | .op .begin _ => true
  | _ => false

-- The next statement of the transaction is its BEGIN.
def beginsBeat (s : State) (t : TxId) : Bool :=
  match s.thread t with
  | some ⟨_, some p⟩ => opens p
  | _ => false

def grant (last : Option Time) (before after : Option JobEntry) : Option Time :=
  match before, after with
  | some e, some e' =>
      if e.job.status = .pending ∧ e'.job.status = .running then e'.job.leaseExpiresAt else last
  | _, _ => last

-- lease_seconds is one setting, and the heartbeat loop of a worker awaits each heartbeat.
def paced (leaseSeconds : ℚ) (s : State) : Event → Bool
  | .start _ (.heartbeat w l _) => l = leaseSeconds ∧ underWay s (isHeartbeat w) = false
  | .start _ (.claimJobs args) => args.leaseSeconds = leaseSeconds
  | _ => true

namespace Timed

def init (m : Db) : Timed := ⟨Txn.Pool.init m, fun _ => m.clock, fun _ => none⟩

def beganAfter (s : Timed) : Event → TxId → Time
  | .run t, u => if u = t ∧ beginsBeat s.pool t then s.pool.mem.clock else s.began u
  | _, u => s.began u

def step (leaseSeconds : ℚ) (s : Timed) (ev : Event) : Option Timed :=
  if paced leaseSeconds s.pool ev then
    (system.step s.pool ev).map fun pool =>
      ⟨pool, s.beganAfter ev, fun id =>
        grant (s.granted id) (committedJob s.pool.mem id) (committedJob pool.mem id)⟩
  else none

end Timed

section Beat

variable {w : WorkerId} {l : ℚ} {now : Time} {t : TxId} {m m' : Db}

-- The statements of a heartbeat behind its BEGIN.
inductive Beat (w : WorkerId) (l : ℚ) (now : Time) : {β : Type} → Txn.Stmt Key Row Time β → Prop
  | worker (id : WorkerId) (cond : Worker → Bool) (set : Worker → Worker) :
      Beat w l now (.update (Key.worker id) cond set)
  | scan {β : Type} (query : Snapshot → β) : Beat w l now (.select query)
  | extend (id : JobId) : Beat w l now (.recheck (Key.job id)
      (fun e => (extendLeases w l now).guard e.job) (JobEntry.assign (extendLeases w l now).set))
  | commit : Beat w l now .commit
  | rollback : Beat w l now .rollback

theorem Beat.not_opens {β : Type} {st : Txn.Stmt Key Row Time β} (h : Beat w l now st)
    (next : β → Tx Value) : opens (.op st next) = false := by
  cases h <;> rfl

theorem beat_updateJobs (ids : List JobId) :
    (ExecutionService.updateJobs (extendLeases w l now) ids).All (Beat w l now) := by
  induction ids with
  | nil => exact .pure _
  | cons id ids ih => exact .bind (.stmt (.extend id)) fun row => .bind ih fun n => .pure _

theorem beat_heartbeat (rank : JobId → Nat) : ∃ next : Time → Tx Value,
    (Call.heartbeat w l rank).body t = .op .begin next ∧ ∀ now, (next now).All (Beat w l now) := by
  refine ⟨_, rfl, fun now => ?_⟩
  refine ⟨.worker w _ _, fun _ => ⟨.worker w _ _, fun _ => ⟨.scan _, fun ids => ?_⟩⟩⟩
  have hrest : (ExecutionService.updateJobs (extendLeases w l now) ids >>= fun n =>
      Txn.stmt .commit >>= fun _ => Txn.stmt .rollback >>= fun _ => pure n : Tx Nat).All
        (Beat w l now) :=
    .bind (beat_updateJobs ids) fun n => .bind (.stmt .commit) fun _ =>
      .bind (.stmt .rollback) fun _ => .pure _
  exact hrest.bind fun n => .pure (Value.count n)

-- The worker has the lease of the job.
def JobEntry.RunsOn (w : WorkerId) (e : JobEntry) : Prop :=
  e.job.status = .running ∧ e.job.lockedBy = some w

-- The leases of the worker among the rows that `t` holds end at `lease`.
def HoldsLeases (t : TxId) (w : WorkerId) (lease : Time) (m : Db) : Prop :=
  ∀ id e, pendingJob m id = some (t, e) → e.RunsOn w → e.job.leaseExpiresAt = some lease

theorem HoldsLeases.of_idle (h : NoJobs t m) : HoldsLeases t w now m :=
  fun id e hp => absurd hp (h id e)

theorem HoldsLeases.own {lease : Time} (h : HoldsLeases t w lease m) {id : JobId} {e : JobEntry}
    (he : e.RunsOn w → e.job.leaseExpiresAt = some lease) :
    HoldsLeases t w lease (m.own t (.job id) e) := by
  intro id' e' hp
  by_cases hid : id' = id
  · subst hid
    rw [pendingJob, Txn.Store.own_cell_self, Option.some.injEq, Prod.mk.injEq] at hp
    exact hp.2 ▸ he
  · rw [pendingJob, Txn.Store.own_cell_ne t _ _ m (by simpa using hid)] at hp
    exact h id' e' hp

theorem Beat.holdsLeases {β : Type} {st : Txn.Stmt Key Row Time β} (h : Beat w l now st) {r : β}
    (hm : HoldsLeases t w (now + l) m) (he : Txn.exec t st m = some (r, m')) :
    HoldsLeases t w (now + l) m' := by
  cases h with
  | worker id cond set =>
      rcases Txn.exec_update he with ⟨-, rfl, -⟩ | ⟨v, -, -, -, -, rfl⟩
      · exact hm
      · intro id' e hp
        rw [pendingJob, Txn.Store.own_cell_ne t _ _ m (by simp)] at hp
        exact hm id' e hp
  | scan query =>
      simp only [Txn.exec, Option.some.injEq, Prod.mk.injEq] at he
      exact he.2 ▸ hm
  | extend id =>
      rcases Txn.exec_recheck he with ⟨-, rfl, -⟩ | ⟨e, -, -, ⟨hguard, -, rfl⟩ | ⟨-, -, rfl⟩⟩
      · exact hm
      · refine hm.own fun hruns => ?_
        simp only [extendLeases, decide_eq_false_iff_not] at hguard
        exact absurd ⟨hruns.2, hruns.1⟩ hguard
      · exact hm.own fun _ => rfl
  | commit =>
      simp only [Txn.exec, Option.some.injEq, Prod.mk.injEq] at he
      obtain ⟨-, rfl⟩ := he
      exact .of_idle fun id e hp => m.commit_not_held t (.job id) e hp
  | rollback =>
      simp only [Txn.exec, Option.some.injEq, Prod.mk.injEq] at he
      obtain ⟨-, rfl⟩ := he
      exact .of_idle fun id e hp => m.rollback_not_held t (.job id) e hp

-- What is left of a heartbeat, and what it holds: it has not begun, or all its leases end at
-- lease_seconds from its now().
inductive Beating (t : TxId) (w : WorkerId) (l : ℚ) (now : Time) (m : Db) : Tx Value → Prop
  | fresh (next : Time → Tx Value) (hnext : ∀ now, (next now).All (Beat w l now))
      (hidle : NoJobs t m) : Beating t w l now m (.op .begin next)
  | begun (p : Tx Value) (hp : p.All (Beat w l now)) (hheld : HoldsLeases t w (now + l) m) :
      Beating t w l now m p

end Beat

theorem Beating.other {t : TxId} {w : WorkerId} {l : ℚ} {now : Time} {m m' : Db} {p : Tx Value}
    (h : Beating t w l now m p)
    (hpending : ∀ id e, pendingJob m' id = some (t, e) → pendingJob m id = some (t, e)) :
    Beating t w l now m' p := by
  cases h with
  | fresh next hnext hidle => exact .fresh next hnext fun id e hp => hidle id e (hpending id e hp)
  | begun p hp hheld => exact .begun p hp fun id e hid => hheld id e (hpending id e hid)

section Steps

variable {l : ℚ} {s s' : Timed} {ev : Event} {t : TxId}

theorem timed_step (h : s.step l ev = some s') : paced l s.pool ev = true ∧
    system.step s.pool ev = some s'.pool ∧ s'.began = s.beganAfter ev ∧
    ∀ id, s'.granted id =
      grant (s.granted id) (committedJob s.pool.mem id) (committedJob s'.pool.mem id) := by
  unfold Timed.step at h
  split at h
  · rename_i hpaced
    obtain ⟨pool, hpool, rfl⟩ := Option.map_eq_some_iff.mp h
    exact ⟨hpaced, hpool, rfl, fun _ => rfl⟩
  · cases h

theorem timed_reachable {m : Db} {ok : Timed → Event → Timed → Prop}
    (h : Reaches (Timed.step l) ok (.init m) s) : system.Reachable m s.pool := by
  induction h with
  | refl => exact .refl
  | tail hs he hok ih => exact .tail ih (timed_step he).2.1 trivial

-- A step as one transaction sees it: it is another's, or its own.
inductive TimedStep (s s' : Timed) (ev : Event) (t : TxId) : Prop
  | other (hev : ev ≠ .run t) (hthread : s'.pool.thread t = s.pool.thread t)
      (hbegan : s'.began t = s.began t)
      (hpending : ∀ id e, pendingJob s'.pool.mem id = some (t, e) →
        pendingJob s.pool.mem id = some (t, e))
  | started (c : Call) (hev : ev = .start t c) (hfresh : t ∉ s.pool.mem.opened)
      (hthread : s'.pool.thread t = some ⟨c, some (c.body t)⟩)
      (hpending : ∀ id e, pendingJob s'.pool.mem id = some (t, e) →
        pendingJob s.pool.mem id = some (t, e))
  | ran (c : Call) {β : Type} (st : Txn.Stmt Key Row Time β) (next : β → Tx Value) (r : β)
      (ht : s.pool.thread t = some ⟨c, some (.op st next)⟩)
      (he : Txn.exec t st s.pool.mem = some (r, s'.pool.mem))
      (hthread : s'.pool.thread t = some ⟨c, some (next r)⟩)
      (hbegan : s'.began t = if beginsBeat s.pool t then s.pool.mem.clock else s.began t)
  | skipped (c : Call) {β : Type} (st : Txn.Stmt Key Row Time β) (next : β → Tx Value) (r : β)
      (ht : s.pool.thread t = some ⟨c, some (.op st next)⟩) (hr : st.skipped = some r)
      (hthread : s'.pool.thread t = some ⟨c, some (next r)⟩)
  | cutOff (c : Call) {p : Tx Value} (ht : s.pool.thread t = some ⟨c, some p⟩)
      (hthread : s'.pool.thread t = some ⟨c, none⟩)

theorem timedStep_of_step (hwf : s.pool.mem.WF) (h : s.step l ev = some s') (t : TxId) :
    TimedStep s s' ev t := by
  obtain ⟨-, hpool, hbegan, -⟩ := timed_step h
  obtain ⟨pool', began', granted'⟩ := s'
  dsimp only at hpool hbegan
  subst hbegan
  cases Txn.System.steps_of_step hpool with
  | tick now hnow => exact .other nofun rfl rfl fun id e hp => hp
  | start u c hfresh hmay =>
      by_cases heq : t = u
      · subst heq
        exact .started c rfl hfresh (Txn.Pool.set_thread_self _ t c _ _) fun id e hp => hp
      · exact .other nofun (Txn.Pool.set_thread_ne _ c _ _ heq) rfl fun id e hp => hp
  | run u c st next r m ht he =>
      by_cases heq : t = u
      · subst heq
        refine .ran c st next r ht he (Txn.Pool.set_thread_self _ t c _ _) ?_
        simp [Timed.beganAfter]
      · refine .other (fun hrun => heq (Txn.Event.run.inj hrun).symm)
          (Txn.Pool.set_thread_ne _ c _ _ heq) (by simp [Timed.beganAfter, heq]) fun id e hp => ?_
        exact ((((Txn.exec_change he).frame hwf).cells (.job id)).other heq e).mpr hp
  | skip u c st next r ht hr =>
      by_cases heq : t = u
      · subst heq
        exact .skipped c st next r ht hr (Txn.Pool.set_thread_self _ t c _ _)
      · exact .other nofun (Txn.Pool.set_thread_ne _ c _ _ heq) rfl fun id e hp => hp
  | abort u c st next ht =>
      by_cases heq : t = u
      · subst heq
        exact .cutOff c ht (Txn.Pool.set_thread_self _ t c _ _)
      · refine .other nofun (Txn.Pool.set_thread_ne _ c _ _ heq) rfl fun id e hp => ?_
        exact (((Txn.Frame.rollback u s.pool.mem).cells (.job id)).other heq e).mpr hp

-- What is left of a heartbeat stays so.
theorem Beating.step {w : WorkerId} {β : Type} {st : Txn.Stmt Key Row Time β} {next : β → Tx Value}
    {r : β} {c : Call} (h : Beating t w l (s.began t) s.pool.mem (.op st next))
    (ht : s.pool.thread t = some ⟨c, some (.op st next)⟩)
    (he : Txn.exec t st s.pool.mem = some (r, s'.pool.mem))
    (hbegan : s'.began t = if beginsBeat s.pool t then s.pool.mem.clock else s.began t) :
    Beating t w l (s'.began t) s'.pool.mem (next r) := by
  cases h with
  | fresh next hnext hidle =>
      have hbegins : beginsBeat s.pool t = true := by
        rw [beginsBeat, ht]
        rfl
      rw [hbegins, if_pos rfl] at hbegan
      simp only [Txn.exec, Option.some.injEq, Prod.mk.injEq] at he
      rw [hbegan, ← he.1, ← he.2]
      exact .begun _ (hnext _) (.of_idle hidle)
  | begun p hp hheld =>
      have hbegins : beginsBeat s.pool t = false := by
        rw [beginsBeat, ht]
        exact hp.1.not_opens next
      rw [hbegins] at hbegan
      rw [hbegan]
      exact .begun _ (hp.2 r) (hp.1.holdsLeases hheld he)

-- At its COMMIT it has begun.
theorem Beating.of_commits {w : WorkerId} {now : Time} {m : Db} {β : Type}
    {st : Txn.Stmt Key Row Time β} {next : β → Tx Value}
    (h : Beating t w l now m (.op st next)) (hst : st.commits = true) :
    Beat w l now st ∧ HoldsLeases t w (now + l) m := by
  cases h with
  | fresh next hnext hidle => cases hst
  | begun p hp hheld => exact ⟨hp.1, hheld⟩

theorem Beating.not_skipped {w : WorkerId} {now : Time} {m : Db} {β : Type}
    {st : Txn.Stmt Key Row Time β} {next : β → Tx Value} {r : β}
    (h : Beating t w l now m (.op st next)) (hr : st.skipped = some r) : False := by
  cases h with
  | fresh next hnext hidle => cases hr
  | begun p hp hheld =>
      have hbeat := hp.1
      cases hbeat <;> cases hr

end Steps

end Chronos
