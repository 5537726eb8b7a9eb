import Chronos.Worker.Beats

namespace Chronos

open Txn (TxId Reaches)
open JobRepository

variable {l : ℚ} {m : Db} {s s' : Timed} {ev : Event} {t u : TxId} {w : WorkerId}

-- What a step does to the leases: while a claim is current its lease is not shortened, and a
-- heartbeat commits no lease that ends before the one the claim granted.
structure LeasesForward (s : Timed) (ev : Event) (s' : Timed) : Prop where
  forward : ∀ id e e' c, committedJob s.pool.mem id = some e →
    committedJob s'.pool.mem id = some e' → e.currentClaim = some c → e'.currentClaim = some c →
      ∃ x y, e.job.leaseExpiresAt = some x ∧ e'.job.leaseExpiresAt = some y ∧ x ≤ y
  granted : ∀ t w l rank next, ev = .run t →
    s.pool.thread t = some ⟨.heartbeat w l rank, some (.op .commit next)⟩ →
      ∀ id v, pendingJob s.pool.mem id = some (t, v) → v.RunsOn w →
        ∃ x y, s.granted id = some x ∧ v.job.leaseExpiresAt = some y ∧ x ≤ y

-- A heartbeat commits no lease of a claim whose transaction began after its own: started_at is the
-- now() of the claim.
def BeganAfterClaims (s : Timed) (ev : Event) : Prop :=
  ∀ t w l rank next, ev = .run t →
    s.pool.thread t = some ⟨.heartbeat w l rank, some (.op .commit next)⟩ →
      ∀ id v e startedAt, pendingJob s.pool.mem id = some (t, v) → v.RunsOn w →
        committedJob s.pool.mem id = some e → e.job.startedAt = some startedAt →
          startedAt ≤ s.began t

section Leases

-- The lease of a job that is RUNNING is the one the claim granted, or ends no later than
-- lease_seconds from `b`.
def Leased (l : ℚ) (b : Time) (granted : Option Time) (e : JobEntry) : Prop :=
  ∃ startedAt lease, e.job.startedAt = some startedAt ∧ e.job.leaseExpiresAt = some lease ∧
    granted = some (startedAt + l) ∧ (lease = startedAt + l ∨ lease ≤ b + l)

theorem Leased.mono {b b' : Time} {granted : Option Time} {e : JobEntry}
    (h : Leased l b granted e) (hb : b ≤ b') : Leased l b' granted e := by
  obtain ⟨startedAt, lease, hs, hl, hg, hlease⟩ := h
  refine ⟨startedAt, lease, hs, hl, hg, hlease.imp_right fun hle => ?_⟩
  linarith

theorem Leased.congr {b : Time} {granted : Option Time} {e e' : JobEntry}
    (h : Leased l b granted e) (hs : e'.job.startedAt = e.job.startedAt)
    (hl : e'.job.leaseExpiresAt = e.job.leaseExpiresAt) : Leased l b granted e' := by
  obtain ⟨startedAt, lease, hs', hl', hrest⟩ := h
  exact ⟨startedAt, lease, hs.trans hs', hl.trans hl', hrest⟩

-- What leaves a job RUNNING.
inductive LeftRunning (op : JobOp) (e e' : JobEntry) : Prop
  | claimed (tx : TxId) (w : WorkerId) (l : ℚ) (now : Time) (pass : Pass)
      (hop : op = .claim tx w l now pass) (hpending : e.job.status = .pending)
      (hstarted : e'.job.startedAt = some now) (hlease : e'.job.leaseExpiresAt = some (now + l))
  | extended (w : WorkerId) (l : ℚ) (now : Time) (hop : op = .extend w l now)
      (hrunning : e.job.status = .running) (hlocked : e.job.lockedBy = some w)
      (hlocked' : e'.job.lockedBy = some w) (hstarted : e'.job.startedAt = e.job.startedAt)
  | kept (hrunning : e.job.status = .running) (hlocked : e'.job.lockedBy = e.job.lockedBy)
      (hstarted : e'.job.startedAt = e.job.startedAt)
      (hlease : e'.job.leaseExpiresAt = e.job.leaseExpiresAt)

theorem JobOp.Applies.leftRunning {op : JobOp} {e e' : JobEntry} (h : op.Applies e e')
    (hrunning' : e'.job.status = .running) : LeftRunning op e e' := by
  cases h with
  | claim tx workerId leaseSeconds now pass e hpending hready =>
      exact .claimed tx workerId leaseSeconds now pass rfl hpending rfl rfl
  | extend workerId leaseSeconds now e hlocked hrunning =>
      exact .extended workerId leaseSeconds now rfl hrunning hlocked hlocked rfl
  | finish claim tx snapshot workerId o now e hrunning hlocked =>
      exact absurd hrunning' (o.update_status_ne_running workerId now e.job)
  | reclaim rng now decision e hrunning hdecision =>
      obtain ⟨retry, delay⟩ := decision
      cases retry <;> cases hrunning'
  | cancel ownerId now e howner hpending => cases hrunning'
  | requeue ownerId now e howner hended => cases hrunning'
  | summarize text e => exact .kept hrunning' rfl rfl rfl

end Leases

-- A heartbeat under way.
def InBeat (s : Timed) (t : TxId) (w : WorkerId) : Prop :=
  ∃ (l : ℚ) (rank : JobId → Nat) (β : Type) (st : Txn.Stmt Key Row Time β) (next : β → Tx Value),
    s.pool.thread t = some ⟨.heartbeat w l rank, some (.op st next)⟩

-- It has begun.
def Begun (l : ℚ) (s : Timed) (t : TxId) (w : WorkerId) : Prop :=
  ∃ (l' : ℚ) (rank : JobId → Nat) (β : Type) (st : Txn.Stmt Key Row Time β) (next : β → Tx Value),
    s.pool.thread t = some ⟨.heartbeat w l' rank, some (.op st next)⟩ ∧ Beat w l (s.began t) st

theorem Begun.inBeat (h : Begun l s t w) : InBeat s t w := by
  obtain ⟨l', rank, β, st, next, ht, -⟩ := h
  exact ⟨l', rank, β, st, next, ht⟩

def HasPace (l : ℚ) : Call → Prop
  | .heartbeat _ l' _ => l' = l
  | .claimJobs args => args.leaseSeconds = l
  | _ => True

structure TimedInv (l : ℚ) (s : Timed) : Prop where
  clock : ∀ t, s.began t ≤ s.pool.mem.clock
  pace : ∀ t c rest, s.pool.thread t = some ⟨c, rest⟩ → HasPace l c
  beats : ∀ t w l' rank p, s.pool.thread t = some ⟨.heartbeat w l' rank, some p⟩ →
    Beating t w l (s.began t) s.pool.mem p
  single : ∀ t u w, InBeat s t w → InBeat s u w → t = u
  rows : ∀ id e, committedJob s.pool.mem id = some e → e.job.status = .running →
    Leased l s.pool.mem.clock (s.granted id) e
  latest : ∀ t w, Begun l s t w → ∀ id e, committedJob s.pool.mem id = some e →
    e.job.status = .running → e.job.lockedBy = some w → Leased l (s.began t) (s.granted id) e

theorem timedInv_init (hm : Initial m) : TimedInv l (.init m) := by
  have hthread : ∀ t, (Timed.init m).pool.thread t = none := fun _ => rfl
  refine ⟨fun _ => le_refl _, fun t c rest ht => ?_, fun t w l' rank p ht => ?_,
    fun t u w ht => ?_, fun id e he => ?_, fun t w ht => ?_⟩
  · rw [hthread] at ht
    cases ht
  · rw [hthread] at ht
    cases ht
  · obtain ⟨l', rank, β, st, next, ht⟩ := ht
    rw [hthread] at ht
    cases ht
  · rw [committedJob, Timed.init, Txn.Pool.init, hm.job id] at he
    cases he
  · obtain ⟨l', rank, β, st, next, ht, -⟩ := ht
    rw [hthread] at ht
    cases ht

section Step

theorem clock_le_of_step (hwf : s.pool.mem.WF) (h : s.step l ev = some s') :
    s.pool.mem.clock ≤ s'.pool.mem.clock := by
  obtain ⟨-, hpool, -, -⟩ := timed_step h
  obtain ⟨pool', began', granted'⟩ := s'
  dsimp only at hpool ⊢
  cases Txn.System.steps_of_step hpool with
  | tick now hnow => exact hnow
  | start t c hfresh hmay => exact le_refl _
  | run t c st next r m ht he => exact (((Txn.exec_change he).frame hwf).clock).ge
  | skip t c st next r ht hr => exact le_refl _
  | abort t c st next ht => exact le_refl _

theorem paced_hasPace {c : Call} (h : paced l s.pool (.start t c) = true) : HasPace l c := by
  cases c with
  | heartbeat w l' rank =>
      simp only [paced, decide_eq_true_eq] at h
      exact h.1
  | claimJobs args =>
      simp only [paced, decide_eq_true_eq] at h
      exact h
  | _ => trivial

-- Where a RUNNING job's row comes from.
inductive RunningStep (l : ℚ) (s s' : Timed) (ev : Event) (id : JobId) (e' : JobEntry) : Prop
  | same (he : committedJob s.pool.mem id = some e') (hgrant : s'.granted id = s.granted id)
  | claimed (t : TxId) (args : ClaimArgs) (p : Tx Value) (now : Time) (hev : ev = .run t)
      (ht : s.pool.thread t = some ⟨.claimJobs args, some p⟩)
      (hpending : ∀ e, committedJob s.pool.mem id = some e → e.job.status = .pending)
      (hstarted : e'.job.startedAt = some now) (hlease : e'.job.leaseExpiresAt = some (now + l))
      (hgrant : s'.granted id = some (now + l))
  | beat (t : TxId) (w : WorkerId) (rank : JobId → Nat) (next : Unit → Tx Value) (e : JobEntry)
      (hev : ev = .run t)
      (ht : s.pool.thread t = some ⟨.heartbeat w l rank, some (.op .commit next)⟩)
      (hheld : pendingJob s.pool.mem id = some (t, e'))
      (he : committedJob s.pool.mem id = some e) (hrunning : e.job.status = .running)
      (hlocked : e.job.lockedBy = some w) (hlocked' : e'.job.lockedBy = some w)
      (hstarted : e'.job.startedAt = e.job.startedAt)
      (hlease : e'.job.leaseExpiresAt = some (s.began t + l)) (hgrant : s'.granted id = s.granted id)
  | kept (e : JobEntry) (he : committedJob s.pool.mem id = some e) (hrunning : e.job.status = .running)
      (hlocked : e'.job.lockedBy = e.job.lockedBy) (hstarted : e'.job.startedAt = e.job.startedAt)
      (hlease : e'.job.leaseExpiresAt = e.job.leaseExpiresAt) (hgrant : s'.granted id = s.granted id)

theorem grant_of_running {last : Option Time} {e : JobEntry} (h : e.job.status = .running)
    (after : Option JobEntry) : grant last (some e) after = last := by
  cases after with
  | none => rfl
  | some e' => exact if_neg fun hboth => by simp [h] at hboth

theorem runningStep_of_step (hm : Initial m) (hr : system.Reachable m s.pool) (hinv : TimedInv l s)
    (h : s.step l ev = some s') {id : JobId} {e' : JobEntry}
    (he' : committedJob s'.pool.mem id = some e') (hrunning' : e'.job.status = .running) :
    RunningStep l s s' ev id e' := by
  obtain ⟨-, hpool, -, hgranted⟩ := timed_step h
  have hgrant := hgranted id
  by_cases hsame : committedJob s'.pool.mem id = committedJob s.pool.mem id
  · have he : committedJob s.pool.mem id = some e' := hsame.symm.trans he'
    rw [he, grant_of_running hrunning'] at hgrant
    exact .same he hgrant
  · obtain ⟨t, c, next, v, hev, ht, hmem, hheld, hv⟩ :=
      Txn.System.publication (k := Key.job id) hpool hsame
    obtain rfl : v = e' := Option.some.inj (hv.symm.trans he')
    cases Run.published hm (run_of_reachable hr) hpool (permitted_none _ _ _) id with
    | same heq => exact absurd heq hsame
    | created t' c' p d hev' ht' hnone hd hnew =>
        obtain rfl : d = v := Option.some.inj (hd.symm.trans he')
        rw [hnew.pending] at hrunning'
        cases hrunning'
    | changed t' c' p op e d hev' ht' he hd heff =>
        obtain rfl : d = v := Option.some.inj (hd.symm.trans he')
        obtain rfl : t = t' := Txn.Event.run.inj (hev.symm.trans hev')
        obtain ⟨rfl, hp⟩ := Txn.Thread.mk.inj (Option.some.inj (ht.symm.trans ht'))
        cases heff.applies.leftRunning hrunning' with
        | claimed tx w l' now pass hop hpending hstarted hlease =>
            subst hop
            cases heff.performs with
            | claim args now pass =>
                have hpace : args.leaseSeconds = l := hinv.pace t _ _ ht
                rw [hpace] at hlease
                refine .claimed t args _ now hev ht (fun e₁ he₁ => ?_) hstarted hlease ?_
                · obtain rfl := Option.some.inj (he.symm.trans he₁)
                  exact hpending
                · rw [hgrant, he, he', grant, if_pos ⟨hpending, hrunning'⟩, hlease]
        | extended w l' now hop hrunning hlocked hlocked' hstarted =>
            subst hop
            cases heff.performs with
            | extend w l' rank now =>
                obtain rfl : l' = l := hinv.pace t _ _ ht
                rw [he, grant_of_running hrunning] at hgrant
                refine .beat t w rank next e hev ht hheld he hrunning hlocked hlocked' hstarted ?_
                  hgrant
                exact ((hinv.beats t w l' rank _ ht).of_commits rfl).2 id d hheld
                  ⟨hrunning', hlocked'⟩
        | kept hrunning hlocked hstarted hlease =>
            rw [he, grant_of_running hrunning] at hgrant
            exact .kept e he hrunning hlocked hstarted hlease hgrant

theorem inBeat_before (h : s.step l ev = some s') (hwf : s.pool.mem.WF) (hin : InBeat s' t w) :
    InBeat s t w ∨ (∃ rank, ev = .start t (.heartbeat w l rank)) ∧
      underWay s.pool (isHeartbeat w) = false := by
  obtain ⟨l', rank, β, st, next, ht⟩ := hin
  cases timedStep_of_step hwf h t with
  | other hev hthread hbegan hpending =>
      exact .inl ⟨l', rank, β, st, next, hthread.symm.trans ht⟩
  | started c hev hfresh hthread hpending =>
      obtain ⟨rfl, -⟩ := Txn.Thread.mk.inj (Option.some.inj (hthread.symm.trans ht))
      have hpaced := (timed_step h).1
      simp only [hev, paced, decide_eq_true_eq] at hpaced
      exact .inr ⟨⟨rank, hpaced.1 ▸ hev⟩, hpaced.2⟩
  | ran c st' next' r ht' he hthread hbegan =>
      obtain ⟨rfl, -⟩ := Txn.Thread.mk.inj (Option.some.inj (hthread.symm.trans ht))
      exact .inl ⟨l', rank, _, st', next', ht'⟩
  | skipped c st' next' r ht' hr hthread =>
      obtain ⟨rfl, -⟩ := Txn.Thread.mk.inj (Option.some.inj (hthread.symm.trans ht))
      exact .inl ⟨l', rank, _, st', next', ht'⟩
  | cutOff c ht' hthread => cases hthread.symm.trans ht

theorem not_inBeat (hopened : ∀ t, s.pool.thread t ≠ none → t ∈ s.pool.mem.opened)
    (h : underWay s.pool (isHeartbeat w) = false) : ¬ InBeat s t w := by
  rintro ⟨l', rank, β, st, next, ht⟩
  have hmem : t ∈ s.pool.mem.opened := hopened t (by rw [ht]; nofun)
  rw [underWay, List.any_eq_false] at h
  have hno := h t hmem
  rw [ht] at hno
  simp [isHeartbeat] at hno

theorem single_of_step (hopened : ∀ t, s.pool.thread t ≠ none → t ∈ s.pool.mem.opened)
    (hinv : TimedInv l s) (hwf : s.pool.mem.WF) (h : s.step l ev = some s')
    (ht : InBeat s' t w) (hu : InBeat s' u w) : t = u := by
  rcases inBeat_before h hwf ht with ht | ⟨⟨rank, hev⟩, hnone⟩
  · rcases inBeat_before h hwf hu with hu | ⟨-, hnone⟩
    · exact hinv.single t u w ht hu
    · exact absurd ht (not_inBeat hopened hnone)
  · rcases inBeat_before h hwf hu with hu | ⟨⟨rank', hev'⟩, -⟩
    · exact absurd hu (not_inBeat hopened hnone)
    · have hboth := hev.symm.trans hev'
      injection hboth

theorem beats_of_step (hm : Initial m) (hr : system.Reachable m s.pool) (hinv : TimedInv l s)
    (h : s.step l ev = some s') {l' : ℚ} {rank : JobId → Nat} {p : Tx Value}
    (ht : s'.pool.thread t = some ⟨.heartbeat w l' rank, some p⟩) :
    Beating t w l (s'.began t) s'.pool.mem p := by
  have hpool := Run.inv hm (run_of_reachable hr)
  cases timedStep_of_step hpool.wf h t with
  | other hev hthread hbegan hpending =>
      rw [hthread] at ht
      rw [hbegan]
      exact (hinv.beats t w l' rank p ht).other hpending
  | started c hev hfresh hthread hpending =>
      obtain ⟨rfl, hp⟩ := Txn.Thread.mk.inj (Option.some.inj (hthread.symm.trans ht))
      have hpaced := (timed_step h).1
      simp only [hev, paced, decide_eq_true_eq] at hpaced
      obtain ⟨next, hbody, hnext⟩ := beat_heartbeat (w := w) (l := l') (t := t) rank
      rw [hbody, Option.some.injEq] at hp
      rw [← hp]
      refine .fresh next (hpaced.1 ▸ hnext) fun id e hheld => ?_
      exact hfresh (hpool.held (Key.job id) t e (hpending id e hheld))
  | ran c st next r ht' he hthread hbegan =>
      obtain ⟨rfl, hp⟩ := Txn.Thread.mk.inj (Option.some.inj (hthread.symm.trans ht))
      obtain rfl := Option.some.inj hp
      exact (hinv.beats t w l' rank _ ht').step ht' he hbegan
  | skipped c st next r ht' hr' hthread =>
      obtain ⟨rfl, hp⟩ := Txn.Thread.mk.inj (Option.some.inj (hthread.symm.trans ht))
      exact ((hinv.beats t w l' rank _ ht').not_skipped hr').elim
  | cutOff c ht' hthread => cases hthread.symm.trans ht

theorem rows_of_step (hm : Initial m) (hr : system.Reachable m s.pool) (hinv : TimedInv l s)
    (h : s.step l ev = some s') {id : JobId} {e' : JobEntry}
    (he' : committedJob s'.pool.mem id = some e') (hrunning' : e'.job.status = .running) :
    Leased l s'.pool.mem.clock (s'.granted id) e' := by
  have hclock := clock_le_of_step (Run.inv hm (run_of_reachable hr)).wf h
  cases runningStep_of_step hm hr hinv h he' hrunning' with
  | same he hgrant =>
      rw [hgrant]
      exact (hinv.rows id e' he hrunning').mono hclock
  | claimed t args p now hev ht hpending hstarted hlease hgrant =>
      exact ⟨now, now + l, hstarted, hlease, hgrant, .inl rfl⟩
  | beat t w rank next e hev ht hheld he hrunning hlocked hlocked' hstarted hlease hgrant =>
      obtain ⟨startedAt, lease, hs, -, hg, -⟩ := hinv.rows id e he hrunning
      refine ⟨startedAt, s.began t + l, hstarted.trans hs, hlease, hgrant.trans hg, .inr ?_⟩
      have hbegan := hinv.clock t
      linarith
  | kept e he hrunning hlocked hstarted hlease hgrant =>
      rw [hgrant]
      exact ((hinv.rows id e he hrunning).congr hstarted hlease).mono hclock

-- A heartbeat that has begun had begun before, or has its now() from this step.
theorem begun_before (hm : Initial m) (hr : system.Reachable m s.pool) (hinv : TimedInv l s)
    (h : s.step l ev = some s') (hbegun : Begun l s' t w) :
    Begun l s t w ∧ s'.began t = s.began t ∨ s'.began t = s'.pool.mem.clock := by
  obtain ⟨l', rank, β, st, next, ht, hbeat⟩ := hbegun
  cases timedStep_of_step (Run.inv hm (run_of_reachable hr)).wf h t with
  | other hev hthread hbegan hpending =>
      rw [hthread] at ht
      rw [hbegan] at hbeat
      exact .inl ⟨⟨l', rank, β, st, next, ht, hbeat⟩, hbegan⟩
  | started c hev hfresh hthread hpending =>
      obtain ⟨rfl, hp⟩ := Txn.Thread.mk.inj (Option.some.inj (hthread.symm.trans ht))
      have hopens : opens ((Call.heartbeat w l' rank).body t) = true := by
        obtain ⟨next', hbody, -⟩ := beat_heartbeat (w := w) (l := l') (t := t) rank
        rw [hbody]
        rfl
      rw [Option.some.inj hp, hbeat.not_opens next] at hopens
      cases hopens
  | ran c st' next' r ht' he hthread hbegan =>
      obtain ⟨rfl, -⟩ := Txn.Thread.mk.inj (Option.some.inj (hthread.symm.trans ht))
      have hbefore := hinv.beats t w l' rank _ ht'
      cases hbefore with
      | fresh next₀ hnext hidle =>
          have hbegins : beginsBeat s.pool t = true := by
            rw [beginsBeat, ht']
            rfl
          rw [hbegins, if_pos rfl] at hbegan
          simp only [Txn.exec, Option.some.injEq, Prod.mk.injEq] at he
          exact .inr (by rw [hbegan, he.2])
      | begun p hp hheld =>
          have hbegins : beginsBeat s.pool t = false := by
            rw [beginsBeat, ht']
            exact hp.1.not_opens next'
          rw [hbegins] at hbegan
          exact .inl ⟨⟨l', rank, _, st', next', ht', hp.1⟩, hbegan⟩
  | skipped c st' next' r ht' hr' hthread =>
      obtain ⟨rfl, -⟩ := Txn.Thread.mk.inj (Option.some.inj (hthread.symm.trans ht))
      exact ((hinv.beats t w l' rank _ ht').not_skipped hr').elim
  | cutOff c ht' hthread => cases hthread.symm.trans ht

theorem latest_of_step (hm : Initial m) (hr : system.Reachable m s.pool) (hinv : TimedInv l s)
    (h : s.step l ev = some s') (hbegun : Begun l s' t w) {id : JobId} {e' : JobEntry}
    (he' : committedJob s'.pool.mem id = some e') (hrunning' : e'.job.status = .running)
    (hlocked' : e'.job.lockedBy = some w) : Leased l (s'.began t) (s'.granted id) e' := by
  rcases begun_before hm hr hinv h hbegun with ⟨hbefore, hbegan⟩ | hbegan
  · rw [hbegan]
    cases runningStep_of_step hm hr hinv h he' hrunning' with
    | same he hgrant =>
        rw [hgrant]
        exact hinv.latest t w hbefore id e' he hrunning' hlocked'
    | claimed t' args p now hev ht hpending hstarted hlease hgrant =>
        exact ⟨now, now + l, hstarted, hlease, hgrant, .inl rfl⟩
    | beat u w' rank next e hev ht hheld he hrunning hlocked hlockedu hstarted hlease hgrant =>
        obtain rfl : w = w' := Option.some.inj (hlocked'.symm.trans hlockedu)
        obtain rfl : t = u := hinv.single t u w hbefore.inBeat ⟨l, rank, _, _, next, ht⟩
        obtain ⟨startedAt, lease, hs, -, hg, -⟩ := hinv.rows id e he hrunning
        exact ⟨startedAt, _, hstarted.trans hs, hlease, hgrant.trans hg, .inr (le_refl _)⟩
    | kept e he hrunning hlocked hstarted hlease hgrant =>
        rw [hgrant]
        exact (hinv.latest t w hbefore id e he hrunning (hlocked.symm.trans hlocked')).congr
          hstarted hlease
  · rw [hbegan]
    exact rows_of_step hm hr hinv h he' hrunning'

theorem began_le_clock (hinv : TimedInv l s) (hwf : s.pool.mem.WF) (h : s.step l ev = some s')
    (t : TxId) : s'.began t ≤ s'.pool.mem.clock := by
  have hclock := clock_le_of_step hwf h
  have hbegan := (hinv.clock t).trans hclock
  rw [(timed_step h).2.2.1]
  cases ev with
  | run u =>
      simp only [Timed.beganAfter]
      split
      · exact hclock
      · exact hbegan
  | _ => exact hbegan

theorem hasPace_of_step (hinv : TimedInv l s) (hwf : s.pool.mem.WF) (h : s.step l ev = some s')
    {c : Call} {rest : Option (Tx Value)} (ht : s'.pool.thread t = some ⟨c, rest⟩) : HasPace l c := by
  cases timedStep_of_step hwf h t with
  | other hev hthread hbegan hpending => exact hinv.pace t c rest (hthread.symm.trans ht)
  | started c' hev hfresh hthread hpending =>
      obtain ⟨rfl, -⟩ := Txn.Thread.mk.inj (Option.some.inj (hthread.symm.trans ht))
      exact paced_hasPace (hev ▸ (timed_step h).1)
  | ran c' st next r ht' he hthread hbegan =>
      obtain ⟨rfl, -⟩ := Txn.Thread.mk.inj (Option.some.inj (hthread.symm.trans ht))
      exact hinv.pace t c' _ ht'
  | skipped c' st next r ht' hr hthread =>
      obtain ⟨rfl, -⟩ := Txn.Thread.mk.inj (Option.some.inj (hthread.symm.trans ht))
      exact hinv.pace t c' _ ht'
  | cutOff c' ht' hthread =>
      obtain ⟨rfl, -⟩ := Txn.Thread.mk.inj (Option.some.inj (hthread.symm.trans ht))
      exact hinv.pace t c' _ ht'

theorem timedInv_step (hm : Initial m) (hr : system.Reachable m s.pool) (hinv : TimedInv l s)
    (h : s.step l ev = some s') : TimedInv l s' := by
  have hpool := Run.inv hm (run_of_reachable hr)
  exact {
    clock := began_le_clock hinv hpool.wf h
    pace := fun _ _ _ ht => hasPace_of_step hinv hpool.wf h ht
    beats := fun _ _ _ _ _ ht => beats_of_step hm hr hinv h ht
    single := fun _ _ _ ht hu => single_of_step hpool.threads hinv hpool.wf h ht hu
    rows := fun _ _ he hrunning => rows_of_step hm hr hinv h he hrunning
    latest := fun _ _ hb _ _ he hrunning hlocked =>
      latest_of_step hm hr hinv h hb he hrunning hlocked }

-- At its COMMIT a heartbeat holds leases of jobs that are RUNNING under the same claim.
theorem held_running (hm : Initial m) (hr : system.Reachable m s.pool) (hinv : TimedInv l s)
    (h : s.step l (.run t) = some s') {l' : ℚ} {rank : JobId → Nat} {next : Unit → Tx Value}
    (ht : s.pool.thread t = some ⟨.heartbeat w l' rank, some (.op .commit next)⟩) {id : JobId}
    {v : JobEntry} (hv : pendingJob s.pool.mem id = some (t, v)) (hruns : v.RunsOn w) :
    ∃ e, committedJob s.pool.mem id = some e ∧ e.job.status = .running ∧
      v.job.leaseExpiresAt = some (s.began t + l) := by
  have hlease := ((hinv.beats t w l' rank _ ht).of_commits rfl).2 id v hv hruns
  have hmem : s'.pool.mem = s.pool.mem.commit t := by
    have hpool := (timed_step h).2.1
    simp only [Txn.System.step, ht, Txn.exec, Option.some.injEq] at hpool
    exact hpool ▸ rfl
  have hv' : committedJob s'.pool.mem id = some v := by
    rw [hmem, committedJob, Txn.Store.commit_cell_held hv]
  cases runningStep_of_step hm hr hinv h hv' hruns.1 with
  | same he hgrant => exact ⟨v, he, hruns.1, hlease⟩
  | claimed u args p now hev hu =>
      obtain rfl := Txn.Event.run.inj hev
      cases ht.symm.trans hu
  | beat u w' rank' next' e hev hu hheld' he hrunning => exact ⟨e, he, hrunning, hlease⟩
  | kept e he hrunning => exact ⟨e, he, hrunning, hlease⟩

-- A step keeps the leases in order exactly if no heartbeat commits the lease of a later claim.
theorem leasesForward_iff (hm : Initial m) (hr : system.Reachable m s.pool) (hinv : TimedInv l s)
    (h : s.step l ev = some s') : LeasesForward s ev s' ↔ BeganAfterClaims s ev := by
  have hpool := Run.inv hm (run_of_reachable hr)
  constructor
  · rintro hforward t w l' rank next rfl ht id v e startedAt hv hruns he hs
    obtain ⟨e₁, he₁, hrunning, hlease⟩ := held_running hm hr hinv h ht hv hruns
    obtain rfl := Option.some.inj (he.symm.trans he₁)
    obtain ⟨x, y, hx, hy, hle⟩ := hforward.granted t w l' rank next rfl ht id v hv hruns
    obtain ⟨startedAt', lease, hs', -, hg, -⟩ := hinv.rows id e he hrunning
    obtain rfl := Option.some.inj (hs.symm.trans hs')
    obtain rfl := Option.some.inj (hg.symm.trans hx)
    obtain rfl := Option.some.inj (hlease.symm.trans hy)
    linarith
  · intro hcond
    refine ⟨fun id e e' c he he' hc hc' => ?_, ?_⟩
    · have hrunning : e.job.status = .running :=
        (hpool.inv.ok id e he).running_iff.mpr (by rw [hc]; rfl)
      have hpool' := Run.inv hm (run_of_reachable (hr.tail (timed_step h).2.1 trivial))
      have hrunning' : e'.job.status = .running :=
        (hpool'.inv.ok id e' he').running_iff.mpr (by rw [hc']; rfl)
      obtain ⟨startedAt, lease, hs, hl, -, -⟩ := hinv.rows id e he hrunning
      cases runningStep_of_step hm hr hinv h he' hrunning' with
      | same he₁ hgrant =>
          obtain rfl := Option.some.inj (he.symm.trans he₁)
          exact ⟨lease, lease, hl, hl, le_refl _⟩
      | claimed t args p now hev ht hpending =>
          rw [hpending e he] at hrunning
          cases hrunning
      | beat t w rank next e₁ hev ht hheld he₁ _ hlocked hlocked' hstarted hlease hgrant =>
          obtain rfl := Option.some.inj (he.symm.trans he₁)
          refine ⟨lease, _, hl, hlease, ?_⟩
          have hbegan := hcond t w l rank next hev ht id e' e startedAt hheld
            ⟨hrunning', hlocked'⟩ he hs
          have hbeat := (hinv.beats t w l rank _ ht).of_commits rfl
          obtain ⟨startedAt', lease', hs', hl', -, hlatest⟩ :=
            hinv.latest t w ⟨l, rank, _, _, next, ht, hbeat.1⟩ id e he hrunning hlocked
          obtain rfl := Option.some.inj (hs.symm.trans hs')
          obtain rfl := Option.some.inj (hl.symm.trans hl')
          rcases hlatest with rfl | hle
          · linarith
          · exact hle
      | kept e₁ he₁ _ hlocked hstarted hlease hgrant =>
          obtain rfl := Option.some.inj (he.symm.trans he₁)
          exact ⟨lease, lease, hl, hlease.trans hl, le_refl _⟩
    · rintro t w l' rank next rfl ht id v hv hruns
      obtain ⟨e, he, hrunning, hlease⟩ := held_running hm hr hinv h ht hv hruns
      obtain ⟨startedAt, lease, hs, -, hg, -⟩ := hinv.rows id e he hrunning
      have hbegan := hcond t w l' rank next rfl ht id v e startedAt hv hruns he hs
      exact ⟨_, _, hg, hlease, by linarith⟩

end Step

theorem timedInv_of_reaches (hm : Initial m) {ok : Timed → Event → Timed → Prop}
    (h : Reaches (Timed.step l) ok (.init m) s) : TimedInv l s :=
  h.invariant (timedInv_init hm) fun _ _ _ hs hinv hstep _ =>
    timedInv_step hm (timed_reachable hs) hinv hstep

-- The runs in which the leases only move forward are those in which each heartbeat has begun no
-- earlier than the claims whose leases it commits.
theorem leases_move_forward (hm : Initial m) (l : ℚ) (s : Timed) :
    Reaches (Timed.step l) LeasesForward (.init m) s ↔
      Reaches (Timed.step l) (fun s ev _ => BeganAfterClaims s ev) (.init m) s := by
  constructor
  · intro h
    refine h.imp fun s₁ ev s₂ hs hstep hok => ?_
    exact (leasesForward_iff hm (timed_reachable hs) (timedInv_of_reaches hm hs) hstep).mp hok
  · intro h
    refine h.imp fun s₁ ev s₂ hs hstep hok => ?_
    exact (leasesForward_iff hm (timed_reachable hs) (timedInv_of_reaches hm hs) hstep).mpr hok

section Example

-- `BeganAfterClaims`, for the jobs there are.
def beganAfterClaims (s : Timed) : Event → Bool
  | .run t =>
      match s.pool.thread t with
      | some ⟨.heartbeat _ _ _, some (.op .commit _)⟩ =>
          (s.pool.mem.keys.filterMap Key.jobId).all fun id =>
            (committedJob s.pool.mem id).all fun e => e.job.startedAt.all fun startedAt =>
              (pendingJob s.pool.mem id).all fun p => p.1 ≠ t ∨ startedAt ≤ s.began t
      | _ => true
  | _ => true

theorem beganAfterClaims_sound (hwf : s.pool.mem.WF) (h : beganAfterClaims s ev = true) :
    BeganAfterClaims s ev := by
  rintro t w l rank next rfl ht id v e startedAt hv - he hs
  have hkey : Key.job id ∈ s.pool.mem.keys := hwf.mem_of_committed he
  simp only [beganAfterClaims, ht, List.all_eq_true] at h
  have hall := h id (List.mem_filterMap.mpr ⟨_, hkey, rfl⟩)
  rw [he, hv, Option.all_some, hs, Option.all_some, Option.all_some, decide_eq_true_eq] at hall
  exact hall.resolve_left fun hne => hne rfl

def timedAfter (check : Timed → Event → Bool) (events : List Event) : Timed :=
  (Txn.runAll (Timed.step 30) (fun s ev _ => check s ev) (.init exampleDb) events).getD
    (.init exampleDb)

theorem reaches_timedAfter (check : Timed → Event → Bool) (events : List Event) :
    Reaches (Timed.step 30) (fun s ev _ => check s ev = true) (.init exampleDb)
      (timedAfter check events) :=
  Reaches.getD_runAll (fun (s : Timed) ev _ => check s ev) events

def leaseOf (s : Timed) (id : JobId) : Option (Option Time) :=
  (committedJob s.pool.mem id).map fun e => e.job.leaseExpiresAt

-- Worker 5 claims job 7 at 0 and heartbeats at 20.
def heartbeatAfterClaim : List Event :=
  claimedEvents ++ [.tick 20] ++ whole 3 (.heartbeat 5 30 id) 6

theorem leases_move_forward_heartbeat :
    leaseOf (timedAfter beganAfterClaims heartbeatAfterClaim) 7 = some (some 50) ∧
      Reaches (Timed.step 30) LeasesForward (.init exampleDb)
        (timedAfter beganAfterClaims heartbeatAfterClaim) := by
  refine ⟨by decide +kernel, (leases_move_forward exampleDb_initial 30 _).mpr ?_⟩
  refine (reaches_timedAfter beganAfterClaims heartbeatAfterClaim).imp fun s ev s' hs _ h => ?_
  exact beganAfterClaims_sound (Txn.System.wf exampleDb_initial.wf (timed_reachable hs)) h

-- A heartbeat of worker 5 begins at 0, the worker claims job 7 at 10, and the UPDATE of the
-- heartbeat finds the job.
def heartbeatBeforeClaim : List Event :=
  createdEvents ++ whole 2 (.heartbeat 5 30 id) 1 ++ [.tick 10] ++
  whole 3 (.claimJobs (exampleClaim 5)) 7 ++ List.replicate 4 (.run 2)

theorem lease_shortened :
    (¬ ∀ m l s, Initial m → Reaches (Timed.step l) (fun _ _ _ => True) (.init m) s →
      ∀ ev s', s.step l ev = some s' → LeasesForward s ev s') ∧
    leaseOf (timedAfter (fun _ _ => true) heartbeatBeforeClaim) 7 = some (some 40) ∧
    leaseOf (timedAfter (fun _ _ => true) (heartbeatBeforeClaim ++ [.run 2])) 7 =
      some (some 30) := by
  refine ⟨fun h => ?_, by decide +kernel, by decide +kernel⟩
  have hreach : Reaches (Timed.step 30) (fun _ _ _ => True) (.init exampleDb)
      (timedAfter (fun _ _ => true) heartbeatBeforeClaim) :=
    (reaches_timedAfter _ heartbeatBeforeClaim).mono fun _ _ _ _ => trivial
  have hlast : (((timedAfter (fun _ _ => true) heartbeatBeforeClaim).step 30 (.run 2)).map
      fun s => (committedJob s.pool.mem 7).map fun e => (e.currentClaim, e.job.leaseExpiresAt)) =
        some (some (some 3, some 30)) := by decide +kernel
  have hfirst : (committedJob (timedAfter (fun _ _ => true) heartbeatBeforeClaim).pool.mem 7).map
      (fun e => (e.currentClaim, e.job.leaseExpiresAt)) = some (some 3, some 40) := by decide +kernel
  obtain ⟨s', hstep, hrow⟩ := Option.map_eq_some_iff.mp hlast
  obtain ⟨e', he', heq'⟩ := Option.map_eq_some_iff.mp hrow
  obtain ⟨e, he, heq⟩ := Option.map_eq_some_iff.mp hfirst
  obtain ⟨hclaim', hlease'⟩ := Prod.mk.inj heq'
  obtain ⟨hclaim, hlease⟩ := Prod.mk.inj heq
  have hforward := h exampleDb 30 _ exampleDb_initial hreach (.run 2) s' hstep
  obtain ⟨x, y, hx, hy, hle⟩ := hforward.forward 7 e e' 3 he he' hclaim hclaim'
  rw [hlease, Option.some.injEq] at hx
  rw [hlease', Option.some.injEq] at hy
  subst hx hy
  norm_num at hle

end Example

end Chronos
