import Chronos.Worker.Punctual

namespace Chronos

open Txn (TxId Reaches)
open JobRepository

variable {l a : ℚ} {m : Db} {s s' : Pulsed} {ev : Event} {t u : TxId} {w : WorkerId} {now : Time}

-- A sweep has taken the job from the worker.
def JobEntry.Ousted (w : WorkerId) (e : JobEntry) : Prop :=
  ∃ tx pass retry, [.reclaimed retry, .claimed tx w pass] <:+: e.log

-- The worker keeps its time: its claims and heartbeats are committed within `a` seconds, and the
-- next heartbeat is no later than `l - a` seconds after the last one, or the claim.
structure OnTime (w : WorkerId) (l a : ℚ) (s : Pulsed) (ev : Event) (s' : Pulsed) : Prop where
  claims : ∀ id e' startedAt, (∀ e, committedJob s.mem id = some e → e.job.status = .pending) →
    committedJob s'.mem id = some e' → e'.RunsOn w → e'.job.startedAt = some startedAt →
      s'.mem.clock ≤ startedAt + a
  beats : ∀ t l' rank next, ev = .run t →
    s.timed.pool.thread t = some ⟨.heartbeat w l' rank, some (.op .commit next)⟩ →
      s.mem.clock ≤ s.timed.began t + a
  due : ∀ id e startedAt, committedJob s'.mem id = some e → e.RunsOn w →
    e.job.startedAt = some startedAt → s'.mem.clock + a ≤ max (s'.beat w) startedAt + l

-- The jobs of the worker that a heartbeat need not come to any more.
def Covered (w : WorkerId) (l a : ℚ) (t : TxId) (now : Time) (ids : List JobId) (m : Db) : Prop :=
  ∀ id e, committedJob m id = some e → e.RunsOn w → id ∈ ids ∨ (∃ v, pendingJob m id = some (t, v)) ∨
    ∃ lease, e.job.leaseExpiresAt = some lease ∧ now + l ≤ lease + a

inductive Covers (w : WorkerId) (l a : ℚ) (t : TxId) (now : Time) (m : Db) : Tx Value → Prop
  | fresh (next : Time → Tx Value) (h : ∀ now, Scans w l now (next now)) :
      Covers w l a t now m (.op .begin next)
  | scanning (p : Tx Value) (h : Scans w l now p) : Covers w l a t now m p
  | extending (ids : List JobId) (p : Tx Value) (h : Extends w l now ids p)
      (hcovered : Covered w l a t now ids m) : Covers w l a t now m p
  | closing (p : Tx Value) (h : p.All Txn.Stmt.Reads) : Covers w l a t now m p

structure PulseInv (w : WorkerId) (l a : ℚ) (s : Pulsed) : Prop where
  timed : TimedInv l s.timed
  beat : s.beat w ≤ s.mem.clock
  covers : ∀ t l' rank p, s.timed.pool.thread t = some ⟨.heartbeat w l' rank, some p⟩ →
    Covers w l a t (s.timed.began t) s.mem p
  leases : ∀ id e, committedJob s.mem id = some e → e.RunsOn w → ∃ startedAt lease,
    e.job.startedAt = some startedAt ∧ e.job.leaseExpiresAt = some lease ∧
      startedAt ≤ s.mem.clock ∧ max (s.beat w) startedAt + l ≤ lease + a
  live : ∀ id e, committedJob s.mem id = some e → e.RunsOn w → ∃ lease,
    e.job.leaseExpiresAt = some lease ∧ s.mem.clock ≤ lease
  kept : ∀ id e, committedJob s.mem id = some e → ¬ e.Ousted w

theorem pulsed_step (h : s.step l ev = some s') :
    s.timed.step l ev = some s'.timed ∧ s'.beat = s.beatAfter ev := by
  obtain ⟨timed, htimed, rfl⟩ := Option.map_eq_some_iff.mp h
  exact ⟨htimed, rfl⟩

theorem timed_of_pulsed {ok : Pulsed → Event → Pulsed → Prop}
    (h : Reaches (Pulsed.step l) ok (.init m) s) :
    Reaches (Timed.step l) (fun _ _ _ => True) (.init m) s.timed := by
  induction h with
  | refl => exact .refl
  | tail hs he hok ih => exact .tail ih (pulsed_step he).1 trivial

-- The last heartbeat is the one from before, or the one whose COMMIT the step is.
theorem beat_cases (ev : Event) : s.beatAfter ev w = s.beat w ∨ ∃ t l' rank next, ev = .run t ∧
    s.timed.pool.thread t = some ⟨.heartbeat w l' rank, some (.op .commit next)⟩ ∧
      s.beatAfter ev w = s.timed.began t := by
  cases ev with
  | run t =>
      simp only [Pulsed.beatAfter]
      split
      · rename_i w' l' rank next ht
        by_cases hw : w' = w
        · subst hw
          exact .inr ⟨t, l', rank, next, rfl, ht, if_pos rfl⟩
        · exact .inl (if_neg hw)
      · exact .inl rfl
  | _ => exact .inl rfl

theorem beatAfter_of_commit {l' : ℚ} {rank : JobId → Nat} {next : Unit → Tx Value}
    (ht : s.timed.pool.thread t = some ⟨.heartbeat w l' rank, some (.op .commit next)⟩) :
    s.beatAfter (.run t) w = s.timed.began t := by
  simp only [Pulsed.beatAfter, ht, if_true]

section Heartbeat

-- The scan finds every job of the worker that is not extended yet.
theorem covered_of_scan {m : Db} (hwf : m.WF) (rank : JobId → Nat) : Covered w l a t now
    (ExecutionService.scanJobs (extendLeases w l now).guard rank (m.view t)) m := by
  intro id e he hruns
  by_cases hheld : ∃ v, pendingJob m id = some (t, v)
  · exact .inr (.inl hheld)
  · left
    have hseen : (m.cell (.job id)).seen t = some e :=
      (Txn.Cell.seen_of_unheld (not_exists.mp hheld)).trans he
    have hguard : (extendLeases w l now).guard e.job = true := by
      simp only [extendLeases, decide_eq_true_eq]
      exact ⟨hruns.2, hruns.1⟩
    have hkey : Key.job id ∈ m.keys := hwf.mem_of_committed he
    rw [ExecutionService.scanJobs, List.mem_insertionSort]
    exact List.mem_map.mpr ⟨(id, e), mem_jobsWhere.mpr ⟨hkey, hseen, hguard⟩, rfl⟩

-- One lease is extended, or its job is not the worker's any more.
theorem Covered.extend {id : JobId} {ids : List JobId} {m m' : Db} {row : Option JobEntry}
    (h : Covered w l a t now (id :: ids) m)
    (he : Txn.exec t (.recheck (Key.job id) (fun e => (extendLeases w l now).guard e.job)
      (JobEntry.assign (extendLeases w l now).set)) m = some (row, m')) :
    Covered w l a t now ids m' := by
  have hown : ∀ v, Covered w l a t now ids (m.own t (.job id) v) := by
    intro v id' e hcommitted hruns
    rw [committedJob, Txn.Store.own_committed] at hcommitted
    by_cases hid' : id' = id
    · subst hid'
      exact .inr (.inl ⟨_, by rw [pendingJob, Txn.Store.own_cell_self]⟩)
    · rw [pendingJob, Txn.Store.own_cell_ne t _ _ m (by simpa using hid')]
      rcases h id' e hcommitted hruns with hid | hrest
      · exact .inl ((List.mem_cons.mp hid).resolve_left hid')
      · exact .inr hrest
  rcases Txn.exec_recheck he with ⟨-, rfl, hnone⟩ | ⟨v, -, -, ⟨-, -, rfl⟩ | ⟨-, -, rfl⟩⟩
  · intro id' e hcommitted hruns
    refine (h id' e hcommitted hruns).imp_left fun hid => (List.mem_cons.mp hid).resolve_left ?_
    rintro rfl
    have hsome : (committedJob m' id').isSome = true := by rw [hcommitted]; rfl
    exact absurd (Txn.seen_isSome t hsome) (by simp [hnone])
  · exact hown v
  · exact hown _

theorem Covers.step {β : Type} {st : Txn.Stmt Key Row Time β} {next : β → Tx Value} {r : β}
    {c : Call} {s s' : Timed} (hwf : s.pool.mem.WF)
    (h : Covers w l a t (s.began t) s.pool.mem (.op st next))
    (ht : s.pool.thread t = some ⟨c, some (.op st next)⟩)
    (he : Txn.exec t st s.pool.mem = some (r, s'.pool.mem))
    (hbegan : s'.began t = if beginsBeat s.pool t then s.pool.mem.clock else s.began t) :
    Covers w l a t (s'.began t) s'.pool.mem (next r) := by
  have hopens : beginsBeat s.pool t = opens (.op st next) := by rw [beginsBeat, ht]
  rw [hopens] at hbegan
  cases h with
  | fresh next hnext =>
      simp only [Txn.exec, Option.some.injEq, Prod.mk.injEq] at he
      rw [hbegan, ← he.1]
      exact .scanning _ (hnext _)
  | scanning p h =>
      cases h with
      | worker cond set next h =>
          rw [hbegan]
          exact .scanning _ (h r)
      | scan rank next h =>
          simp only [Txn.exec, Option.some.injEq, Prod.mk.injEq] at he
          rw [hbegan, ← he.1, ← he.2]
          exact .extending _ _ (h _) (covered_of_scan hwf rank)
  | extending ids p h hcovered =>
      cases ids with
      | nil =>
          obtain ⟨next', heq, hclosing⟩ := extends_nil h
          cases heq
          exact .closing _ hclosing
      | cons id ids =>
          obtain ⟨next', heq, hnext⟩ := extends_cons h
          cases heq
          rw [hbegan]
          exact .extending ids _ (hnext r) (hcovered.extend he)
  | closing p h => exact .closing _ (h.2 r)

-- A heartbeat comes to its COMMIT with nothing left to extend.
theorem Covers.of_commits {m : Db} {β : Type} {st : Txn.Stmt Key Row Time β} {next : β → Tx Value}
    (h : Covers w l a t now m (.op st next)) (hst : st.commits = true) :
    Covered w l a t now [] m := by
  cases h with
  | fresh next h => cases hst
  | scanning p h => cases h <;> cases hst
  | extending ids p h hcovered =>
      cases ids with
      | nil => exact hcovered
      | cons id ids =>
          obtain ⟨next', heq, -⟩ := extends_cons h
          cases heq
          cases hst
  | closing p h =>
      have hreads := h.1
      cases hreads <;> cases hst

theorem extends_op {ids : List JobId} {p : Tx Value} (h : Extends w l now ids p) :
    ∃ (β : Type) (st : Txn.Stmt Key Row Time β) (next : β → Tx Value), p = .op st next := by
  cases ids with
  | nil =>
      obtain ⟨next, rfl, -⟩ := extends_nil h
      exact ⟨_, _, _, rfl⟩
  | cons id ids =>
      obtain ⟨next, rfl, -⟩ := extends_cons h
      exact ⟨_, _, _, rfl⟩

end Heartbeat

section Step

theorem reclaim_of_event {op : JobOp} {e e' : JobEntry} {retry : Bool} (h : op.Applies e e')
    (hevent : op.event e = some (.reclaimed retry)) :
    (∃ rng now, op = .reclaim rng now) ∧ e.job.status = .running := by
  cases h with
  | reclaim rng now decision e hrunning hdecision => exact ⟨⟨rng, now, rfl⟩, hrunning⟩
  | _ => cases hevent

theorem not_runsOn_of_expired (h : ∀ id e, committedJob s.mem id = some e → e.RunsOn w →
    ∃ lease, e.job.leaseExpiresAt = some lease ∧ s.mem.clock ≤ lease) {id : JobId} {e : JobEntry}
    (he : committedJob s.mem id = some e) {began : Time} (hbegan : began ≤ s.mem.clock)
    (hexpired : expiredWhere began e.job = true) : ¬ e.RunsOn w := by
  intro hruns
  obtain ⟨lease, hlease, hle⟩ := h id e he hruns
  simp only [expiredWhere, hlease, Option.any_some, decide_eq_true_eq] at hexpired
  linarith

-- What the others do meanwhile leaves no job of the worker to a heartbeat under way.
theorem covered_of_step (hm : Initial m) (hr : system.Reachable m s.timed.pool)
    (hinv : PulseInv w l a s) (h : s.step l ev = some s') (hon : OnTime w l a s ev s')
    (hbeat : InBeat s.timed t w) (hrun : ev ≠ .run t) (habort : ev ≠ .abort t) {ids : List JobId}
    (hcovered : Covered w l a t (s.timed.began t) ids s.mem) :
    Covered w l a t (s.timed.began t) ids s'.mem := by
  intro id e' he' hruns
  have hstep := (pulsed_step h).1
  have hwf := (Run.inv hm (run_of_reachable hr)).wf
  have hold : ∀ e, committedJob s.mem id = some e → e.RunsOn w →
      e'.job.leaseExpiresAt = e.job.leaseExpiresAt → id ∈ ids ∨
        (∃ v, pendingJob s'.mem id = some (t, v)) ∨
          ∃ lease, e'.job.leaseExpiresAt = some lease ∧ s.timed.began t + l ≤ lease + a := by
    intro e he hruns₀ hlease
    rcases hcovered id e he hruns₀ with hid | ⟨v, hv⟩ | hrest
    · exact .inl hid
    · exact .inr (.inl ⟨v, Txn.System.held_of_step (timed_step hstep).2.1 hwf hrun habort hv⟩)
    · exact .inr (.inr (hlease ▸ hrest))
  cases runningStep_of_step hm hr hinv.timed hstep he' hruns.1 with
  | same he hgrant => exact hold e' he hruns rfl
  | claimed u args p now hev hu hpending hstarted hlease hgrant =>
      right
      right
      refine ⟨now + l, hlease, ?_⟩
      have hclock := hinv.timed.clock t
      have hmono := clock_le_of_step hwf hstep
      have hprompt := hon.claims id e' now hpending he' hruns hstarted
      change s.timed.began t ≤ s.mem.clock at hclock
      change s.mem.clock ≤ s'.mem.clock at hmono
      linarith
  | beat u w' rank next e hev hu hheld he hrunning hlocked hlocked' hstarted hlease hgrant =>
      obtain rfl : w = w' := Option.some.inj (hruns.2.symm.trans hlocked')
      obtain rfl := hinv.timed.single t u w hbeat ⟨l, rank, _, _, next, hu⟩
      exact absurd hev hrun
  | kept e he hrunning hlocked hstarted hlease hgrant =>
      exact hold e he ⟨hrunning, hlocked.symm.trans hruns.2⟩ hlease

theorem covers_of_step (hm : Initial m) (hr : system.Reachable m s.timed.pool)
    (hinv : PulseInv w l a s) (h : s.step l ev = some s') (hon : OnTime w l a s ev s') {l' : ℚ}
    {rank : JobId → Nat} {p : Tx Value}
    (ht : s'.timed.pool.thread t = some ⟨.heartbeat w l' rank, some p⟩) :
    Covers w l a t (s'.timed.began t) s'.mem p := by
  have hstep := (pulsed_step h).1
  have hwf := (Run.inv hm (run_of_reachable hr)).wf
  cases timedStep_of_step hwf hstep t with
  | other hev hthread hbegan hpending =>
      rw [hthread] at ht
      rw [hbegan]
      have hold := hinv.covers t l' rank p ht
      cases hold with
      | fresh next hnext => exact .fresh next hnext
      | scanning p hscans => exact .scanning p hscans
      | extending ids p hextends hcovered =>
          obtain ⟨β, st, next, rfl⟩ := extends_op hextends
          have habort : ev ≠ .abort t := by
            rintro rfl
            have hpool := (timed_step hstep).2.1
            simp only [Txn.System.step, ht, Option.some.injEq] at hpool
            rw [← hpool, Txn.Pool.set_thread_self, ht] at hthread
            cases hthread
          exact .extending ids _ hextends
            (covered_of_step hm hr hinv h hon ⟨l', rank, β, st, next, ht⟩ hev habort hcovered)
      | closing p hclosing => exact .closing p hclosing
  | started c hev hfresh hthread hpending =>
      obtain ⟨rfl, hp⟩ := Txn.Thread.mk.inj (Option.some.inj (hthread.symm.trans ht))
      have hpaced := (timed_step hstep).1
      simp only [hev, paced, decide_eq_true_eq] at hpaced
      obtain ⟨next, hbody, hnext⟩ := scans_heartbeat (w := w) (l := l') t rank
      rw [hbody, Option.some.injEq] at hp
      exact hp ▸ .fresh next (hpaced.1 ▸ hnext)
  | ran c st next r ht' he hthread hbegan =>
      obtain ⟨rfl, hp⟩ := Txn.Thread.mk.inj (Option.some.inj (hthread.symm.trans ht))
      obtain rfl := Option.some.inj hp
      exact (hinv.covers t l' rank _ ht').step hwf ht' he hbegan
  | skipped c st next r ht' hr' hthread =>
      obtain ⟨rfl, hp⟩ := Txn.Thread.mk.inj (Option.some.inj (hthread.symm.trans ht))
      exact ((hinv.timed.beats t w l' rank _ ht').not_skipped hr').elim
  | cutOff c ht' hthread => cases hthread.symm.trans ht

-- started_at is no later than the claim that sets it.
theorem started_le_clock (hm : Initial m) {s s' : State} (hr : system.Reachable m s)
    (h : system.step s ev = some s') {args : ClaimArgs} {p : Tx Value} (hev : ev = .run t)
    (ht : s.thread t = some ⟨.claimJobs args, some p⟩) {id : JobId} {e' : JobEntry}
    (hpending : ∀ e, committedJob s.mem id = some e → e.job.status = .pending)
    (he' : committedJob s'.mem id = some e') (hrunning : e'.job.status = .running)
    {startedAt : Time} (hstarted : e'.job.startedAt = some startedAt) : startedAt ≤ s.mem.clock := by
  have hchanged : (s'.mem.cell (.job id)).committed ≠ (s.mem.cell (.job id)).committed := by
    intro hsame
    have hwaiting := hpending e' (hsame.symm.trans he')
    rw [hrunning] at hwaiting
    cases hwaiting
  obtain ⟨u, c, next, v, hev', hu, -, hheld, hv⟩ := Txn.System.publication h hchanged
  obtain rfl : t = u := Txn.Event.run.inj (hev.symm.trans hev')
  obtain ⟨rfl, -⟩ := Txn.Thread.mk.inj (Option.some.inj (ht.symm.trans hu))
  obtain rfl : v = e' := Option.some.inj (hv.symm.trans he')
  have hdated : isDated (.claimJobs args) := trivial
  obtain ⟨now, hnow, hdates⟩ := (inDate_of_reachable hm hr).commits hdated hu
  rcases hdates (.job id) v hheld with hkept | ⟨e, he, hsame | hnew⟩
  · exact absurd (hv.trans hkept.symm) hchanged
  · have hwaiting := hpending e he
    rw [← hsame, hrunning] at hwaiting
    cases hwaiting
  · obtain rfl : now = startedAt := Option.some.inj (hnew.symm.trans hstarted)
    exact hnow

theorem beat_le_of_step (hwf : s.mem.WF) (hinv : PulseInv w l a s) (h : s.step l ev = some s') :
    s'.beat w ≤ s'.mem.clock := by
  have hmono := clock_le_of_step hwf (pulsed_step h).1
  rw [(pulsed_step h).2]
  rcases beat_cases (s := s) (w := w) ev with heq | ⟨t, l', rank, next, -, -, heq⟩
  · exact heq ▸ hinv.beat.trans hmono
  · exact heq ▸ (hinv.timed.clock t).trans hmono

-- At the COMMIT of a heartbeat of the worker.
theorem leases_of_commit (hm : Initial m) (hr : system.Reachable m s.timed.pool)
    (hinv : PulseInv w l a s) (h : s.step l (.run t) = some s') (hon : OnTime w l a s (.run t) s')
    {l' : ℚ} {rank : JobId → Nat} {next : Unit → Tx Value}
    (ht : s.timed.pool.thread t = some ⟨.heartbeat w l' rank, some (.op .commit next)⟩) {id : JobId}
    {e' : JobEntry} (he' : committedJob s'.mem id = some e') (hruns : e'.RunsOn w) :
    ∃ startedAt lease, e'.job.startedAt = some startedAt ∧ e'.job.leaseExpiresAt = some lease ∧
      startedAt ≤ s'.mem.clock ∧ max (s'.beat w) startedAt + l ≤ lease + a := by
  have hstep := (pulsed_step h).1
  have hbeat : s'.beat w = s.timed.began t := by
    rw [(pulsed_step h).2]
    exact beatAfter_of_commit ht
  have hmono := clock_le_of_step (Run.inv hm (run_of_reachable hr)).wf hstep
  have hprompt := hon.beats t l' rank next rfl ht
  have hcovered := (hinv.covers t l' rank _ ht).of_commits rfl
  have hmem : s'.mem = s.mem.commit t := by
    have hpool := (timed_step hstep).2.1
    simp only [Txn.System.step, ht, Txn.exec, Option.some.injEq] at hpool
    change s'.timed.pool.mem = _
    exact hpool ▸ rfl
  rw [hbeat]
  by_cases hheld : ∃ v, pendingJob s.mem id = some (t, v)
  · obtain ⟨v, hv⟩ := hheld
    obtain rfl : v = e' := by
      rw [hmem, committedJob, Txn.Store.commit_cell_held hv] at he'
      exact Option.some.inj he'
    have hlease := ((hinv.timed.beats t w l' rank _ ht).of_commits rfl).2 id v hv hruns
    have hstarted : ∃ e, committedJob s.mem id = some e ∧ e.RunsOn w ∧
        v.job.startedAt = e.job.startedAt := by
      cases runningStep_of_step hm hr hinv.timed hstep he' hruns.1 with
      | same he hgrant => exact ⟨v, he, hruns, rfl⟩
      | claimed u args p now hev hu =>
          obtain rfl := Txn.Event.run.inj hev
          cases ht.symm.trans hu
      | beat u w' rank' next' e hev hu hheld' he hrunning hlocked hlocked' hstarted =>
          obtain rfl : w = w' := Option.some.inj (hruns.2.symm.trans hlocked')
          exact ⟨e, he, ⟨hrunning, hlocked⟩, hstarted⟩
      | kept e he hrunning hlocked hstarted =>
          exact ⟨e, he, ⟨hrunning, hlocked.symm.trans hruns.2⟩, hstarted⟩
    obtain ⟨e, he, hruns₀, hsame⟩ := hstarted
    obtain ⟨startedAt, lease, hs, -, hle, -⟩ := hinv.leases id e he hruns₀
    refine ⟨startedAt, _, hsame.trans hs, hlease, hle.trans hmono, ?_⟩
    have hmax : max (s.timed.began t) startedAt ≤ s.timed.began t + a := by
      have hclock := hinv.timed.clock t
      change s.timed.began t ≤ s.mem.clock at hclock
      apply max_le <;> linarith
    linarith
  · have he : committedJob s.mem id = some e' := by
      rw [hmem, committedJob, Txn.Store.commit_cell_other (not_exists.mp hheld)] at he'
      exact he'
    obtain ⟨startedAt, lease, hs, hlease, hle, hmax⟩ := hinv.leases id e' he hruns
    obtain ⟨lease', hlease', hlater⟩ :=
      ((hcovered id e' he hruns).resolve_left List.not_mem_nil).resolve_left hheld
    obtain rfl : lease = lease' := Option.some.inj (hlease.symm.trans hlease')
    refine ⟨startedAt, lease, hs, hlease, hle.trans hmono, ?_⟩
    have hstartedLe : startedAt + l ≤ lease + a :=
      (add_le_add_left (le_max_right _ _) l).trans hmax
    rcases max_choice (s.timed.began t) startedAt with hc | hc <;> rw [hc] <;> assumption

theorem leases_of_step (hm : Initial m) (hr : system.Reachable m s.timed.pool)
    (hinv : PulseInv w l a s) (h : s.step l ev = some s') (hon : OnTime w l a s ev s') {id : JobId}
    {e' : JobEntry} (he' : committedJob s'.mem id = some e') (hruns : e'.RunsOn w) :
    ∃ startedAt lease, e'.job.startedAt = some startedAt ∧ e'.job.leaseExpiresAt = some lease ∧
      startedAt ≤ s'.mem.clock ∧ max (s'.beat w) startedAt + l ≤ lease + a := by
  have hstep := (pulsed_step h).1
  have hmono := clock_le_of_step (Run.inv hm (run_of_reachable hr)).wf hstep
  rcases beat_cases (s := s) (w := w) ev with hsame | ⟨t, l', rank, next, rfl, ht, -⟩
  · have hbeat : s'.beat w = s.beat w := by rw [(pulsed_step h).2, hsame]
    have hold : ∀ e, committedJob s.mem id = some e → e.RunsOn w →
        e'.job.startedAt = e.job.startedAt → e'.job.leaseExpiresAt = e.job.leaseExpiresAt →
          ∃ startedAt lease, e'.job.startedAt = some startedAt ∧
            e'.job.leaseExpiresAt = some lease ∧ startedAt ≤ s'.mem.clock ∧
              max (s'.beat w) startedAt + l ≤ lease + a := by
      intro e he hruns₀ hstarted hlease
      obtain ⟨startedAt, lease, hs, hl, hle, hmax⟩ := hinv.leases id e he hruns₀
      exact ⟨startedAt, lease, hstarted.trans hs, hlease.trans hl, hle.trans hmono, hbeat ▸ hmax⟩
    cases runningStep_of_step hm hr hinv.timed hstep he' hruns.1 with
    | same he hgrant => exact hold e' he hruns rfl rfl
    | claimed u args p now hev hu hpending hstarted hlease hgrant =>
        have hnow := started_le_clock hm hr (timed_step hstep).2.1 hev hu hpending he' hruns.1
          hstarted
        have hprompt := hon.claims id e' now hpending he' hruns hstarted
        refine ⟨now, now + l, hstarted, hlease, hnow.trans hmono, ?_⟩
        have hmax : max (s'.beat w) now ≤ now + a := by
          have hbefore := hinv.beat
          change s.mem.clock ≤ s'.mem.clock at hmono
          change now ≤ s.mem.clock at hnow
          rw [hbeat]
          apply max_le <;> linarith
        linarith
    | beat u w' rank next e hev hu hheld he hrunning hlocked hlocked' hstarted hlease hgrant =>
        obtain rfl : w = w' := Option.some.inj (hruns.2.symm.trans hlocked')
        subst hev
        exact leases_of_commit hm hr hinv h hon hu he' hruns
    | kept e he hrunning hlocked hstarted hlease hgrant =>
        exact hold e he ⟨hrunning, hlocked.symm.trans hruns.2⟩ hstarted hlease
  · exact leases_of_commit hm hr hinv h hon ht he' hruns

theorem live_of_leases (hon : OnTime w l a s ev s') {id : JobId} {e : JobEntry}
    (he : committedJob s'.mem id = some e) (hruns : e.RunsOn w) {startedAt lease : Time}
    (hstarted : e.job.startedAt = some startedAt)
    (hmax : max (s'.beat w) startedAt + l ≤ lease + a) : s'.mem.clock ≤ lease := by
  have hdue := hon.due id e startedAt he hruns hstarted
  linarith

-- A sweep that takes a job takes it from the holder of its lease, which has expired.
theorem kept_of_step (hm : Initial m) (hr : system.Reachable m s.timed.pool)
    (hinv : PulseInv w l a s) (h : s.step l ev = some s') {id : JobId} {e' : JobEntry}
    (he' : committedJob s'.mem id = some e') : ¬ e'.Ousted w := by
  have hpool := (timed_step (pulsed_step h).1).2.1
  by_cases hsame : committedJob s'.mem id = committedJob s.mem id
  · exact hinv.kept id e' (hsame.symm.trans he')
  · rintro ⟨tx, pass, retry, hinfix⟩
    obtain ⟨t, c, next, v, hev, ht, -, hheld, hv⟩ :=
      Txn.System.publication (k := Key.job id) hpool hsame
    obtain rfl : v = e' := Option.some.inj (hv.symm.trans he')
    cases Run.published hm (run_of_reachable hr) hpool (permitted_none _ _ _) id with
    | same heq => exact hsame heq
    | created t' c' p d hev' ht' hnone hd hnew =>
        obtain rfl : d = v := Option.some.inj (hd.symm.trans he')
        rw [hnew.log] at hinfix
        have hlen := hinfix.length_le
        simp at hlen
    | changed t' c' p op e d hev' ht' he hd heff =>
        obtain rfl : d = v := Option.some.inj (hd.symm.trans he')
        obtain rfl : t = t' := Txn.Event.run.inj (hev.symm.trans hev')
        obtain ⟨rfl, -⟩ := Txn.Thread.mk.inj (Option.some.inj (ht.symm.trans ht'))
        have hkept := hinv.kept id e he
        rw [heff.applies.log] at hinfix
        cases hevent : op.event e with
        | none =>
            rw [hevent] at hinfix
            exact hkept ⟨tx, pass, retry, hinfix⟩
        | some x =>
            rw [hevent, Option.toList_some, List.singleton_append] at hinfix
            rcases List.infix_cons_iff.mp hinfix with hprefix | hrest
            · obtain ⟨rfl, hhead⟩ := List.cons_prefix_cons.mp hprefix
              obtain ⟨⟨rng, now, rfl⟩, hrunning⟩ := reclaim_of_event heff.applies hevent
              obtain ⟨rest, hlog⟩ := hhead
              have hok := (Run.inv hm (run_of_reachable hr)).inv.ok id e he
              have hlocked : e.job.lockedBy = some w := by
                apply hok.coherent.holder tx w pass
                rw [← hlog]
                rfl
              cases heff.performs with
              | reclaim offlineAfterSeconds rank rng id' now =>
                  have hdated : isDated (.reapOnce offlineAfterSeconds rank rng) := trivial
                  obtain ⟨began, hbegan, hdates⟩ := (inDate_of_reachable hm hr).commits hdated ht
                  rcases hdates (.job id) d hheld with hkept' | ⟨e₁, he₁, hexpired⟩
                  · exact hsame (hv.trans hkept'.symm)
                  obtain rfl := Option.some.inj (he.symm.trans he₁)
                  exact not_runsOn_of_expired hinv.live he hbegan hexpired ⟨hrunning, hlocked⟩
            · exact hkept ⟨tx, pass, retry, hrest⟩

theorem pulseInv_step (hm : Initial m) (hr : system.Reachable m s.timed.pool)
    (hinv : PulseInv w l a s) (h : s.step l ev = some s') (hon : OnTime w l a s ev s') :
    PulseInv w l a s' where
  timed := timedInv_step hm hr hinv.timed (pulsed_step h).1
  beat := beat_le_of_step (Run.inv hm (run_of_reachable hr)).wf hinv h
  covers _ _ _ _ ht := covers_of_step hm hr hinv h hon ht
  leases _ _ he hruns := leases_of_step hm hr hinv h hon he hruns
  live id e he hruns := by
    obtain ⟨startedAt, lease, hstarted, hlease, -, hmax⟩ := leases_of_step hm hr hinv h hon he hruns
    exact ⟨lease, hlease, live_of_leases hon he hruns hstarted hmax⟩
  kept _ _ he := kept_of_step hm hr hinv h he

theorem pulseInv_init (hm : Initial m) : PulseInv w l a (.init m) := by
  have hno : ∀ id e, committedJob (Pulsed.init m).mem id ≠ some e := by
    intro id e he
    change (m.cell (.job id)).committed = some e at he
    rw [hm.job id] at he
    cases he
  refine ⟨timedInv_init hm, le_refl _, fun t l' rank p ht => ?_, fun id e he => ?_, fun id e he => ?_,
    fun id e he => ?_⟩
  · cases ht
  · exact absurd he (hno id e)
  · exact absurd he (hno id e)
  · exact absurd he (hno id e)

end Step

-- A worker that keeps its time keeps its jobs: no sweep takes one from it, and none of its leases
-- runs out.
theorem punctual_worker_keeps_jobs (hm : Initial m) (w : WorkerId) (l a : ℚ) (s : Pulsed)
    (h : Reaches (Pulsed.step l) (OnTime w l a) (.init m) s) {id : JobId} {e : JobEntry}
    (he : committedJob s.mem id = some e) : ¬ e.Ousted w ∧
      (e.job.status = .running → e.job.lockedBy = some w →
        ∃ lease, e.job.leaseExpiresAt = some lease ∧ s.mem.clock ≤ lease) := by
  have hinv : PulseInv w l a s := by
    refine h.invariant (pulseInv_init hm) fun s₁ ev s₂ hs₁ hinv hstep hon => ?_
    exact pulseInv_step hm (timed_reachable (timed_of_pulsed hs₁)) hinv hstep hon
  exact ⟨hinv.kept id e he, fun hrunning hlocked => hinv.live id e he ⟨hrunning, hlocked⟩⟩

section Example

def beatsOnTime (w : WorkerId) (a : ℚ) (s : Pulsed) : Event → Bool
  | .run t =>
      match s.timed.pool.thread t with
      | some ⟨.heartbeat w' _ _, some (.op .commit _)⟩ =>
          w' ≠ w || s.mem.clock ≤ s.timed.began t + a
      | _ => true
  | _ => true

-- `OnTime`, for the jobs there are.
def onTime (w : WorkerId) (l a : ℚ) (s : Pulsed) (ev : Event) (s' : Pulsed) : Bool :=
  beatsOnTime w a s ev && (s'.mem.keys.filterMap Key.jobId).all fun id =>
    (committedJob s'.mem id).all fun e =>
      (e.job.status ≠ .running || e.job.lockedBy ≠ some w) || e.job.startedAt.all fun startedAt =>
        (s'.mem.clock + a ≤ s'.beat w + l || s'.mem.clock + a ≤ startedAt + l) &&
          ((committedJob s.mem id).any (fun e => e.job.status ≠ .pending) ||
            s'.mem.clock ≤ startedAt + a)

theorem onTime_sound (hwf : s'.mem.WF) (h : onTime w l a s ev s' = true) :
    OnTime w l a s ev s' := by
  rw [onTime, Bool.and_eq_true, List.all_eq_true] at h
  obtain ⟨hbeats, hrows⟩ := h
  have hrow : ∀ id e startedAt, committedJob s'.mem id = some e → e.RunsOn w →
      e.job.startedAt = some startedAt →
        (s'.mem.clock + a ≤ s'.beat w + l ∨ s'.mem.clock + a ≤ startedAt + l) ∧
          ((committedJob s.mem id).any (fun e => e.job.status ≠ .pending) = true ∨
            s'.mem.clock ≤ startedAt + a) := by
    intro id e startedAt he hruns hstarted
    have hkey : Key.job id ∈ s'.mem.keys := hwf.mem_of_committed he
    have hall := hrows id (List.mem_filterMap.mpr ⟨_, hkey, rfl⟩)
    rw [he, Option.all_some, hstarted, Option.all_some, hruns.1, hruns.2] at hall
    simpa using hall
  refine ⟨fun id e' startedAt hpending he' hruns hstarted => ?_, ?_,
    fun id e startedAt he hruns hstarted => ?_⟩
  · refine (hrow id e' startedAt he' hruns hstarted).2.resolve_left fun hany => ?_
    obtain ⟨e, he, hne⟩ := (Option.any_eq_true _ _).mp hany
    exact of_decide_eq_true hne (hpending e he)
  · rintro t l' rank next rfl ht
    simpa [beatsOnTime, ht] using hbeats
  · have hleft := le_max_left (s'.beat w) startedAt
    have hright := le_max_right (s'.beat w) startedAt
    rcases (hrow id e startedAt he hruns hstarted).1 with hle | hle <;> linarith

def pulsedAfter (events : List Event) : Pulsed :=
  (Txn.runAll (Pulsed.step 30) (onTime 5 30 5) (.init exampleDb) events).getD (.init exampleDb)

-- Worker 5 claims job 7 at 0 and heartbeats at 20; a sweep at 40 finds nothing.
def sweptEvents : List Event :=
  claimedEvents ++ [.tick 20] ++ whole 3 (.heartbeat 5 30 id) 6 ++ [.tick 40] ++
    whole 4 (.reapOnce 60 id fun _ => Draw.zero) 6

theorem punctual_worker_keeps_jobs_swept :
    (pulsedAfter sweptEvents).mem.clock = 40 ∧ ∃ e,
      committedJob (pulsedAfter sweptEvents).mem 7 = some e ∧ ¬ e.Ousted 5 ∧
        ∃ lease, e.job.leaseExpiresAt = some lease ∧ (pulsedAfter sweptEvents).mem.clock ≤ lease := by
  have hreach : Reaches (Pulsed.step 30) (fun s ev s' => onTime 5 30 5 s ev s' = true)
      (.init exampleDb) (pulsedAfter sweptEvents) := Reaches.getD_runAll (onTime 5 30 5) sweptEvents
  have hrow : (committedJob (pulsedAfter sweptEvents).mem 7).map
      (fun e => (e.job.status, e.job.lockedBy)) = some (.running, some 5) := by decide +kernel
  obtain ⟨e, he, heq⟩ := Option.map_eq_some_iff.mp hrow
  obtain ⟨hrunning, hlocked⟩ := Prod.mk.inj heq
  have hontime : Reaches (Pulsed.step 30) (OnTime 5 30 5) (.init exampleDb)
      (pulsedAfter sweptEvents) := by
    refine hreach.imp fun s ev s' hs hstep hcheck => onTime_sound ?_ hcheck
    have hreach' := timed_reachable (timed_of_pulsed (.tail hs hstep hcheck))
    exact Txn.System.wf exampleDb_initial.wf hreach'
  obtain ⟨hkept, hlive⟩ := punctual_worker_keeps_jobs exampleDb_initial 5 30 5 _ hontime he
  exact ⟨by decide +kernel, e, he, hkept, hlive hrunning hlocked⟩

end Example

end Chronos
