import Chronos.Refinement.Spec

namespace Chronos

open Txn (TxId Frame Cell)

namespace JobEntry

theorem SameKey.of_sameRow {e e' d d' : JobEntry} (h : e'.SameKey d') (he : e.SameRow e')
    (hd : d.SameRow d') : e.SameKey d :=
  ⟨by rw [← he.ownerId, ← hd.ownerId, h.owner],
    by rw [← he.idempotencyKey, ← hd.idempotencyKey, h.key], he.idempotencyKey ▸ h.some⟩

theorem SameKey.symm {e e' : JobEntry} (h : e.SameKey e') : e'.SameKey e :=
  ⟨h.owner.symm, h.key.symm, h.key ▸ h.some⟩

theorem counts_iff {q : QueueId} {e : JobEntry} :
    e.counts q = true ↔ e.job.queueId = q ∧ e.job.status = .running := by
  simp [counts]

theorem counts_of_sameRow {q : QueueId} {e e' : JobEntry} (hs : e.SameRow e')
    (hrun : e'.job.status = .running → e.job.status = .running) (h : e'.counts q = true) :
    e.counts q = true := by
  rw [counts_iff] at h ⊢
  exact ⟨hs.queueId ▸ h.1, hrun h.2⟩

end JobEntry

theorem running_iff {m : Db} {q : QueueId} {id : JobId} :
    running m q id = true ↔ ∃ e, Version m id e ∧ e.counts q = true := by
  unfold running Version
  rw [Bool.or_eq_true, Option.any_eq_true, Option.any_eq_true]
  constructor
  · rintro (⟨e, he, hc⟩ | ⟨⟨t, e⟩, he, hc⟩)
    · exact ⟨e, .inl he, hc⟩
    · exact ⟨e, .inr ⟨t, he⟩, hc⟩
  · rintro ⟨e, he | ⟨t, he⟩, hc⟩
    · exact .inl ⟨e, he, hc⟩
    · exact .inr ⟨(t, e), he, hc⟩

theorem mem_jobIds {keys : List Key} {id : JobId} :
    id ∈ keys.filterMap Key.jobId ↔ Key.job id ∈ keys := by
  rw [List.mem_filterMap]
  constructor
  · rintro ⟨k, hk, he⟩
    cases k with
    | job id' => exact (Option.some.inj he) ▸ hk
    | _ => cases he
  · intro h
    exact ⟨.job id, h, rfl⟩

theorem mem_loaded {m : Db} {q : QueueId} {id : JobId} :
    id ∈ loaded m q ↔ Key.job id ∈ m.keys ∧ running m q id = true := by
  unfold loaded
  rw [List.mem_toFinset, List.mem_filter, mem_jobIds]

theorem mem_keys_of_running {m : Db} (hwf : m.WF) {q : QueueId} {id : JobId}
    (h : running m q id = true) : Key.job id ∈ m.keys := by
  by_contra hk
  simp [running, committedJob, pendingJob, hwf.absent _ hk, Cell.empty] at h

variable {cond : Conditions} {c : Call} {t : TxId} {m m' : Db}

section Cells

variable (hf : Frame t m m')
include hf

-- A version after a statement was there before, or the statement made it.
theorem version_before {id : JobId} {e : JobEntry} (h : Version m' id e) :
    Version m id e ∨ pendingJob m' id = some (t, e) := by
  have hstep := hf.cells (.job id)
  rcases h with h | ⟨s, h⟩
  · refine .inl ?_
    unfold Version committedJob pendingJob at *
    generalize m.cell (.job id) = c at hstep ⊢
    generalize m'.cell (.job id) = c' at hstep h
    cases hstep with
    | keep => exact .inl h
    | own v hfree => exact .inl h
    | publish base v => exact .inr ⟨t, congrArg (fun x => some (t, x)) (Option.some.inj h)⟩
    | release base v => exact .inl h
  · by_cases hs : s = t
    · exact .inr (hs ▸ h)
    · exact .inl (.inr ⟨s, (hstep.other hs e).mpr h⟩)

-- What is committed stays, or is replaced.
theorem committed_after {id : JobId} {e : JobEntry} (h : committedJob m id = some e) :
    ∃ e', committedJob m' id = some e' := by
  have hstep := hf.cells (.job id)
  unfold committedJob at *
  generalize m.cell (.job id) = c at hstep h
  generalize m'.cell (.job id) = c' at hstep ⊢
  cases hstep with
  | keep => exact ⟨e, h⟩
  | own v hfree => exact ⟨e, h⟩
  | publish base v => exact ⟨v, rfl⟩
  | release base v => exact ⟨e, h⟩

theorem holdsQueue_other {s : TxId} {q : QueueId} (hs : s ≠ t) :
    HoldsQueue s q m ↔ HoldsQueue s q m' := by
  unfold HoldsQueue
  exact exists_congr fun row => (hf.cells (.queue q)).other hs row

-- As long as `t` has a row pending, it has lost none of its locks.
theorem holdsQueue_self {q : QueueId} {k : Key} {v : Row k}
    (hp : (m'.cell k).pending = some (t, v)) (h : HoldsQueue t q m) : HoldsQueue t q m' := by
  obtain ⟨row, hrow⟩ := h
  rcases hf.whole with hnone | hall
  · exact absurd hp (hnone k v)
  · exact hall (.queue q) row hrow

end Cells

theorem version_of_seen {id : JobId} {e : JobEntry} (h : (m.cell (.job id)).seen t = some e) :
    Version m id e := by
  unfold Cell.seen at h
  split at h
  · rename_i s v hp
    split at h
    · exact .inr ⟨s, hp.trans (congrArg (fun x => some (s, x)) (Option.some.inj h))⟩
    · exact .inl h
  · exact .inl h

section Guarantee

variable (hf : Frame t m m') (hg : Guar cond c t m m')
include hf hg

theorem Guar.entry {id : JobId} {e : JobEntry} (h : committedJob m id = some e) :
    ∃ e', committedJob m' id = some e' ∧ (e' = e ∨ ∃ op, Effect cond c t m op e e') := by
  obtain ⟨e', he'⟩ := committed_after hf h
  refine ⟨e', he', ?_⟩
  rcases hg.published id e' he' with hold | ⟨d, op, hd, heff⟩ | ⟨hnone, -⟩
  · exact .inl (Option.some.inj (hold.symm.trans h))
  · exact .inr ⟨op, Option.some.inj (hd.symm.trans h) ▸ heff⟩
  · rw [h] at hnone
    cases hnone

theorem Guar.version {id : JobId} {e' : JobEntry} (h : Version m' id e') :
    (∃ e, Version m id e ∧ e.SameRow e') ∨
      (OnlyJob id m m' ∧ ∀ id' e, Version m id' e → ¬ e.SameKey e') := by
  rcases version_before hf h with hold | hp
  · exact .inl ⟨e', hold, .refl e'⟩
  · cases hg.pended id e' hp with
    | kept hkept => exact .inl ⟨e', .inr ⟨t, hkept⟩, .refl e'⟩
    | updated e hseen hsame hflip => exact .inl ⟨e, version_of_seen hseen, hsame⟩
    | flipped e hseen hsame honly hcap => exact .inl ⟨e, version_of_seen hseen, hsame⟩
    | inserted honly hpending hclash => exact .inr ⟨honly, hclash⟩

theorem Guar.unique (hinv : DbInv cond m) {id id' : JobId} {e e' : JobEntry}
    (h : Version m' id e) (h' : Version m' id' e') (hkey : e.SameKey e') : id = id' := by
  by_contra hne
  -- A version of another row is an old one while a statement inserts its own.
  have hother : ∀ {i j : JobId} {d : JobEntry}, OnlyJob i m m' → j ≠ i → Version m' j d →
      Version m j d := by
    intro i j d honly hij hv
    unfold Version committedJob pendingJob at *
    rwa [honly j hij] at hv
  rcases hg.version hf h with ⟨d, hd, hsame⟩ | ⟨honly, hclash⟩
  · rcases hg.version hf h' with ⟨d', hd', hsame'⟩ | ⟨honly, hclash⟩
    · exact hne (hinv.unique id id' d d' hd hd' (hkey.of_sameRow hsame hsame'))
    · exact hclash id e (hother honly hne h) hkey
  · exact hclash id' e' (hother honly (Ne.symm hne) h') hkey.symm

theorem Guar.flips (hinv : DbInv cond m) {q : QueueId} {k : Int} (hq : Capped cond m q k)
    {id : JobId} {s : TxId} {e : JobEntry} (hp : pendingJob m' id = some (s, e))
    (hc : e.counts q = true) :
    (committedJob m' id).any (·.counts q) = true ∨ HoldsQueue s q m' := by
  -- A row that is still locked has not been committed to.
  have hcommitted : committedJob m' id = committedJob m id := by
    have hstep := hf.cells (.job id)
    unfold committedJob pendingJob at *
    generalize m.cell (.job id) = c at hstep ⊢
    generalize m'.cell (.job id) = c' at hstep hp ⊢
    cases hstep with
    | publish base v => cases hp
    | release base v => cases hp
    | _ => rfl
  rw [hcommitted]
  by_cases hs : s = t
  · subst hs
    have hself : ∀ {q}, HoldsQueue s q m → HoldsQueue s q m' := fun h =>
      holdsQueue_self hf hp h
    -- From what the statement started with, the claim is known.
    have hold : ∀ d, (m.cell (.job id)).seen s = some d → d.counts q = true →
        (committedJob m id).any (·.counts q) = true ∨ HoldsQueue s q m' := by
      intro d hseen hd
      rcases Cell.seen_cases hseen with hpend | hcommitted
      · exact ((hinv.caps q k hq).flips id s d hpend hd).imp_right hself
      · refine .inl ?_
        rw [committedJob, hcommitted]
        exact hd
    cases hg.pended id e hp with
    | kept hkept => exact ((hinv.caps q k hq).flips id s e hkept hc).imp_right hself
    | updated d hseen hsame hflip =>
        exact hold d hseen (JobEntry.counts_of_sameRow hsame hflip hc)
    | flipped d hseen hsame honly hcap =>
        have hqueue := (JobEntry.counts_iff.mp hc).1
        rw [hsame.queueId] at hqueue
        subst hqueue
        exact .inr (hself (hcap k hq).1)
    | inserted honly hpending hclash =>
        have hrun := (JobEntry.counts_iff.mp hc).2
        rw [hpending] at hrun
        cases hrun
  · have hpm : pendingJob m id = some (s, e) := ((hf.cells (.job id)).other hs e).mpr hp
    exact ((hinv.caps q k hq).flips id s e hpm hc).imp_right (holdsQueue_other hf hs).mp

-- A statement adds at most one job to those that are RUNNING, and does so within the cap.
theorem Guar.loaded (hwf : m.WF) {q : QueueId} {k : Int}
    (hq : Capped cond m q k) : Chronos.loaded m' q ⊆ Chronos.loaded m q ∨
      (HoldsQueue t q m ∧ (load m q : Int) + 1 ≤ k ∧
        ∃ id, Chronos.loaded m' q ⊆ insert id (Chronos.loaded m q)) := by
  by_cases hsub : Chronos.loaded m' q ⊆ Chronos.loaded m q
  · exact .inl hsub
  · right
    rw [Finset.not_subset] at hsub
    obtain ⟨id, hid, hnid⟩ := hsub
    have hnew : ¬ ∃ e, Version m id e ∧ e.counts q = true := fun h =>
      hnid (mem_loaded.mpr ⟨mem_keys_of_running hwf (running_iff.mpr h), running_iff.mpr h⟩)
    obtain ⟨e', hv, hc⟩ := running_iff.mp (mem_loaded.mp hid).2
    -- The version that counts now and did not before is the one the statement made.
    rcases version_before hf hv with hold | hp
    · exact absurd ⟨e', hold, hc⟩ hnew
    · cases hg.pended id e' hp with
      | kept hkept => exact absurd ⟨e', .inr ⟨t, hkept⟩, hc⟩ hnew
      | updated d hseen hsame hflip =>
          exact absurd ⟨d, version_of_seen hseen, JobEntry.counts_of_sameRow hsame hflip hc⟩ hnew
      | flipped d hseen hsame honly hcap =>
          have hqueue := (JobEntry.counts_iff.mp hc).1
          rw [hsame.queueId] at hqueue
          subst hqueue
          refine ⟨(hcap k hq).1, (hcap k hq).2, id, fun id' hid' => ?_⟩
          rw [Finset.mem_insert]
          by_cases heq : id' = id
          · exact .inl heq
          · have hrun := (mem_loaded.mp hid').2
            rw [running, committedJob, pendingJob, honly id' heq] at hrun
            exact .inr (mem_loaded.mpr ⟨mem_keys_of_running hwf hrun, hrun⟩)
      | inserted honly hpending hclash =>
          have hrun := (JobEntry.counts_iff.mp hc).2
          rw [hpending] at hrun
          cases hrun

theorem Guar.load_le (hwf : m.WF) (hinv : DbInv cond m) {q : QueueId} {k : Int}
    (hq : Capped cond m q k) : (load m' q : Int) ≤ max k 0 := by
  rcases hg.loaded hf hwf hq with hsub | ⟨-, hle, id, hsub⟩
  · have hcard := Finset.card_le_card hsub
    have hload := (hinv.caps q k hq).load
    unfold load at *
    omega
  · have hcard := (Finset.card_le_card hsub).trans (Finset.card_insert_le id _)
    unfold load at *
    omega

end Guarantee

theorem JobEntry.Unrecorded.notMem {e : JobEntry} {t : TxId} (h : e.Unrecorded t) :
    t ∉ e.log.filterMap JobEvent.tx := by
  intro hmem
  obtain ⟨ev, hev, htx⟩ := List.mem_filterMap.mp hmem
  exact h ev hev htx

-- The event of an operation records `t` or nobody, and `t` only when it was not there.
theorem Effect.event_tx {op : JobOp} {e e' : JobEntry} (h : Effect cond c t m op e e')
    {ev : JobEvent} (hev : op.event e = some ev) {s : TxId} (hs : ev.tx = some s) :
    s = t ∧ e.Unrecorded t := by
  obtain ⟨hperf, happ, hside⟩ := h
  cases hperf with
  | claim a now pass =>
      cases hev
      cases hs
      exact ⟨rfl, hside.1⟩
  | success d job workerId result now =>
      cases hev
      cases hs
      exact ⟨rfl, hside.1⟩
  | failure d job workerId error rng summary decision now hd =>
      cases hev
      cases hs
      exact ⟨rfl, hside.1⟩
  | release d job workerId now =>
      cases hev
      cases hs
      exact ⟨rfl, hside.1⟩
  | reclaim offline rank rng id now =>
      simp only [JobOp.event] at hev
      split at hev
      · cases hev
        cases hs
      · cases hev
  | cancel ownerId jobId now =>
      cases hev
      cases hs
  | requeue ownerId jobId now =>
      cases hev
      cases hs
  | extend => cases hev
  | summarize => cases hev

theorem Effect.mem_log {op : JobOp} {e e' : JobEntry} (h : Effect cond c t m op e e')
    {ev : JobEvent} (hev : ev ∈ e.log) : ev ∈ e'.log := by
  rw [h.applies.log]
  exact List.mem_append_right _ hev

theorem Effect.txs {op : JobOp} {e e' : JobEntry} (h : Effect cond c t m op e e')
    (hnodup : (e.log.filterMap JobEvent.tx).Nodup) : (e'.log.filterMap JobEvent.tx).Nodup := by
  rw [h.applies.log]
  cases hev : op.event e with
  | none => simpa using hnodup
  | some ev =>
      rw [Option.toList_some, List.singleton_append, List.filterMap_cons]
      cases htx : ev.tx with
      | none => exact hnodup
      | some s =>
          obtain ⟨rfl, hun⟩ := h.event_tx hev htx
          exact List.nodup_cons.mpr ⟨hun.notMem, hnodup⟩

theorem Effect.opened {op : JobOp} {e e' : JobEntry} (h : Effect cond c t m op e e')
    {opened : List TxId} (ht : t ∈ opened)
    (hold : ∀ ev ∈ e.log, ∀ s, ev.tx = some s → s ∈ opened) :
    ∀ ev ∈ e'.log, ∀ s, ev.tx = some s → s ∈ opened := by
  intro ev hev s hs
  rw [h.applies.log, List.mem_append, Option.mem_toList] at hev
  rcases hev with hnew | hev
  · exact (h.event_tx hnew hs).1 ▸ ht
  · exact hold ev hev s hs

theorem Queue.SameName.refl (q : Queue) : q.SameName q := ⟨rfl, rfl⟩

theorem Queue.SameName.trans {q q' q'' : Queue} (h : q.SameName q') (h' : q'.SameName q'') :
    q.SameName q'' :=
  ⟨h'.projectId.trans h.projectId, h'.name.trans h.name⟩

-- The name of a queue, and the project it is in, stay.
theorem committedQueue_after (hinv : DbInv cond m) (hf : Frame t m m') {id : QueueId} {q : Queue}
    (h : committedQueue m id = some q) : ∃ q', committedQueue m' id = some q' ∧ q.SameName q' := by
  have hstep := hf.cells (.queue id)
  have hnames := hinv.names id t q
  unfold committedQueue at *
  generalize m.cell (.queue id) = c at hstep h hnames
  generalize m'.cell (.queue id) = c' at hstep ⊢
  cases hstep with
  | keep => exact ⟨q, h, .refl q⟩
  | own v hfree => exact ⟨q, h, .refl q⟩
  | publish base v => exact ⟨v, rfl, hnames v h rfl⟩
  | release base v => exact ⟨q, h, .refl q⟩

theorem Guar.sameName (hinv : DbInv cond m) (hf : Frame t m m') (hg : Guar cond c t m m')
    {id : QueueId} {s : TxId} {q q' : Queue} (h : committedQueue m' id = some q)
    (hp : (m'.cell (.queue id)).pending = some (s, q')) : q.SameName q' := by
  -- A row that is still locked has not been committed to.
  have hcommitted : committedQueue m id = some q := by
    have hstep := hf.cells (.queue id)
    unfold committedQueue at *
    generalize m.cell (.queue id) = c at hstep ⊢
    generalize m'.cell (.queue id) = c' at hstep hp h
    cases hstep with
    | publish base v => cases hp
    | release base v => cases hp
    | _ => exact h
  by_cases hs : s = t
  · subst hs
    rcases hg.names id q' hp with hold | hnew
    · exact hinv.names id s q q' hcommitted hold
    · exact hnew q hcommitted
  · exact hinv.names id s q q' hcommitted (((hf.cells (.queue id)).other hs q').mpr hp)

-- Every statement within its guarantee keeps the invariant.
theorem DbInv.step (hwf : m.WF) (hinv : DbInv cond m) (ht : t ∈ m.opened)
    (hf : Frame t m m') (hg : Guar cond c t m m') : DbInv cond m' where
  ok id e' he' := by
    rcases hg.published id e' he' with hold | ⟨e, op, he, heff⟩ | ⟨-, hnew⟩
    · exact hinv.ok id e' hold
    · exact heff.applies.ok (hinv.ok id e he)
    · exact hnew.ok
  id id e' he' := by
    rcases hg.published id e' he' with hold | ⟨e, op, he, heff⟩ | ⟨-, hnew⟩
    · exact hinv.id id e' hold
    · exact heff.applies.sameRow.id.trans (hinv.id id e he)
    · exact hnew.id
  opened id e' he' := by
    rw [hf.opened]
    rcases hg.published id e' he' with hold | ⟨e, op, he, heff⟩ | ⟨-, hnew⟩
    · exact hinv.opened id e' hold
    · exact heff.opened ht (hinv.opened id e he)
    · intro ev hev s hs
      rw [hnew.log, List.mem_singleton] at hev
      subst hev
      cases hs
      exact ht
  txs id e' he' := by
    rcases hg.published id e' he' with hold | ⟨e, op, he, heff⟩ | ⟨-, hnew⟩
    · exact hinv.txs id e' hold
    · exact heff.txs (hinv.txs id e he)
    · simp [hnew.log, JobEvent.tx]
  deps id e' he' d hd := by
    have hstays : ∀ {dep}, committedJob m d = some dep → ∃ dep', committedJob m' d = some dep' :=
      fun h => committed_after hf h
    rcases hg.published id e' he' with hold | ⟨e, op, he, heff⟩ | ⟨-, hnew⟩
    · obtain ⟨dep, hdep⟩ := hinv.deps id e' hold d hd
      exact hstays hdep
    · obtain ⟨dep, hdep⟩ := hinv.deps id e he d (heff.applies.deps ▸ hd)
      exact hstays hdep
    · obtain ⟨dep, hdep, -⟩ := hnew.deps d hd
      exact hstays hdep
  unique id id' e e' h h' hkey := hg.unique hf hinv h h' hkey
  caps q k hq := by
    rcases hg.installs q k hq with hold | hok
    · exact ⟨fun id s e hp hc => hg.flips hf hinv hold hp hc, hg.load_le hf hwf hinv hold⟩
    · exact hok
  queues id q hq := (hg.queues id q hq).elim (hinv.queues id q) fun h => h
  names id s q q' h hp := hg.sameName hinv hf h hp
  projects id := by rw [hg.projects id]; exact hinv.projects id

end Chronos
