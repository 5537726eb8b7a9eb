import Chronos.Refinement.Invariant

namespace Chronos

open Txn (TxId Cell Environment Interferes Stable)

variable {cond : Conditions} {c : Call} {t : TxId} {m m' : Db}

theorem spec_sound (cond : Conditions) : (spec cond).Sound :=
  fun _ _ _ _ hwf _ hinv _ ht hf hg _ => hinv.step hwf ht hf hg

theorem capped_congr (hqueue : ∀ q, committedQueue m' q = committedQueue m q) {q : QueueId} {k : Int}
    (h : Capped cond m' q k) : Capped cond m q k :=
  ⟨h.cap, fun row hrow => h.row row ((hqueue q).trans hrow)⟩

theorem load_environment (henv : Environment m m') (q : QueueId) : load m' q = load m q := by
  unfold load loaded
  rw [henv.keys]
  congr 3
  funext id
  rw [running, committedJob, pendingJob, henv.cell, running, committedJob, pendingJob]

theorem DbInv.environment (hinv : DbInv cond m) (henv : Environment m m') : DbInv cond m' := by
  have hcell : ∀ k, m'.cell k = m.cell k := fun k => by rw [henv.cell]
  have hjob : ∀ id, committedJob m' id = committedJob m id := fun id => by
    rw [committedJob, hcell, committedJob]
  have hpending : ∀ id, pendingJob m' id = pendingJob m id := fun id => by
    rw [pendingJob, hcell, pendingJob]
  have hversion : ∀ {id e}, Version m' id e → Version m id e := fun {id e} h => by
    simpa only [Version, hjob, hpending] using h
  refine ⟨fun id e he => hinv.ok id e (hjob id ▸ he), fun id e he => hinv.id id e (hjob id ▸ he),
    fun id e he ev hev s hs => henv.opened s (hinv.opened id e (hjob id ▸ he) ev hev s hs),
    fun id e he => hinv.txs id e (hjob id ▸ he), ?_,
    fun id id' e e' h h' => hinv.unique id id' e e' (hversion h) (hversion h'), ?_,
    ?_, ?_, ?_⟩
  · intro id e he d hd
    rw [hjob]
    exact hinv.deps id e (hjob id ▸ he) d hd
  · intro q k hq
    have hold : CapOk m q k := hinv.caps q k
      (capped_congr (fun q => by rw [committedQueue, hcell, committedQueue]) hq)
    refine ⟨fun id s e hp hc => ?_, load_environment henv q ▸ hold.load⟩
    rw [hjob]
    rw [hpending] at hp
    simpa only [HoldsQueue, hcell] using hold.flips id s e hp hc
  · intro id q hq
    refine hinv.queues id q ?_
    simpa only [QueueVersion, committedQueue, hcell] using hq
  · intro id s q q' h hp
    refine hinv.names id s q q' ?_ ?_
    · rwa [committedQueue, hcell] at h
    · rwa [hcell] at hp
  · intro id
    rw [hcell]
    exact hinv.projects id

section Guar

theorem Guar.of_jobs (hjob : ∀ id, m'.cell (.job id) = m.cell (.job id))
    (hqueues : ∀ id q, QueueVersion m' id q → QueueVersion m id q ∨ q.checks = true)
    (hnames : ∀ id q', (m'.cell (.queue id)).pending = some (t, q') →
      (m.cell (.queue id)).pending = some (t, q') ∨
        ∀ q, committedQueue m id = some q → q.SameName q')
    (hprojects : ∀ id, m'.cell (.project id) = m.cell (.project id))
    (hcommitted : ∀ id, committedQueue m' id = committedQueue m id) : Guar cond c t m m' where
  published id e' h := .inl (by rwa [committedJob, hjob] at h)
  pended id e' h := .kept (by rwa [pendingJob, hjob] at h)
  queues := hqueues
  names := hnames
  projects := hprojects
  installs q k h := .inl (capped_congr hcommitted h)

theorem Guar.refl : Guar cond c t m m :=
  .of_jobs (fun _ => rfl) (fun _ _ h => .inl h) (fun _ _ h => .inl h) (fun _ => rfl) fun _ => rfl

theorem queueVersion_of_commit {id : QueueId} {q : Queue} (h : QueueVersion (m.commit t) id q) :
    QueueVersion m id q := by
  by_cases hp : ∃ v, (m.cell (.queue id)).pending = some (t, v)
  · obtain ⟨v, hv⟩ := hp
    simp only [QueueVersion, committedQueue, Txn.Store.commit_cell_held hv, Option.some.injEq,
      reduceCtorEq, exists_false, or_false] at h
    exact .inr ⟨t, h ▸ hv⟩
  · simp only [not_exists] at hp
    simpa only [QueueVersion, committedQueue, Txn.Store.commit_cell_other hp] using h

theorem queueVersion_of_rollback {id : QueueId} {q : Queue}
    (h : QueueVersion (m.rollback t) id q) : QueueVersion m id q := by
  by_cases hp : ∃ v, (m.cell (.queue id)).pending = some (t, v)
  · obtain ⟨v, hv⟩ := hp
    simp only [QueueVersion, committedQueue, Txn.Store.rollback_cell_held hv, reduceCtorEq,
      exists_false, or_false] at h
    exact .inl h
  · simp only [not_exists] at hp
    simpa only [QueueVersion, committedQueue, Txn.Store.rollback_cell_other hp] using h

theorem Guar.commit (hinv : DbInv cond m)
    (h : ∀ id e', pendingJob m id = some (t, e') → committedJob m id = some e' ∨
      (∃ e op, committedJob m id = some e ∧ Effect cond c t m op e e') ∨
      (committedJob m id = none ∧ Created c t m id e'))
    (hinstalls : ∀ q k, Capped cond (m.commit t) q k → Capped cond m q k ∨ CapOk (m.commit t) q k) :
    Guar cond c t m (m.commit t) where
  published id e' he' := by
    by_cases hp : ∃ v, (m.cell (.job id)).pending = some (t, v)
    · obtain ⟨v, hv⟩ := hp
      rw [committedJob, Txn.Store.commit_cell_held hv, Option.some.injEq] at he'
      exact h id e' (he' ▸ hv)
    · simp only [not_exists] at hp
      rw [committedJob, Txn.Store.commit_cell_other hp] at he'
      exact .inl he'
  pended id e' hp := absurd hp (m.commit_not_held t (.job id) e')
  queues id q hq := .inl (queueVersion_of_commit hq)
  names id q' hp := absurd hp (m.commit_not_held t (.queue id) q')
  projects id := Txn.Store.commit_cell_other fun v hv => by
    rw [hinv.projects id] at hv
    cases hv
  installs := hinstalls

theorem committedQueue_own (k : Key) (v : Row k) (id : QueueId) :
    committedQueue (m.own t k v) id = committedQueue m id := by
  rw [committedQueue, Txn.Store.own_committed, committedQueue]

theorem Guar.rollback (hinv : DbInv cond m) : Guar cond c t m (m.rollback t) where
  published id e' he' := .inl (by rwa [committedJob, Txn.Store.rollback_committed] at he')
  pended id e' hp := absurd hp (m.rollback_not_held t (.job id) e')
  queues id q hq := .inl (queueVersion_of_rollback hq)
  names id q' hp := absurd hp (m.rollback_not_held t (.queue id) q')
  projects id := Txn.Store.rollback_cell_other fun v hv => by
    rw [hinv.projects id] at hv
    cases hv
  installs q k h := .inl (capped_congr (fun id => by
    rw [committedQueue, Txn.Store.rollback_committed, committedQueue]) h)

-- A statement that leaves `t` with a version of one row, `m'` differing in that cell only.
theorem Guar.own_job {id : JobId} {e' : JobEntry}
    (h : Pended cond t m (m.own t (.job id) e') id e') : Guar cond c t m (m.own t (.job id) e') where
  published id' e'' he := .inl (by rwa [committedJob, Txn.Store.own_committed] at he)
  pended id' e'' hp := by
    by_cases heq : id' = id
    · subst heq
      rw [pendingJob, Txn.Store.own_cell_self, Option.some.injEq, Prod.mk.injEq] at hp
      exact hp.2 ▸ h
    · rw [pendingJob, Txn.Store.own_cell_ne t _ _ m (by simpa using heq)] at hp
      exact .kept hp
  queues id' q hq := .inl (by
    rwa [QueueVersion, committedQueue, Txn.Store.own_committed,
      Txn.Store.own_cell_ne t _ _ m (by simp)] at hq)
  names id' q' hp := .inl (by rwa [Txn.Store.own_cell_ne t _ _ m (by simp)] at hp)
  projects id' := Txn.Store.own_cell_ne t _ _ m (by simp)
  installs q k h := .inl (capped_congr (committedQueue_own _ _) h)

theorem Guar.own_queue {id : QueueId} {q : Queue} (h : q.checks = true)
    (hname : ∀ q₀, committedQueue m id = some q₀ → q₀.SameName q) :
    Guar cond c t m (m.own t (.queue id) q) := by
  refine .of_jobs (fun id' => Txn.Store.own_cell_ne t _ _ m (by simp)) (fun id' q' hq => ?_)
    (fun id' q' hp => ?_) (fun id' => Txn.Store.own_cell_ne t _ _ m (by simp))
    (committedQueue_own _ _)
  · by_cases heq : id' = id
    · subst heq
      rcases hq with hq | ⟨s, hq⟩
      · exact .inl (.inl (by rwa [committedQueue, Txn.Store.own_committed] at hq))
      · rw [Txn.Store.own_cell_self, Option.some.injEq, Prod.mk.injEq] at hq
        exact .inr (hq.2 ▸ h)
    · refine .inl ?_
      rwa [QueueVersion, committedQueue, Txn.Store.own_committed,
        Txn.Store.own_cell_ne t _ _ m (by simpa using heq)] at hq
  · by_cases heq : id' = id
    · subst heq
      rw [Txn.Store.own_cell_self, Option.some.injEq, Prod.mk.injEq] at hp
      exact .inr (hp.2 ▸ hname)
    · exact .inl (by rwa [Txn.Store.own_cell_ne t _ _ m (by simpa using heq)] at hp)

-- Rows of the other tables are nobody's concern here.
theorem Guar.own_other {k : Key} {v : Row k} (hjob : ∀ id, Key.job id ≠ k)
    (hqueue : ∀ id, Key.queue id ≠ k) (hproject : ∀ id, Key.project id ≠ k) :
    Guar cond c t m (m.own t k v) := by
  refine .of_jobs (fun id => Txn.Store.own_cell_ne t _ _ m (hjob id)) (fun id q hq => .inl ?_)
    (fun id q hp => .inl ?_) (fun id => Txn.Store.own_cell_ne t _ _ m (hproject id))
    (committedQueue_own _ _)
  · rwa [QueueVersion, committedQueue, Txn.Store.own_committed,
      Txn.Store.own_cell_ne t _ _ m (hqueue id)] at hq
  · rwa [Txn.Store.own_cell_ne t _ _ m (hqueue id)] at hp

-- An insert leaves the cells as taking the row does.
theorem Guar.insert {k : Key} {v : Row k} (h : Guar cond c t m (m.own t k v)) :
    Guar cond c t m (m.insert t k v) where
  published := h.published
  pended id e' hp := by
    cases h.pended id e' hp with
    | kept hkept => exact .kept hkept
    | updated e hseen hsame hflip => exact .updated e hseen hsame hflip
    | flipped e hseen hsame honly hcap => exact .flipped e hseen hsame honly hcap
    | inserted honly hpending hclash => exact .inserted honly hpending hclash
  queues := h.queues
  names := h.names
  projects := h.projects
  installs q k hq := .inl (capped_congr (fun id => by
    rw [committedQueue, Txn.Store.insert_cell, ← committedQueue, committedQueue_own]) hq)

theorem queueVersion_of_seen {m : Db} {id : QueueId} {row : Queue}
    (h : (m.cell (.queue id)).seen t = some row) : QueueVersion m id row := by
  rcases Cell.seen_cases h with hp | hc
  · exact .inr ⟨t, hp⟩
  · exact .inl hc

theorem DbInv.sameName_seen (hinv : DbInv cond m) {id : QueueId} {q row : Queue}
    (h : committedQueue m id = some q) (hseen : (m.cell (.queue id)).seen t = some row) :
    q.SameName row := by
  rcases Cell.seen_cases hseen with hp | hc
  · exact hinv.names id t q row h hp
  · exact Option.some.inj (h.symm.trans hc) ▸ .refl q

end Guar

section Stable

-- What others do to a committed row: nothing, or the operations of their calls.
theorem interferes_entry (hi : Interferes (spec cond) t m m') {id : JobId} {e : JobEntry}
    (h : committedJob m id = some e) : ∃ e', committedJob m' id = some e' ∧
      (e' = e ∨ ∃ c s op, s ≠ t ∧ Effect cond c s m op e e') := by
  obtain ⟨-, -, -, henv | ⟨c, s, hne, -, hf, hg⟩⟩ := hi
  · exact ⟨e, by rwa [committedJob, henv.cell], .inl rfl⟩
  · obtain ⟨e', he', heq | ⟨op, heff⟩⟩ := hg.entry hf h
    · exact ⟨e', he', .inl heq⟩
    · exact ⟨e', he', .inr ⟨c, s, op, hne, heff⟩⟩

-- A property of a row that survives the operations of other calls.
def Lasting (cond : Conditions) (t : TxId) (R : JobEntry → Prop) : Prop :=
  ∀ c s m op e e', s ≠ t → e.Ok → Effect cond c s m op e e' → R e → R e'

theorem Lasting.and {R R' : JobEntry → Prop} (h : Lasting cond t R) (h' : Lasting cond t R') :
    Lasting cond t fun e => R e ∧ R' e :=
  fun c s m op e e' hs hok heff hr =>
    ⟨h c s m op e e' hs hok heff hr.1, h' c s m op e e' hs hok heff hr.2⟩

theorem Lasting.imp {p : Prop} {R : JobEntry → Prop} (h : Lasting cond t R) :
    Lasting cond t fun e => p → R e :=
  fun c s m op e e' hs hok heff hr hp => h c s m op e e' hs hok heff (hr hp)

theorem Stable.entry {R : JobEntry → Prop} (hR : Lasting cond t R) (id : JobId) :
    Stable (spec cond) t fun m => ∃ e, committedJob m id = some e ∧ R e := by
  intro m m' _ hinv hi ⟨e, he, hr⟩
  obtain ⟨e', he', rfl | ⟨c, s, op, hne, heff⟩⟩ := interferes_entry hi he
  · exact ⟨e', he', hr⟩
  · exact ⟨e', he', hR c s m op e e' hne (hinv.ok id e he) heff hr⟩

theorem lasting_true : Lasting cond t fun _ => True :=
  fun _ _ _ _ _ _ _ _ _ h => h

theorem lasting_mem_log (ev : JobEvent) : Lasting cond t fun e => ev ∈ e.log :=
  fun _ _ _ _ _ _ _ _ heff h => heff.mem_log h

theorem lasting_exists {ι : Sort*} {R : ι → JobEntry → Prop} (h : ∀ i, Lasting cond t (R i)) :
    Lasting cond t fun e => ∃ i, R i e :=
  fun c s m op e e' hs hok heff ⟨i, hr⟩ => ⟨i, h i c s m op e e' hs hok heff hr⟩

theorem lasting_succeeded : Lasting cond t fun e => e.job.status = .succeeded :=
  fun _ _ _ _ _ _ _ _ heff h => heff.applies.succeeded h

theorem lasting_hasKey (ownerId : UserId) (key : String) : Lasting cond t (HasKey ownerId key) :=
  fun _ _ _ _ _ _ _ _ heff h =>
    ⟨heff.applies.sameRow.ownerId.trans h.1, heff.applies.sameRow.idempotencyKey.trans h.2⟩

theorem lasting_ownerId (ownerId : UserId) : Lasting cond t fun e => e.job.ownerId = ownerId :=
  fun _ _ _ _ _ _ _ _ heff h => heff.applies.sameRow.ownerId.trans h

theorem lasting_dependsOn (deps : List JobId) : Lasting cond t fun e => e.dependsOn = deps :=
  fun _ _ _ _ _ _ _ _ heff h => heff.applies.deps.trans h

theorem lasting_handedOut (claim : TxId) (workerId : WorkerId) (job : Job) :
    Lasting cond t (JobEntry.HandedOut claim workerId job) := by
  intro c s m op e e' _ _ heff ⟨⟨pass, hmem⟩, hid, hmax, hcount⟩
  have hsame := heff.applies.sameRow
  exact ⟨⟨pass, heff.mem_log hmem⟩, hid.trans hsame.id.symm, hmax.trans hsame.maxAttempts.symm,
    hcount⟩

theorem lasting_unrecorded : Lasting cond t (JobEntry.Unrecorded t) := by
  intro c s m op e e' hs _ heff h ev hev
  rw [heff.applies.log, List.mem_append, Option.mem_toList] at hev
  rcases hev with hnew | hold
  · intro htx
    exact hs (heff.event_tx hnew htx).1.symm
  · exact h ev hold

-- The claim of a transaction that is in the history and over does not come back.
theorem lasting_ended (claim : TxId) (workerId : WorkerId) (pass : Pass) :
    Lasting cond t fun e => .claimed claim workerId pass ∈ e.log ∧ e.currentClaim ≠ some claim := by
  intro c s m op e e' _ _ heff ⟨hmem, hnot⟩
  refine ⟨heff.mem_log hmem, ?_⟩
  have hlog := heff.applies.log
  cases hev : op.event e with
  | none =>
      rw [hev, Option.toList_none, List.nil_append] at hlog
      simpa only [JobEntry.currentClaim, hlog] using hnot
  | some ev =>
      rw [hev, Option.toList_some, List.singleton_append] at hlog
      simp only [JobEntry.currentClaim, hlog]
      cases ev with
      | claimed tx holder pass' =>
          obtain ⟨rfl, hun⟩ := heff.event_tx hev rfl
          intro heq
          exact hun _ hmem heq.symm
      | _ => simp

theorem stable_depsMet (e : JobEntry) : Stable (spec cond) t fun m => DepsMet m e :=
  fun m m' hwf hinv hi h d hd =>
    Stable.entry lasting_succeeded d m m' hwf hinv hi (h d hd)

-- A property of all committed rows, where the rows others create have it too.
theorem Stable.entries {R : JobId → JobEntry → Prop} (hR : ∀ id, Lasting cond t (R id))
    (hnew : ∀ c s m id e, s ≠ t → Created c s m id e → R id e) :
    Stable (spec cond) t fun m => ∀ id e, committedJob m id = some e → R id e := by
  intro m m' _ hinv hi h id e' he'
  obtain ⟨-, -, -, henv | ⟨c, s, hne, -, hf, hg⟩⟩ := hi
  · rw [committedJob, henv.cell] at he'
    exact h id e' he'
  · rcases hg.published id e' he' with hold | ⟨e, op, he, heff⟩ | ⟨-, hcreated⟩
    · exact h id e' hold
    · exact hR id c s m op e e' hne (hinv.ok id e he) heff (h id e he)
    · exact hnew c s m id e' hne hcreated

theorem stable_unrecorded : Stable (spec cond) t (Unrecorded t) := by
  refine Stable.entries (fun _ => lasting_unrecorded) fun c s m id e hne hcreated ev hev htx => ?_
  rw [hcreated.log, List.mem_singleton] at hev
  subst hev
  exact hne (Option.some.inj htx)

theorem stable_holdsQueue (q : QueueId) : Stable (spec cond) t (HoldsQueue t q) :=
  fun _ _ _ _ hi ⟨row, hrow⟩ => ⟨row, hi.held_iff.mp hrow⟩

-- A queue stays where it is found by its name.
theorem stable_queueNamed (projectId : ProjectId) (name : String) :
    Stable (spec cond) t fun m => ∃ id q, committedQueue m id = some q ∧
      q.projectId = projectId ∧ q.name = name := by
  rintro m m' _ hinv ⟨-, -, -, henv | ⟨c, s, hne, -, hf, hg⟩⟩ ⟨id, q, hq, hproject, hname⟩
  · exact ⟨id, q, by rwa [committedQueue, henv.cell], hproject, hname⟩
  · obtain ⟨q', hq', hsame⟩ := committedQueue_after hinv hf hq
    exact ⟨id, q', hq', hsame.projectId.trans hproject, hsame.name.trans hname⟩

-- Nobody writes to projects.
theorem stable_project (id : ProjectId) (D : Option Project → Prop) :
    Stable (spec cond) t fun m => D (m.cell (.project id)).committed := by
  rintro m m' _ hinv ⟨-, -, -, henv | ⟨c, s, hne, -, hf, hg⟩⟩ h
  · rwa [henv.cell]
  · rwa [hg.projects id]

-- The committed version of a row that `t` has locked stays.
theorem capped_of_held (hi : Interferes (spec cond) t m m') {q : QueueId} {k : Int}
    (h : HoldsQueue t q m) (hk : Capped cond m' q k) : Capped cond m q k := by
  obtain ⟨row, hrow⟩ := h
  refine ⟨hk.cap, fun row' hrow' => hk.row row' ?_⟩
  rwa [committedQueue, hi.cell_of_held hrow]

-- While `t` has the row of a capped queue, nobody else adds to the queue's RUNNING jobs.
theorem stable_load (q : QueueId) (n : Int) : Stable (spec cond) t fun m => HoldsQueue t q m ∧
    ∀ k, Capped cond m q k → (load m q : Int) ≤ n := by
  intro m m' hwf hinv hi ⟨hhold, hle⟩
  refine ⟨stable_holdsQueue q m m' hwf hinv hi hhold, fun k hk' => ?_⟩
  have hk : Capped cond m q k := capped_of_held hi hhold hk'
  have hle := hle k hk
  obtain ⟨-, -, -, henv | ⟨c, s, hne, -, hf, hg⟩⟩ := hi
  · rw [load_environment henv]
    exact hle
  · rcases hg.loaded hf hwf hk with hsub | ⟨⟨row, hrow⟩, -⟩
    · have hcard := Finset.card_le_card hsub
      unfold load at *
      omega
    · obtain ⟨row', hrow'⟩ := hhold
      rw [hrow'] at hrow
      exact absurd (congrArg Prod.fst (Option.some.inj hrow)).symm hne

end Stable

end Chronos
