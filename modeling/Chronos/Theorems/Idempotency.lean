import Chronos.Refinement.Checks

namespace Chronos

open Txn (TxId)

variable {cond : Conditions} {m : Db} {s : State} {ownerId : UserId} {key : String}

-- The transaction that has created the job.
def JobEntry.creator (e : JobEntry) : Option TxId :=
  match e.log.getLast? with
  | some (.created t) => some t
  | _ => none

-- Only the creation of a job starts its history.
theorem JobEntry.Coherent.creator_of_mem {e : JobEntry} (h : e.Coherent) {t : TxId}
    (hmem : .created t ∈ e.log) : e.creator = some t := by
  obtain ⟨newer, older, hlog⟩ := List.append_of_mem hmem
  cases older with
  | nil => rw [JobEntry.creator, hlog, List.getLast?_concat]
  | cons old older =>
      have hchain := h.chain
      rw [hlog] at hchain
      have hrel := (List.isChain_cons_cons.mp hchain.right_of_append).1
      cases hrel

theorem JobEntry.mem_of_creator {e : JobEntry} {t : TxId} (h : e.creator = some t) :
    .created t ∈ e.log := by
  unfold JobEntry.creator at h
  split at h
  · rename_i t' hlast
    obtain rfl := Option.some.inj h
    exact List.mem_of_getLast? hlast
  · cases h

-- The enqueue calls of the owner that carry the key.
structure Carries (ownerId : UserId) (key : String) (s : State) (t : TxId)
    (rest : Option (Tx Value)) : Prop where
  call : ∃ user data ids, s.thread t = some ⟨.enqueue user data ids, rest⟩ ∧ user.id = ownerId ∧
    data.idempotencyKey = some key

-- The runs in which the bodies that carry the key are valid, and none of their jobs is flushed
-- while a job with the key is committed.
def keyCondition (ownerId : UserId) (key : String) : Conditions :=
  { Conditions.none with exclusive := fun owner k => owner = ownerId ∧ k = key }

-- The job with the key, and what the calls that carry it say of it.
structure Idempotent (ownerId : UserId) (key : String) (s : State) : Prop where
  unique : ∀ id id' e e', committedJob s.mem id = some e → committedJob s.mem id' = some e' →
    HasKey ownerId key e → HasKey ownerId key e' → id = id'
  created : ∀ id e, committedJob s.mem id = some e → HasKey ownerId key e →
    ∃ t rest, e.creator = some t ∧ Carries ownerId key s t rest
  returned : ∀ t v, Carries ownerId key s t (some (.pure v)) → ∃ job created e,
    v = .enqueued job created ∧ committedJob s.mem job.id = some e ∧ HasKey ownerId key e ∧
      (created = true ↔ e.creator = some t)

theorem Carries.step (hm : Initial m) (h : Run cond m s) {ev : Event} {s' : State}
    (hstep : system.step s ev = some s') {t : TxId} {rest : Option (Tx Value)}
    (hc : Carries ownerId key s t rest) : ∃ rest', Carries ownerId key s' t rest' := by
  obtain ⟨user, data, ids, ht, howner, hkey⟩ := hc.call
  obtain ⟨rest', ht'⟩ := (Txn.System.steps_of_step hstep).call (Run.inv hm h).threads ht
  exact ⟨rest', ⟨user, data, ids, ht', howner, hkey⟩⟩

-- Who creates a job with the key is a call that carries it.
theorem carries_of_creator (hm : Initial m) (h : Run cond m s) : ∀ id e,
    committedJob s.mem id = some e → HasKey ownerId key e →
      ∃ t rest, e.creator = some t ∧ Carries ownerId key s t rest := by
  refine h.invariant (P := fun s => ∀ id e, committedJob s.mem id = some e → HasKey ownerId key e →
    ∃ t rest, e.creator = some t ∧ Carries ownerId key s t rest) ?_ ?_
  · intro id e he
    rw [committedJob, Txn.Pool.init, hm.job id] at he
    cases he
  · intro s ev s' hs hcreated hstep hok id e' he' hhas
    cases Run.published hm hs hstep hok id with
    | same heq =>
        obtain ⟨t, rest, hcreator, hc⟩ := hcreated id e' (heq ▸ he') hhas
        obtain ⟨rest', hc'⟩ := hc.step hm hs hstep
        exact ⟨t, rest', hcreator, hc'⟩
    | changed t c p op e d hev ht he hd heff =>
        obtain rfl : d = e' := Option.some.inj (hd.symm.trans he')
        have hsame := heff.applies.sameRow
        have hkey : HasKey ownerId key e :=
          ⟨hsame.ownerId.symm.trans hhas.1, hsame.idempotencyKey.symm.trans hhas.2⟩
        obtain ⟨t', rest, hcreator, hc⟩ := hcreated id e he hkey
        obtain ⟨rest', hc'⟩ := hc.step hm hs hstep
        have hok' := heff.applies.ok ((Run.inv hm hs).inv.ok id e he)
        exact ⟨t', rest', hok'.coherent.creator_of_mem
          (heff.mem_log (JobEntry.mem_of_creator hcreator)), hc'⟩
    | created t c p d hev ht hnone hd hnew =>
        obtain rfl : d = e' := Option.some.inj (hd.symm.trans he')
        obtain ⟨user, data, ids, rfl, howner, hkey⟩ := hnew.call
        have hc : Carries ownerId key s t (some p) :=
          ⟨user, data, ids, ht, howner.symm.trans hhas.1, hkey.symm.trans hhas.2⟩
        obtain ⟨rest', hc'⟩ := hc.step hm hs hstep
        refine ⟨t, rest', hnew.ok.coherent.creator_of_mem ?_, hc'⟩
        rw [hnew.log]
        exact List.mem_singleton_self _

theorem returned_of_carries (hm : Initial m) (h : Run (keyCondition ownerId key) m s) {t : TxId}
    {v : Value} (hc : Carries ownerId key s t (some (.pure v))) : ∃ job created e,
      v = .enqueued job created ∧ committedJob s.mem job.id = some e ∧ HasKey ownerId key e ∧
        (created = true ↔ e.creator = some t) := by
  obtain ⟨user, data, ids, ht, rfl, hkey⟩ := hc.call
  have hinv := Run.inv hm h
  obtain ⟨job, created, hv, e, he, hhas, hcreated⟩ :=
    hinv.safe t _ _ ht s.mem .refl key hkey ⟨rfl, rfl⟩
  refine ⟨job, created, e, hv, he, hhas, hcreated.trans ⟨fun hmem => ?_, fun hcreator => ?_⟩⟩
  · exact (hinv.inv.ok _ e he).coherent.creator_of_mem hmem
  · exact JobEntry.mem_of_creator hcreator

-- In a run that meets the condition there is one job with the key at most, every call that carries
-- the key and has returned has returned it, and created is True for the call that created it and
-- for no other.
theorem idempotent_enqueue (hm : Initial m) (h : Run (keyCondition ownerId key) m s) :
    Idempotent ownerId key s ∧
    ∀ s', RunOn (keyCondition ownerId key) s s' → ∀ id e, committedJob s.mem id = some e →
      HasKey ownerId key e → ∃ e', committedJob s'.mem id = some e' ∧ HasKey ownerId key e' := by
  refine ⟨⟨fun id id' e e' he he' hhas hhas' => ?_, carries_of_creator hm h, ?_⟩, ?_⟩
  · refine (Run.inv hm h).inv.unique id id' e e' (.inl he) (.inl he') ⟨?_, ?_, ?_⟩
    · exact hhas.1.trans hhas'.1.symm
    · exact hhas.2.trans hhas'.2.symm
    · rw [hhas.2, Option.isSome_some]
  · exact fun t v hc => returned_of_carries hm h hc
  · exact fun s' hrun id e he hhas =>
      Run.lasting hm h hrun (fun _ => lasting_hasKey ownerId key) he hhas

section Example

def keyBody (key : String) : JobCreate := exampleBody (some key) []

-- The second call starts when the first has returned.
def repeatedEvents : List Event :=
  whole 1 (.enqueue exampleUser (keyBody "order-1") ⟨7, 8, 9⟩) 9 ++
    whole 2 (.enqueue exampleUser (keyBody "order-1") ⟨17, 18, 9⟩) 3

def keyChecks : Checks :=
  { Checks.none with exclusive := fun owner k => owner = exampleUser.id ∧ k = "order-1" }

theorem keyChecks_covers : keyChecks.Covers (keyCondition exampleUser.id "order-1") where
  cap _ _ h := nomatch h
  fixed _ := trivial
  finalize _ _ _ _ _ := trivial
  summary _ _ _ _ := trivial
  gated h := h.elim
  exclusive owner k h :=
    decide_eq_true (p := owner = exampleUser.id ∧ k = "order-1") h

-- What a call has returned: the id of the job, and whether it was created.
def returnedJob (s : State) (t : TxId) : Option (JobId × Bool) :=
  match s.thread t with
  | some ⟨_, some (.pure (.enqueued job created))⟩ => some (job.id, created)
  | _ => none

theorem idempotent_enqueue_repeated :
    (returnedJob (keyChecks.stateAfter repeatedEvents) 1 = some (7, true) ∧
      returnedJob (keyChecks.stateAfter repeatedEvents) 2 = some (7, false)) ∧
    Idempotent exampleUser.id "order-1" (keyChecks.stateAfter repeatedEvents) :=
  ⟨by decide +kernel, (idempotent_enqueue exampleDb_initial
    (keyChecks.run_stateAfter repeatedEvents keyChecks_covers)).1⟩

-- No enqueue call with a valid body that carries the key raises.
def NeverRaises (key : String) : Prop :=
  ∀ m s, Initial m → system.Reachable m s → ∀ t user data ids err, data.idempotencyKey = some key →
    ValidBody s.mem user data →
      s.thread t ≠ some ⟨.enqueue user data ids, some (.pure (.raised err))⟩

def raises (key : String) (s : State) (t : TxId) : Bool :=
  match s.thread t with
  | some ⟨.enqueue user data _, some (.pure (.raised _))⟩ =>
      decide (data.idempotencyKey = some key) && Checks.validBody s.mem user data
  | _ => false

theorem not_neverRaises {key : String} (hm : Initial m) (h : system.Reachable m s) {t : TxId}
    (hraises : raises key s t = true) : ¬ NeverRaises key := by
  intro hnever
  unfold raises at hraises
  split at hraises
  · rename_i user data ids err hthread
    rw [Bool.and_eq_true, decide_eq_true_eq] at hraises
    exact hnever m s hm h t user data ids err hraises.1 (Checks.validBody_sound hraises.2) hthread
  · cases hraises

-- Both calls pass the pre-check, and the first commits while the second has not flushed yet.
def racingEvents : List Event :=
  whole 2 (.enqueue exampleUser (keyBody "order-1") ⟨17, 18, 9⟩) 2 ++
    whole 1 (.enqueue exampleUser (keyBody "order-1") ⟨7, 8, 9⟩) 9 ++ List.replicate 5 (.run 2)

-- An empty key passes the pre-check unseen, and the index refuses it the second time.
def emptyKeyEvents : List Event :=
  whole 1 (.enqueue exampleUser (keyBody "") ⟨7, 8, 9⟩) 8 ++
    whole 2 (.enqueue exampleUser (keyBody "") ⟨17, 18, 9⟩) 6

theorem second_enqueue_raises : ¬ NeverRaises "order-1" ∧ ¬ NeverRaises "" := by
  have hrace : raises "order-1" (stateAfter racingEvents) 2 = true := by decide +kernel
  have hempty : raises "" (stateAfter emptyKeyEvents) 2 = true := by decide +kernel
  exact ⟨not_neverRaises exampleDb_initial (reachable_stateAfter racingEvents) hrace,
    not_neverRaises exampleDb_initial (reachable_stateAfter emptyKeyEvents) hempty⟩

end Example

end Chronos
