import Mathlib.Logic.Relation
import Mathlib.Algebra.Order.BigOperators.Group.List
import Chronos.Theorems.Workflows

namespace Chronos

variable {cond : Conditions} {m : Db} {s s' : State}

-- The rows of job_dependencies.
def DependsOn (m : Db) (id d : JobId) : Prop :=
  ∃ e, committedJob m id = some e ∧ d ∈ e.dependsOn

-- Jobs that only wait for each other, or for nothing any more.
structure SelfContained (m : Db) (ids : Set JobId) : Prop where
  pending : ∀ id ∈ ids, ∃ e, committedJob m id = some e ∧ e.job.status = .pending
  deps : ∀ id ∈ ids, ∀ d, DependsOn m id d → d ∈ ids ∨
    ∃ dep, committedJob m d = some dep ∧ dep.job.status = .succeeded

structure WellFormedGraph (m : Db) : Prop where
  acyclic : ∀ id, ¬ Relation.TransGen (DependsOn m) id id
  sameOwner : ∀ id e, committedJob m id = some e → ∀ d ∈ e.dependsOn,
    ∃ dep, committedJob m d = some dep ∧ dep.job.ownerId = e.job.ownerId
  nodup : ∀ id e, committedJob m id = some e → e.dependsOn.Nodup
  unblocked : ∀ ids : Set JobId, ids.Nonempty → SelfContained m ids →
    ∃ id ∈ ids, ∃ e, committedJob m id = some e ∧ DepsMet m e

-- An order in which the jobs may have come into being: each behind those it depends on.
structure Ranked (m : Db) (rank : JobId → Nat) : Prop where
  falls : ∀ id d, DependsOn m id d → rank d < rank id
  sameOwner : ∀ id e, committedJob m id = some e → ∀ d ∈ e.dependsOn,
    ∃ dep, committedJob m d = some dep ∧ dep.job.ownerId = e.job.ownerId
  nodup : ∀ id e, committedJob m id = some e → e.dependsOn.Nodup

section Graph

variable {rank : JobId → Nat}

theorem Ranked.falls_along (h : Ranked m rank) {id d : JobId}
    (hpath : Relation.TransGen (DependsOn m) id d) : rank d < rank id := by
  induction hpath with
  | single hedge => exact h.falls _ _ hedge
  | tail hpath hedge ih =>
      have hlast := h.falls _ _ hedge
      omega

-- A job of least rank waits for nothing.
theorem Ranked.unblocked (h : Ranked m rank) {ids : Set JobId} (hne : ids.Nonempty)
    (hself : SelfContained m ids) : ∃ id ∈ ids, ∃ e, committedJob m id = some e ∧ DepsMet m e := by
  obtain ⟨id, hid, hleast⟩ := (measure rank).wf.has_min ids hne
  obtain ⟨e, he, -⟩ := hself.pending id hid
  refine ⟨id, hid, e, he, fun d hd => ?_⟩
  have hedge : DependsOn m id d := ⟨e, he, hd⟩
  rcases hself.deps id hid d hedge with hmem | hsucceeded
  · exact absurd (h.falls id d hedge) (hleast d hmem)
  · exact hsucceeded

theorem Ranked.wellFormed (h : Ranked m rank) : WellFormedGraph m where
  acyclic _ hcycle := Nat.lt_irrefl _ (h.falls_along hcycle)
  sameOwner := h.sameOwner
  nodup := h.nodup
  unblocked _ hne hself := h.unblocked hne hself

end Graph

-- A new job is put behind all that it depends on, the others stay where they are.
def extendRank (m m' : Db) (rank : JobId → Nat) (id : JobId) : Nat :=
  match committedJob m id, committedJob m' id with
  | none, some e => (e.dependsOn.map rank).sum + 1
  | _, _ => rank id

theorem extendRank_of_some {m m' : Db} {rank : JobId → Nat} {id : JobId} {e : JobEntry}
    (h : committedJob m id = some e) : extendRank m m' rank id = rank id := by
  simp [extendRank, h]

theorem extendRank_of_none {m m' : Db} {rank : JobId → Nat} {id : JobId} {e : JobEntry}
    (h : committedJob m id = none) (h' : committedJob m' id = some e) :
    extendRank m m' rank id = (e.dependsOn.map rank).sum + 1 := by
  simp [extendRank, h, h']

-- A committed job stays committed, its owner's and with its dependencies.
theorem stays_of_step (hm : Initial m) (h : Run cond m s) {ev : Event}
    (hstep : system.step s ev = some s') (hok : (spec cond).Permitted s ev s') {id : JobId}
    {e : JobEntry} (he : committedJob s.mem id = some e) :
    ∃ e', committedJob s'.mem id = some e' ∧ e'.job.ownerId = e.job.ownerId ∧
      e'.dependsOn = e.dependsOn := by
  cases Run.published hm h hstep hok id with
  | same heq => exact ⟨e, heq.trans he, rfl, rfl⟩
  | changed t c p op d d' hev ht hd hd' heff =>
      obtain rfl : d = e := Option.some.inj (hd.symm.trans he)
      exact ⟨d', hd', heff.applies.sameRow.ownerId, heff.applies.deps⟩
  | created t c p d hev ht hnone hd hnew =>
      rw [he] at hnone
      cases hnone

-- A committed job was committed before the step, or is new and depends on committed jobs of its
-- owner.
theorem came_of_step (hm : Initial m) (h : Run cond m s) {ev : Event}
    (hstep : system.step s ev = some s') (hok : (spec cond).Permitted s ev s') {id : JobId}
    {e' : JobEntry} (he' : committedJob s'.mem id = some e') :
    (∃ e, committedJob s.mem id = some e ∧ e'.job.ownerId = e.job.ownerId ∧
      e'.dependsOn = e.dependsOn) ∨
    committedJob s.mem id = none ∧ e'.dependsOn.Nodup ∧ ∀ d ∈ e'.dependsOn,
      ∃ dep, committedJob s.mem d = some dep ∧ dep.job.ownerId = e'.job.ownerId := by
  cases Run.published hm h hstep hok id with
  | same heq => exact .inl ⟨e', heq.symm.trans he', rfl, rfl⟩
  | changed t c p op d d' hev ht hd hd' heff =>
      obtain rfl : d' = e' := Option.some.inj (hd'.symm.trans he')
      exact .inl ⟨d, hd, heff.applies.sameRow.ownerId, heff.applies.deps⟩
  | created t c p d hev ht hnone hd hnew =>
      obtain rfl : d = e' := Option.some.inj (hd.symm.trans he')
      exact .inr ⟨hnone, hnew.nodup, hnew.deps⟩

theorem ranked_of_step (hm : Initial m) (h : Run cond m s) {ev : Event}
    (hstep : system.step s ev = some s') (hok : (spec cond).Permitted s ev s')
    {rank : JobId → Nat} (hrank : Ranked s.mem rank) :
    Ranked s'.mem (extendRank s.mem s'.mem rank) where
  falls id d := by
    rintro ⟨e', he', hd⟩
    rcases came_of_step hm h hstep hok he' with ⟨e, he, -, hdeps⟩ | ⟨hnone, -, hdeps⟩
    · rw [hdeps] at hd
      obtain ⟨dep, hdep, -⟩ := hrank.sameOwner id e he d hd
      rw [extendRank_of_some hdep, extendRank_of_some he]
      exact hrank.falls id d ⟨e, he, hd⟩
    · obtain ⟨dep, hdep, -⟩ := hdeps d hd
      rw [extendRank_of_some hdep, extendRank_of_none hnone he']
      have hle : rank d ≤ (e'.dependsOn.map rank).sum := List.le_sum_of_mem (List.mem_map_of_mem hd)
      omega
  sameOwner id e' he' d hd := by
    rcases came_of_step hm h hstep hok he' with ⟨e, he, howner, hdeps⟩ | ⟨-, -, hdeps⟩
    · rw [hdeps] at hd
      obtain ⟨dep, hdep, hsame⟩ := hrank.sameOwner id e he d hd
      obtain ⟨dep', hdep', hstays, -⟩ := stays_of_step hm h hstep hok hdep
      exact ⟨dep', hdep', by rw [hstays, hsame, howner]⟩
    · obtain ⟨dep, hdep, hsame⟩ := hdeps d hd
      obtain ⟨dep', hdep', hstays, -⟩ := stays_of_step hm h hstep hok hdep
      exact ⟨dep', hdep', hstays.trans hsame⟩
  nodup id e' he' := by
    rcases came_of_step hm h hstep hok he' with ⟨e, he, -, hdeps⟩ | ⟨-, hnodup, -⟩
    · rw [hdeps]
      exact hrank.nodup id e he
    · exact hnodup

theorem ranked_of_run (hm : Initial m) (h : Run cond m s) : ∃ rank, Ranked s.mem rank := by
  refine h.invariant (P := fun s => ∃ rank, Ranked s.mem rank) ⟨fun _ => 0, ?_⟩ ?_
  · have hnone : ∀ id, committedJob m id = none := fun id => by rw [committedJob, hm.job id]; rfl
    exact {
      falls := by
        rintro id d ⟨e, he, -⟩
        simp [Txn.Pool.init, hnone] at he
      sameOwner := fun id e he => by simp [Txn.Pool.init, hnone] at he
      nodup := fun id e he => by simp [Txn.Pool.init, hnone] at he }
  · rintro s ev s' hs ⟨rank, hrank⟩ hstep hok
    exact ⟨_, ranked_of_step hm hs hstep hok hrank⟩

-- In every execution the dependencies form a graph without cycles, each edge stored once and
-- between jobs of one owner, so no workflow blocks itself.
theorem workflow_graph_wellFormed (hm : Initial m) (h : system.Reachable m s) :
    WellFormedGraph s.mem := by
  obtain ⟨rank, hrank⟩ := ranked_of_run hm (run_of_reachable h)
  exact hrank.wellFormed

theorem workflow_graph_wellFormed_gated :
    (committedJob (stateAfter workflowEvents).mem 17).map JobEntry.dependsOn = some [7] ∧
      WellFormedGraph (stateAfter workflowEvents).mem :=
  ⟨by decide +kernel,
    workflow_graph_wellFormed exampleDb_initial (reachable_stateAfter workflowEvents)⟩

end Chronos
