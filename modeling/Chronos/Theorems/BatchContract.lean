import Chronos.Refinement.BatchErrors
import Chronos.Refinement.Checks
import Chronos.Theorems.BatchAtomicity

namespace Chronos

open Txn (TxId Runs Sees Settled Execs stmt)
open JobService

variable {t : TxId} {user : SessionUser} {items : List BatchItem} {batchId : Nat}
  {v₀ : Snapshot} {now : Time} {m : Db}

-- What a batch comes to when nobody else is at work.
inductive BatchResult (t : TxId) (user : SessionUser) (v₀ : Snapshot) (batchId : Nat) (now : Time)
    (items : List BatchItem) : Except PyError (Nat × List Job) → Db → Prop
  | created (jobs : List Job) (w : Snapshot) (m : Db) (hm : Settled w now m)
      (hclean : ¬ HasCollision v₀ user.id items)
      (hjobs : List.Forall₂ (JobFor user v₀ batchId now items) items jobs)
      (hrows : ∀ d ∈ items, ∃ job, JobFor user v₀ batchId now items d job ∧
        w.job d.jobId = some (newRow t job [])) :
      BatchResult t user v₀ batchId now items (.ok (batchId, jobs)) m
  | conflict (m : Db) (hcollision : HasCollision v₀ user.id items)
      (hlate : ¬ LateLookup v₀ user.id items) :
      BatchResult t user v₀ batchId now items (.error batchConflict) m
  | integrity (m : Db) (hlate : LateLookup v₀ user.id items) :
      BatchResult t user v₀ batchId now items (.error .integrity) m

theorem runs_enqueueBatch (hok : Acceptable user v₀ items)
    (hstored : ∀ item ∈ items, Stored item) :
    Runs t (Settled v₀ now) (enqueueBatch t user items batchId)
      (BatchResult t user v₀ batchId now items) := by
  suffices hsees : Runs t (Sees t v₀ now) (enqueueBatch t user items batchId)
      (BatchResult t user v₀ batchId now items) from hsees.pre fun m h => h.sees t
  refine .bind .begin fun now' => .given fun hnow => ?_
  subst hnow
  refine .bind (runs_stageItems hok hstored items .start rfl) fun r => ?_
  intro m h
  cases h with
  | staged jobs w m hsees hclean hjobs hrows =>
      have hend := hsees.commit
      refine ⟨.ok (batchId, jobs), m.commit t, ?_, .created jobs w _ hend hclean hjobs hrows⟩
      simp [Txn.Prog.run, stmt, Txn.exec, hend.rollback_eq t]
  | conflict w m hsees hcollision hlate =>
      exact ⟨_, m.rollback t, rfl, .conflict _ hcollision hlate⟩
  | integrity w m hsees hlate => exact ⟨_, m.rollback t, rfl, .integrity _ hlate⟩

theorem LateLookup.hasCollision (h : LateLookup v₀ user.id items) :
    HasCollision v₀ user.id items := by
  obtain ⟨before, item, between, late, after, heq, hcollides, -⟩ := h
  exact ⟨before, item, between ++ late :: after, heq, hcollides⟩

-- The error of a batch that has nothing but keys in its way, with others at work.
theorem execs_batchError {steps : List (Db × Db)} {m' : Db} {err : PyError}
    (honly : OnlyKeys t user items steps)
    (h : Execs t (enqueueBatch t user items batchId) m steps (some (.error err)) m') :
    Explains t user batchId steps items err := by
  rcases h.of_bind with ⟨hnone, -⟩ | ⟨now, m₁, steps₁, rest, rfl, -, h⟩
  · cases hnone
  rcases h.of_bind with ⟨hnone, -⟩ | ⟨r, m₂, steps₂, steps₃, rfl, hstage, h⟩
  · cases hnone
  have hsub : steps₂.Sublist (steps₁ ++ (steps₂ ++ steps₃)) :=
    (List.sublist_append_left _ _).trans (List.sublist_append_right _ _)
  cases r with
  | ok jobs =>
      rcases h.of_bind with ⟨hnone, -⟩ | ⟨-, m₃, steps₄, rest, -, -, h⟩
      · cases hnone
      rcases h.of_bind with ⟨hnone, -⟩ | ⟨-, m₄, steps₅, rest, -, -, h⟩
      · cases hnone
      cases h
  | error err' =>
      rcases h.of_bind with ⟨hnone, -⟩ | ⟨-, m₃, steps₄, rest, -, -, h⟩
      · cases hnone
      obtain rfl : err' = err := by
        cases h
        rfl
      have hexplains := execs_stageItems hstage (honly.sublist (List.Subset.refl _) hsub) .start
      exact hexplains.mono hsub.subset

-- Batches are all or nothing in every execution. With nothing but colliding keys in its way, a
-- batch raises ConflictError exactly if no item behind a colliding one is the first to name its
-- project and queue; with others at work, the colliding one is the item whose INSERT is refused.
theorem batch_contract (t : TxId) (user : SessionUser) (items : List BatchItem) (batchId : Nat) :
    (∀ m steps out m', m.WF → m.mine t = (fun _ => none) →
      Execs t (enqueueBatch t user items batchId) m steps out m' →
      AllOrNothing t user items batchId steps out m') ∧
    (∀ v₀ now m, Settled v₀ now m → Acceptable user v₀ items → (∀ item ∈ items, Stored item) →
      ∃ r m', (enqueueBatch t user items batchId).run t m = some (r, m') ∧
        (r.isOk = true ↔ ¬ HasCollision v₀ user.id items) ∧
        (HasCollision v₀ user.id items →
          (r = .error batchConflict ↔ ¬ LateLookup v₀ user.id items))) ∧
    ∀ m steps err m', OnlyKeys t user items steps →
      Execs t (enqueueBatch t user items batchId) m steps (some (.error err)) m' →
      Explains t user batchId steps items err := by
  refine ⟨fun m steps out m' => execs_enqueueBatch, fun v₀ now m hm hok hstored => ?_,
    fun m steps err m' => execs_batchError⟩
  have hruns : Runs t (Settled v₀ now) (enqueueBatch t user items batchId)
      (BatchResult t user v₀ batchId now items) := runs_enqueueBatch hok hstored
  obtain ⟨r, m', hrun, hresult⟩ := hruns m hm
  refine ⟨r, m', hrun, ?_⟩
  cases hresult with
  | created jobs w m' hw hclean hjobs hrows =>
      exact ⟨by simpa [Except.isOk, Except.toBool] using hclean, fun h => absurd h hclean⟩
  | conflict m' hcollision hlate =>
      refine ⟨?_, fun _ => by simpa using hlate⟩
      simpa [Except.isOk, Except.toBool] using hcollision
  | integrity m' hlate =>
      refine ⟨?_, fun _ => ?_⟩
      · simpa [Except.isOk, Except.toBool] using hlate.hasCollision
      · simpa [batchConflict] using hlate

def exampleItem (key : Option String) (queue : String) (n : Nat) : BatchItem :=
  ⟨{ exampleBody key [] with queue := queue }, n, n⟩

-- The key repeats in the last two items.
def collidingItems : List BatchItem :=
  [exampleItem none "default" 1, exampleItem (some "order-1") "default" 2,
    exampleItem (some "order-1") "default" 3]

theorem collidingItems_acceptable :
    Acceptable exampleUser (committedView exampleDb) collidingItems where
  projects := by decide +kernel
  bodies := by decide +kernel
  queues id q h := by cases h
  freshJobs := by decide +kernel
  freshQueues := by decide +kernel
  distinctJobs := by decide +kernel
  distinctQueues := by decide +kernel

theorem collidingItems_stored : ∀ item ∈ collidingItems, Stored item := by
  decide +kernel

-- The statements that the batch makes when nobody else is at work.
def collidingSteps : List (Db × Db) :=
  (enqueueBatch 1 exampleUser collidingItems 9).trace 1 exampleDb

theorem collidingSteps_onlyKeys : OnlyKeys 1 exampleUser collidingItems collidingSteps where
  bodies := by decide +kernel
  stored := collidingItems_stored
  projects := by decide +kernel
  queues := by decide +kernel
  kept := by decide +kernel

theorem collidingItems_conflict : ∃ m',
    (enqueueBatch 1 exampleUser collidingItems 9).run 1 exampleDb =
      some (.error batchConflict, m') :=
  ⟨_, rfl⟩

theorem batch_contract_colliding :
    (∃ r m', (enqueueBatch 1 exampleUser collidingItems 9).run 1 exampleDb = some (r, m') ∧
      (r.isOk = true ↔ ¬ HasCollision (committedView exampleDb) 0 collidingItems) ∧
      (HasCollision (committedView exampleDb) 0 collidingItems →
        (r = .error batchConflict ↔ ¬ LateLookup (committedView exampleDb) 0 collidingItems))) ∧
    ∃ before d after, collidingItems = before ++ d :: after ∧
      Refused 1 exampleUser 9 collidingSteps d ∧ ¬ FirstBehind before d after := by
  constructor
  · exact (batch_contract 1 exampleUser collidingItems 9).2.1 _ _ _
      (settled_committedView exampleDb_initial.wf exampleDb_initial.unlocked)
      collidingItems_acceptable collidingItems_stored
  · obtain ⟨m', hrun⟩ := collidingItems_conflict
    obtain ⟨before, d, after, heq, hrefused, ⟨-, hlast⟩ | ⟨herr, -⟩⟩ :=
      (batch_contract 1 exampleUser collidingItems 9).2.2 _ _ _ m' collidingSteps_onlyKeys
        (.of_run exampleDb_initial.wf hrun)
    · exact ⟨before, d, after, heq, hrefused, hlast⟩
    · cases herr

-- An item for another queue behind them: the lookup of the queue meets the collision.
theorem late_lookup_raises_integrity :
    ((enqueueBatch 1 exampleUser (collidingItems ++ [exampleItem none "reports" 4]) 9).run 1
        exampleDb).map (fun r => match r.1 with
          | .ok _ => none
          | .error err => some err) = some (some .integrity) ∧
      PyError.integrity ≠ batchConflict := by
  decide +kernel

end Chronos
