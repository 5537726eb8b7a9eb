import Chronos.Refinement.NewJobs
import Chronos.Theorems.WorkflowGraph

namespace Chronos

open Txn (TxId Reaches)

variable {m m' : Db} {s s' : State} {t : TxId}

section Groups

-- The jobs are joined by dependency edges, each walked in either direction.
def Connected (m : Db) : JobId → JobId → Prop := Relation.EqvGen (DependsOn m)

-- workflow_id tells the workflows apart: two jobs of one have the same id, two jobs of different
-- ones have none in common.
structure WorkflowsGrouped (m : Db) : Prop where
  together : ∀ a b x y, a ≠ b → Connected m a b → committedJob m a = some x →
    committedJob m b = some y → ∃ w, x.job.workflowId = some w ∧ y.job.workflowId = some w
  apart : ∀ a b x y, ¬ Connected m a b → committedJob m a = some x → committedJob m b = some y →
    ∀ w, x.job.workflowId = some w → y.job.workflowId ≠ some w

-- No job waits for another.
def Edgeless (m : Db) : Prop := ∀ id e, committedJob m id = some e → e.dependsOn = []

def JobEntry.RootUnnamed (e : JobEntry) : Prop := e.dependsOn = [] → e.job.workflowId = none

def RootsUnnamed (m : Db) : Prop := ∀ id e, committedJob m id = some e → e.RootUnnamed

theorem Edgeless.eq_of_connected (h : Edgeless m) {a b : JobId} (hab : Connected m a b) : a = b := by
  induction hab with
  | rel a b hedge =>
      obtain ⟨e, he, hb⟩ := hedge
      rw [h a e he] at hb
      exact absurd hb List.not_mem_nil
  | refl a => rfl
  | symm a b _ ih => exact ih.symm
  | trans a b c _ _ ih₁ ih₂ => exact ih₁.trans ih₂

theorem Edgeless.grouped (h : Edgeless m) (hroots : RootsUnnamed m) : WorkflowsGrouped m where
  together a b x y hne hab := absurd (h.eq_of_connected hab) hne
  apart a b x y _ hx _ w hw := by
    rw [hroots a x hx (h a x hx)] at hw
    cases hw

-- Among the jobs that others wait for, one that came first is a root, and has no workflow_id.
theorem WorkflowsGrouped.edgeless {rank : JobId → Nat} (h : WorkflowsGrouped m)
    (hroots : RootsUnnamed m) (hrank : Ranked m rank) : Edgeless m := by
  intro id e he
  by_contra hdeps
  obtain ⟨d, hd⟩ := List.exists_mem_of_ne_nil _ hdeps
  have hne : { d | ∃ id, DependsOn m id d }.Nonempty := ⟨d, id, e, he, hd⟩
  obtain ⟨root, ⟨child, hedge⟩, hleast⟩ := (measure rank).wf.has_min _ hne
  have hfalls : rank root < rank child := hrank.falls child root hedge
  obtain ⟨x, hx, hmem⟩ := hedge
  obtain ⟨y, hy, -⟩ := hrank.sameOwner child x hx root hmem
  have hroot : y.dependsOn = [] := by
    by_contra hy'
    obtain ⟨d', hd'⟩ := List.exists_mem_of_ne_nil _ hy'
    have hbefore : DependsOn m root d' := ⟨y, hy, hd'⟩
    exact hleast d' ⟨root, hbefore⟩ (hrank.falls root d' hbefore)
  have hdiff : child ≠ root := by
    rintro rfl
    omega
  obtain ⟨w, -, hw⟩ := h.together child root x y hdiff (.rel _ _ ⟨x, hx, hmem⟩) hx hy
  rw [hroots root y hy hroot] at hw
  cases hw

theorem grouped_iff_edgeless {rank : JobId → Nat} (hroots : RootsUnnamed m)
    (hrank : Ranked m rank) : WorkflowsGrouped m ↔ Edgeless m :=
  ⟨fun h => h.edgeless hroots hrank, fun h => h.grouped hroots⟩

end Groups

section Runs

-- Upstream rows are never updated: no operation names a workflow.
theorem JobOp.Applies.workflowId {op : JobOp} {e e' : JobEntry} (h : op.Applies e e') :
    e'.job.workflowId = e.job.workflowId := by
  cases h with
  | finish c tx snapshot workerId o now e hrunning hlocked =>
      cases o with
      | failure error decision =>
          obtain ⟨retry, delay⟩ := decision
          cases retry <;> rfl
      | _ => rfl
  | reclaim rng now decision e hrunning hdecision =>
      obtain ⟨retry, delay⟩ := decision
      cases retry <;> rfl
  | _ => rfl

-- What holds of every requested job, and speaks of its dependencies and its workflow only.
theorem rows_of_reachable (hm : Initial m) {ok : State → Event → State → Prop} {R : JobEntry → Prop}
    (hnew : ∀ s t user data ids p e, Reaches system.step ok (Txn.Pool.init m) s →
      s.thread t = some ⟨.enqueue user data ids, some p⟩ → e.Requested data → R e)
    (hsame : ∀ e e' : JobEntry, e'.dependsOn = e.dependsOn → e'.job.workflowId = e.job.workflowId →
      R e → R e')
    (h : Reaches system.step ok (Txn.Pool.init m) s) :
    ∀ id e, committedJob s.mem id = some e → R e := by
  refine h.invariant (P := fun s => ∀ id e, committedJob s.mem id = some e → R e) ?_ ?_
  · intro id e he
    rw [committedJob, Txn.Pool.init, hm.job id] at he
    cases he
  · intro s ev s' hs hR hstep _ id e' he'
    have hreach : system.Reachable m s := hs.mono fun _ _ _ _ => trivial
    cases Run.published hm (run_of_reachable hreach) hstep (permitted_none s ev s') id with
    | same heq => exact hR id e' (heq.symm.trans he')
    | changed t c p op e d hev ht he hd heff =>
        obtain rfl : d = e' := Option.some.inj (hd.symm.trans he')
        exact hsame e d heff.applies.deps heff.applies.workflowId (hR id e he)
    | created t c p d hev ht hnone hd hnew' =>
        obtain ⟨t, user, data, ids, p, -, ht, hreq⟩ :=
          requested_of_created hm hreach hstep hnone he'
        exact hnew s t user data ids p e' hs ht hreq

theorem rootsUnnamed_of_reachable (hm : Initial m) (h : system.Reachable m s) :
    RootsUnnamed s.mem := by
  refine rows_of_reachable hm (R := JobEntry.RootUnnamed) ?_ ?_ h
  · intro s t user data ids p e _ _ hreq
    obtain ⟨id, ownerId, queue, w, now, hjob, hw⟩ := hreq.job
    intro hnone
    rw [hjob]
    exact hw (hreq.deps.symm.trans hnone)
  · intro e e' hdeps hw hroot hnone
    rw [hw]
    exact hroot (hdeps.symm.trans hnone)

-- An enqueue call without depends_on.
def NamesNoUpstream (ev : Event) : Prop :=
  ∀ t user data ids, ev = .start t (.enqueue user data ids) → data.dependsOn = []

theorem noUpstream_of_thread
    (h : Reaches system.step (fun _ ev _ => NamesNoUpstream ev) (Txn.Pool.init m) s)
    {user : SessionUser} {data : JobCreate} {ids : FreshIds} {rest : Option (Tx Value)}
    (ht : s.thread t = some ⟨.enqueue user data ids, rest⟩) : data.dependsOn = [] := by
  induction h generalizing rest with
  | refl => cases ht
  | tail hs he hok ih =>
      cases (Txn.System.steps_of_step he).thread t with
      | same heq => exact ih (heq ▸ ht)
      | started c hev hfresh hmay hthread =>
          obtain ⟨rfl, -⟩ := Txn.Thread.mk.inj (Option.some.inj (hthread.symm.trans ht))
          exact hok t user data ids hev
      | advanced c st next r hbefore hthread =>
          obtain ⟨rfl, -⟩ := Txn.Thread.mk.inj (Option.some.inj (hthread.symm.trans ht))
          exact ih hbefore
      | cutOff c st next hev hbefore hthread =>
          obtain ⟨rfl, -⟩ := Txn.Thread.mk.inj (Option.some.inj (hthread.symm.trans ht))
          exact ih hbefore

theorem edgeless_of_noUpstream (hm : Initial m)
    (h : Reaches system.step (fun _ ev _ => NamesNoUpstream ev) (Txn.Pool.init m) s) :
    Edgeless s.mem := by
  refine rows_of_reachable hm (R := fun e => e.dependsOn = []) ?_ ?_ h
  · intro s t user data ids p e hs ht hreq
    exact hreq.deps.trans (noUpstream_of_thread hs ht)
  · intro e e' hdeps _ hnone
    exact hdeps.trans hnone

end Runs

-- As long as no call names an upstream job, workflow_id groups the workflows. It stops to do so
-- with the first edge: a workflow has a root, and the root is inserted with NULL.
theorem workflow_ids_by_edges (hm : Initial m) :
    (∀ s, Reaches system.step (fun _ ev _ => NamesNoUpstream ev) (Txn.Pool.init m) s →
      WorkflowsGrouped s.mem) ∧
    ∀ s, system.Reachable m s → (WorkflowsGrouped s.mem ↔ Edgeless s.mem) := by
  have hiff : ∀ s, system.Reachable m s → (WorkflowsGrouped s.mem ↔ Edgeless s.mem) := by
    intro s h
    obtain ⟨rank, hrank⟩ := ranked_of_run hm (run_of_reachable h)
    exact grouped_iff_edgeless (rootsUnnamed_of_reachable hm h) hrank
  refine ⟨fun s h => ?_, hiff⟩
  exact (hiff s (h.mono fun _ _ _ _ => trivial)).mpr (edgeless_of_noUpstream hm h)

theorem workflow_ids_by_edges_root :
    (committedJob (stateAfter createdEvents).mem 7).map JobEntry.dependsOn = some [] ∧
    (WorkflowsGrouped (stateAfter createdEvents).mem ↔ Edgeless (stateAfter createdEvents).mem) :=
  ⟨by decide +kernel,
    (workflow_ids_by_edges exampleDb_initial).2 _ (reachable_stateAfter createdEvents)⟩

-- Two jobs are enqueued behind job 7.
def fanOutEvents : List Event :=
  createdEvents ++ whole 2 (.enqueue exampleUser (exampleBody none [7]) ⟨17, 80, 9⟩) 8 ++
  whole 3 (.enqueue exampleUser (exampleBody none [7]) ⟨27, 80, 10⟩) 8

-- Each draws an id of its own, since job 7 has none to inherit.
theorem fan_out_splits_workflow :
    ¬ ∀ m s, Initial m → system.Reachable m s → WorkflowsGrouped s.mem := by
  intro h
  have hgrouped := h exampleDb _ exampleDb_initial (reachable_stateAfter fanOutEvents)
  have h17 : (committedJob (stateAfter fanOutEvents).mem 17).map
      (fun e => (e.dependsOn, e.job.workflowId)) = some ([7], some 9) := by decide +kernel
  have h27 : (committedJob (stateAfter fanOutEvents).mem 27).map
      (fun e => (e.dependsOn, e.job.workflowId)) = some ([7], some 10) := by decide +kernel
  obtain ⟨x, hx, heqx⟩ := Option.map_eq_some_iff.mp h17
  obtain ⟨y, hy, heqy⟩ := Option.map_eq_some_iff.mp h27
  obtain ⟨hdepsx, hidx⟩ := Prod.mk.inj heqx
  obtain ⟨hdepsy, hidy⟩ := Prod.mk.inj heqy
  have hedgex : DependsOn (stateAfter fanOutEvents).mem 17 7 := ⟨x, hx, by rw [hdepsx]; exact .head _⟩
  have hedgey : DependsOn (stateAfter fanOutEvents).mem 27 7 := ⟨y, hy, by rw [hdepsy]; exact .head _⟩
  have hconn : Connected (stateAfter fanOutEvents).mem 17 27 :=
    .trans _ _ _ (.rel _ _ hedgex) (.symm _ _ (.rel _ _ hedgey))
  obtain ⟨w, hwx, hwy⟩ := hgrouped.together 17 27 x y (by decide) hconn hx hy
  rw [hidx, Option.some.injEq] at hwx
  rw [hidy, Option.some.injEq] at hwy
  omega

end Chronos
