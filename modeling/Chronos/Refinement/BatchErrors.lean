import Chronos.Refinement.StageItems
import Chronos.Txn.Traces

namespace Chronos

open Txn (TxId Execs exec)
open JobService

variable {t : TxId} {user : SessionUser} {batchId : Nat} {now : Time} {m m' : Db}
  {steps : List (Db × Db)} {items done pending : List BatchItem} {item d : BatchItem}
  {staged : List Job} {cache : List ((Option ProjectId × String) × Queue)} {err : PyError}

def queueRows (v : Snapshot) : List Queue :=
  v.queueIds.filterMap fun id => v.queue id

-- An execution of enqueue_batch in which nothing is in the way but idempotency keys: at every
-- statement the projects are there, the queues are within their CHECKs, and a queue's name that was
-- taken before still is.
structure OnlyKeys (t : TxId) (user : SessionUser) (items : List BatchItem)
    (steps : List (Db × Db)) : Prop where
  bodies : ∀ item ∈ items, item.data.accepted = true
  stored : ∀ item ∈ items, Stored item
  projects : ∀ s ∈ steps, ∀ item ∈ items, projectFor user item.data.projectId (s.1.view t) ≠ none
  queues : ∀ s ∈ steps, ∀ q ∈ queueRows (s.1.view t), q.checks = true
  kept : steps.Pairwise fun s s' => ∀ q ∈ queueRows (s.1.view t),
    ∃ q' ∈ queueRows (s'.1.view t), q'.projectId = q.projectId ∧ q'.name = q.name

-- The execution comes to the INSERT of the item's job, and the unique index refuses it.
def Refused (t : TxId) (user : SessionUser) (batchId : Nat) (steps : List (Db × Db))
    (item : BatchItem) : Prop :=
  ∃ s ∈ steps, ∃ q now, exec t (.insert (Key.job item.jobId)
    (newRow t (item.job user.id q batchId now) [])
    (uqJobsOwnerIdempotency (item.job user.id q batchId now))) s.1 = some (false, s.2)

-- An item of `after` is the first to name its project and queue.
def FirstBehind (before : List BatchItem) (d : BatchItem) (after : List BatchItem) : Prop :=
  ∃ between late rest, after = between ++ late :: rest ∧
    late.target ∉ (before ++ d :: between).map BatchItem.target

-- What the error of a batch says: the job of which item has been refused, and whether a new project
-- and queue are named behind it.
def Explains (t : TxId) (user : SessionUser) (batchId : Nat) (steps : List (Db × Db))
    (items : List BatchItem) (err : PyError) : Prop :=
  ∃ before d after, items = before ++ d :: after ∧ Refused t user batchId steps d ∧
    (err = batchConflict ∧ ¬ FirstBehind before d after ∨
      err = .integrity ∧ FirstBehind before d after)

theorem Refused.mono {steps' : List (Db × Db)} (h : Refused t user batchId steps item)
    (hsub : steps ⊆ steps') : Refused t user batchId steps' item := by
  obtain ⟨s, hs, hrest⟩ := h
  exact ⟨s, hsub hs, hrest⟩

theorem Explains.mono {steps' : List (Db × Db)} (h : Explains t user batchId steps items err)
    (hsub : steps ⊆ steps') : Explains t user batchId steps' items err := by
  obtain ⟨before, d, after, heq, hrefused, herr⟩ := h
  exact ⟨before, d, after, heq, hrefused.mono hsub, herr⟩

theorem OnlyKeys.sublist {items' : List BatchItem} {steps' : List (Db × Db)}
    (h : OnlyKeys t user items steps) (hitems : items' ⊆ items) (hsteps : steps'.Sublist steps) :
    OnlyKeys t user items' steps' where
  bodies item hitem := h.bodies item (hitems hitem)
  stored item hitem := h.stored item (hitems hitem)
  projects s hs item hitem := h.projects s (hsteps.subset hs) item (hitems hitem)
  queues s hs := h.queues s (hsteps.subset hs)
  kept := h.kept.sublist hsteps

theorem mem_of_getByName {v : Snapshot} {projectId : ProjectId} {name : String} {q : Queue}
    (h : QueueRepository.getByName projectId name v = some q) : q ∈ queueRows v :=
  List.mem_of_find?_eq_some h

theorem getByName_of_mem {v : Snapshot} {q : Queue} (h : q ∈ queueRows v) :
    ∃ q', QueueRepository.getByName q.projectId q.name v = some q' := by
  rw [← Option.ne_none_iff_exists']
  intro hnone
  have hall := List.find?_eq_none.mp hnone q h
  simp at hall

-- An insert that the index refuses has met a queue of the same name.
theorem exists_of_clash {q : Queue} (h : Txn.insertClashes t (uqQueuesProjectName q) m = true) :
    ∃ q' ∈ queueRows (m.view t), q'.projectId = q.projectId ∧ q'.name = q.name := by
  obtain ⟨k, hk, hany⟩ := List.any_eq_true.mp h
  obtain ⟨row, hrow, hclash⟩ := (Option.any_eq_true _ _).mp hany
  cases k with
  | queue id =>
      simp only [uqQueuesProjectName, decide_eq_true_eq] at hclash
      exact ⟨row, List.mem_filterMap.mpr ⟨id, List.mem_filterMap.mpr ⟨_, hk, rfl⟩, hrow⟩, hclash⟩
  | _ => simp [uqQueuesProjectName] at hclash

section Executions

theorem execs_resolveProject {projectId : Option ProjectId} {r : Except PyError Project}
    (h : Execs t (resolveProject user projectId) m steps (some r) m')
    (hprojects : ∀ s ∈ steps, projectFor user projectId (s.1.view t) ≠ none) :
    ∃ project, r = .ok project := by
  unfold resolveProject at h
  -- The lookup by id and the one of the oldest project differ in their SELECT only.
  cases projectId
  all_goals
    obtain ⟨found, m₁, m₂, rest, rfl, -, hexec, h⟩ := h.of_op rfl
    obtain ⟨rfl, rfl⟩ := Prod.mk.inj (Option.some.inj hexec)
    obtain ⟨project, hproject⟩ := Option.ne_none_iff_exists'.mp (hprojects _ List.mem_cons_self)
    simp only [projectFor] at hproject
    rw [hproject] at h
    cases h
    exact ⟨project, rfl⟩

-- The race for the first use of a name is lost only to a queue that is found afterwards.
theorem execs_resolveQueue {id : QueueId} {project : Project} {name : String}
    {r : Except PyError Queue} (h : Execs t (resolveQueue id project name) m steps (some r) m')
    (hstored : storableText name = true)
    (hqueues : ∀ s ∈ steps, ∀ q ∈ queueRows (s.1.view t), q.checks = true)
    (hkept : steps.Pairwise fun s s' => ∀ q ∈ queueRows (s.1.view t),
      ∃ q' ∈ queueRows (s'.1.view t), q'.projectId = q.projectId ∧ q'.name = q.name) :
    ∃ q, r = .ok q ∧ q.checks = true := by
  rw [resolveQueue, if_pos hstored] at h
  obtain ⟨found, m₁, m₁', rest, rfl, -, hexec, h⟩ := h.of_op rfl
  obtain ⟨rfl, rfl⟩ := Prod.mk.inj (Option.some.inj hexec)
  cases hfound : QueueRepository.getByName project.id name (m₁.view t) with
  | some q =>
      rw [hfound] at h
      cases h
      exact ⟨q, rfl, hqueues _ List.mem_cons_self q (mem_of_getByName hfound)⟩
  | none =>
      rw [hfound] at h
      obtain ⟨inserted, m₂, m₂', rest, rfl, -, hexec, h⟩ := h.of_op rfl
      obtain ⟨-, ⟨rfl, -, hclash⟩ | ⟨rfl, -⟩⟩ := Txn.exec_insert hexec
      · obtain ⟨again, m₃, m₃', rest, rfl, -, hexec, h⟩ := h.of_op rfl
        obtain ⟨rfl, rfl⟩ := Prod.mk.inj (Option.some.inj hexec)
        have hmem : (m₃, m₃) ∈ (m₁, m₁) :: (m₂, m₂') :: (m₃, m₃) :: rest := by simp
        have hfrom := (List.pairwise_cons.mp hkept).2
        have hlater := (List.pairwise_cons.mp hfrom).1 _ List.mem_cons_self
        obtain ⟨winner, hwinner, hproject, hname⟩ := exists_of_clash hclash
        obtain ⟨there, hthere, hproject', hname'⟩ := hlater winner hwinner
        obtain ⟨q, hq⟩ := getByName_of_mem hthere
        rw [hproject', hname', hproject, hname] at hq
        change QueueRepository.getByName project.id name (m₃.view t) = some q at hq
        rw [hq] at h
        cases h
        exact ⟨q, rfl, hqueues _ hmem q (mem_of_getByName hq)⟩
      · cases h
        exact ⟨_, rfl, Queue.fresh_checks ..⟩

theorem execs_resolveTarget {r : Except PyError Queue}
    (h : Execs t (resolveTarget user item) m steps (some r) m')
    (honly : OnlyKeys t user [item] steps) : ∃ q, r = .ok q ∧ q.checks = true := by
  rcases h.of_bind with ⟨hnone, -⟩ | ⟨found, m₁, steps₁, steps₂, rfl, hproject, h⟩
  · cases hnone
  · have hmem : item ∈ [item] := List.mem_singleton_self item
    obtain ⟨project, rfl⟩ := execs_resolveProject hproject fun s hs =>
      honly.projects s (List.mem_append_left _ hs) item hmem
    exact execs_resolveQueue h (honly.stored item hmem).2
      (fun s hs => honly.queues s (List.mem_append_right _ hs))
      (honly.kept.sublist (List.sublist_append_right _ _))

-- The job staged for an item.
def StagedFor (user : SessionUser) (batchId : Nat) (now : Time) (item : BatchItem) (job : Job) :
    Prop :=
  ∃ q, q.checks = true ∧ job = item.job user.id q batchId now

-- A flush fails at the job of one of its items.
theorem execs_flush {staged : List Job}
    (h : Execs t (flush t staged) m steps (some false) m')
    (hstaged : List.Forall₂ (StagedFor user batchId now) pending staged)
    (hbodies : ∀ item ∈ pending, item.data.accepted = true) :
    ∃ before d after, pending = before ++ d :: after ∧ Refused t user batchId steps d := by
  induction hstaged generalizing m steps with
  | nil => cases h
  | @cons item job pending staged hfor hstaged ih =>
      obtain ⟨q, hq, rfl⟩ := hfor
      have hchecks : (item.job user.id q batchId now).checks = true :=
        buildJob_checks item.jobId user.id none now (hbodies item List.mem_cons_self) hq
      rw [flush, if_pos hchecks] at h
      obtain ⟨inserted, m₁, m₂, rest, rfl, -, hexec, h⟩ := h.of_op rfl
      cases inserted with
      | false => exact ⟨[], item, pending, rfl, (m₁, m₂), List.mem_cons_self, q, now, hexec⟩
      | true =>
          obtain ⟨before, d, after, rfl, hrefused⟩ :=
            ih h fun item hitem => hbodies item (List.mem_cons_of_mem _ hitem)
          exact ⟨item :: before, d, after, rfl, hrefused.mono (List.subset_cons_self _ _)⟩

end Executions

section Loop

-- How far the loop of enqueue_batch has come: the jobs of `done` are inserted, those of `pending`
-- are staged.
structure Come (user : SessionUser) (batchId : Nat) (now : Time) (done pending : List BatchItem)
    (cache : List ((Option ProjectId × String) × Queue)) (staged : List Job) : Prop where
  staged : List.Forall₂ (StagedFor user batchId now) pending staged
  bodies : ∀ item ∈ pending, item.data.accepted = true
  targets : ∀ target, cache.lookup target = none ↔
    target ∉ (done ++ pending).map BatchItem.target
  cached : ∀ target q, cache.lookup target = some q → q.checks = true
  tail : ∀ before d after, pending = before ++ d :: after → before ≠ [] →
    d.target ∈ (done ++ before).map BatchItem.target

theorem Come.start : Come user batchId now [] [] [] [] where
  staged := .nil
  bodies item h := by cases h
  targets target := by simp
  cached target q h := by cases h
  tail before d after h := by simp at h

theorem Come.stage {q : Queue} (h : Come user batchId now done pending cache staged)
    (hq : cache.lookup item.target = some q) (hbody : item.data.accepted = true) :
    Come user batchId now done (pending ++ [item]) cache
      (staged ++ [item.job user.id q batchId now]) where
  staged := List.rel_append h.staged (.cons ⟨q, h.cached _ _ hq, rfl⟩ .nil)
  bodies d hd := by
    rcases List.mem_append.mp hd with hd | hd
    · exact h.bodies d hd
    · exact List.mem_singleton.mp hd ▸ hbody
  targets target := by
    have hseen : item.target ∈ (done ++ pending).map BatchItem.target := by
      by_contra hnot
      rw [(h.targets item.target).mpr hnot] at hq
      cases hq
    have hlonger : target ∈ (done ++ (pending ++ [item])).map BatchItem.target ↔
        target ∈ (done ++ pending).map BatchItem.target ∨ target = item.target := by
      simp [or_assoc, eq_comm]
    rw [h.targets target, hlonger, not_or, iff_self_and]
    rintro hnot rfl
    exact hnot hseen
  cached := h.cached
  tail before d after heq hne := by
    rcases split_append heq with ⟨mid, hold⟩ | ⟨mid, rfl, hlast⟩
    · exact h.tail before d mid hold hne
    · cases mid with
      | nil =>
          obtain ⟨rfl, -⟩ := List.cons.inj hlast
          by_contra hnot
          rw [List.append_nil] at hnot
          rw [(h.targets item.target).mpr hnot] at hq
          cases hq
      | cons first mid => simp at hlast

theorem Come.first {q : Queue} (h : Come user batchId now done pending cache staged)
    (hq : q.checks = true) (hbody : item.data.accepted = true) :
    Come user batchId now (done ++ pending) [item] ((item.target, q) :: cache)
      [item.job user.id q batchId now] where
  staged := .cons ⟨q, hq, rfl⟩ .nil
  bodies d hd := List.mem_singleton.mp hd ▸ hbody
  targets target := by
    rw [List.lookup_cons, List.map_append, List.mem_append, not_or, ← h.targets target]
    split
    · rename_i heq
      simp [eq_of_beq heq]
    · rename_i hne
      have hother : target ≠ item.target := fun heq => by simp [heq] at hne
      simp [hother]
  cached target q' hq' := by
    rw [List.lookup_cons] at hq'
    split at hq'
    · exact Option.some.inj hq' ▸ hq
    · exact h.cached target q' hq'
  tail before d after heq hne := by
    cases before with
    | nil => exact absurd rfl hne
    | cons first before => simp at heq

-- The job that fails the flush for a new project and queue: the item that names them is behind it.
theorem FirstBehind.of_new {before between rest : List BatchItem}
    (h : cache.lookup item.target = none)
    (hcome : Come user batchId now done (before ++ d :: between) cache staged) :
    FirstBehind (done ++ before) d (between ++ item :: rest) := by
  refine ⟨between, item, rest, rfl, ?_⟩
  rw [List.append_assoc]
  exact (hcome.targets item.target).mp h

-- No item behind a staged one is the first to name its project and queue.
theorem Come.not_firstBehind {before after : List BatchItem}
    (h : Come user batchId now done (before ++ d :: after) cache staged) :
    ¬ FirstBehind (done ++ before) d after := by
  rintro ⟨between, late, rest, rfl, hnot⟩
  refine hnot ?_
  have htail := h.tail (before ++ d :: between) late rest (by simp) (by simp)
  rwa [← List.append_assoc] at htail

-- The flush at the end of the batch fails.
theorem Come.explains_last (h : Come user batchId now done pending cache staged)
    (hflush : Execs t (flush t staged) m steps (some false) m') :
    Explains t user batchId steps (done ++ pending) batchConflict := by
  obtain ⟨before, d, after, rfl, hrefused⟩ := execs_flush hflush h.staged h.bodies
  exact ⟨done ++ before, d, after, by simp, hrefused, .inl ⟨rfl, h.not_firstBehind⟩⟩

-- The flush for the lookup of a project and queue that are new to the batch fails.
theorem Come.explains_new (h : Come user batchId now done pending cache staged)
    (hnew : cache.lookup item.target = none)
    (hflush : Execs t (flush t staged) m steps (some false) m') :
    Explains t user batchId steps (done ++ (pending ++ item :: items)) .integrity := by
  obtain ⟨before, d, between, rfl, hrefused⟩ := execs_flush hflush h.staged h.bodies
  exact ⟨done ++ before, d, between ++ item :: items, by simp, hrefused,
    .inr ⟨rfl, .of_new hnew h⟩⟩

-- The error of the loop, by induction on the items that are left.
theorem execs_stageItems (h : Execs t (stageItems t user batchId now items cache staged true) m
      steps (some (.error err)) m')
    (honly : OnlyKeys t user items steps)
    (hcome : Come user batchId now done pending cache staged) :
    Explains t user batchId steps (done ++ (pending ++ items)) err := by
  induction items generalizing m steps done pending cache staged with
  | nil =>
      rw [stageItems, if_pos rfl] at h
      rcases h.of_bind with ⟨hnone, -⟩ | ⟨ok, m₁, steps₁, steps₂, rfl, hflush, h⟩
      · cases hnone
      cases ok with
      | true => cases h
      | false =>
          cases h
          rw [List.append_nil, List.append_nil]
          exact hcome.explains_last hflush
  | cons item items ih =>
      have hbody : item.data.accepted = true := honly.bodies item List.mem_cons_self
      have hstored := honly.stored item List.mem_cons_self
      rw [stageItems] at h
      cases hq : cache.lookup item.target with
      | some q =>
          rw [hq] at h
          simp only [hstored.1, Bool.and_self] at h
          rcases h.of_bind with ⟨hnone, -⟩ | ⟨r, m₁, steps₁, steps₂, rfl, hrest, h⟩
          · cases hnone
          cases r with
          | ok jobs => cases h
          | error err' =>
              cases h
              have hmore := ih hrest (honly.sublist (List.subset_cons_self _ _)
                (List.sublist_append_left _ _)) (hcome.stage hq hbody)
              rw [List.append_assoc] at hmore
              exact hmore.mono (List.subset_append_left _ _)
      | none =>
          rw [hq] at h
          simp only [if_true] at h
          rcases h.of_bind with ⟨hnone, -⟩ | ⟨ok, m₁, steps₁, steps₂, rfl, hflush, h⟩
          · cases hnone
          cases ok with
          | false =>
              cases h
              exact (hcome.explains_new hq hflush).mono (List.subset_append_left _ _)
          | true =>
              rcases h.of_bind with ⟨hnone, -⟩ | ⟨r, m₂, steps₃, steps₄, rfl, htarget, h⟩
              · cases hnone
              obtain ⟨q, rfl, hqueue⟩ := execs_resolveTarget htarget (honly.sublist (by simp)
                ((List.sublist_append_left _ _).trans (List.sublist_append_right _ _)))
              rcases h.of_bind with ⟨hnone, -⟩ | ⟨r, m₃, steps₅, steps₆, rfl, hrest, h⟩
              · cases hnone
              cases r with
              | ok jobs => cases h
              | error err' =>
                  cases h
                  rw [hstored.1] at hrest
                  have hsub : steps₅.Sublist (steps₁ ++ (steps₃ ++ (steps₅ ++ []))) :=
                    ((List.sublist_append_left _ _).trans (List.sublist_append_right _ _)).trans
                      (List.sublist_append_right _ _)
                  have hmore := ih hrest (honly.sublist (List.subset_cons_self _ _) hsub)
                    (hcome.first hqueue hbody)
                  rw [List.append_assoc] at hmore
                  exact hmore.mono hsub.subset

end Loop

end Chronos
