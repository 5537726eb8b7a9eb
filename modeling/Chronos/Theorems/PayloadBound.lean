import Chronos.Theorems.EnqueueDependencies
import Chronos.Cron.Runs

namespace Chronos

open Txn (TxId Reaches Rules Locks Runs Settled stmt)

-- The requests that write payloads, and the sweep that copies them.
inductive PayloadCall
  | enqueue (user : SessionUser) (data : JobCreate) (ids : FreshIds)
  | enqueueBatch (user : SessionUser) (items : List JobService.BatchItem) (batchId : Nat)
  | createSchedule (user : SessionUser) (data : ScheduleCreate) (id : ScheduleId)
      (queueId : QueueId)
  | updateSchedule (user : SessionUser) (id : ScheduleId) (fields : List ScheduleField)
  | sweep (ids : ScheduleId → JobId) (rank : ScheduleId → Nat)

-- Every body has passed its schema.
def PayloadCall.accepted (validCron : String → Bool) : PayloadCall → Bool
  | .enqueue _ data _ => data.accepted
  | .enqueueBatch _ items _ => items.all fun item => item.data.accepted
  | .createSchedule _ data _ _ => data.accepted validCron
  | .updateSchedule _ _ fields => fields.all (ScheduleField.accepted validCron)
  | .sweep _ _ => true

def PayloadCall.body (cron : CronClock) (tx : TxId) : PayloadCall → Tx Unit
  | .enqueue user data ids => do
      let _ ← JobService.enqueue tx user data ids
  | .enqueueBatch user items batchId => do
      let _ ← JobService.enqueueBatch tx user items batchId
  | .createSchedule user data id queueId => do
      let _ ← ScheduleService.create cron user data id queueId
  | .updateSchedule user id fields => do
      let _ ← ScheduleService.update cron user id fields
  | .sweep ids rank => do
      let _ ← ExecutionService.materializeSchedulesOnce cron tx ids rank

abbrev PayloadState := Txn.Pool Key Row Time PayloadCall Unit

def payloadSystem (cron : CronClock) (validCron : String → Bool) :
    Txn.System Key Row Time PayloadCall Unit :=
  ⟨fun _ c => c.accepted validCron, PayloadCall.body cron⟩

def Fits (payload : Json) : Prop := payload.utf8ByteSize ≤ MAX_PAYLOAD_BYTES

instance (payload : Json) : Decidable (Fits payload) := Nat.decLe _ _

def rowFits : (k : Key) → Row k → Prop
  | .job _, e => Fits (JobEntry.job e).payload
  | .schedule _, s => ∀ s' ∈ (s : Option Schedule), Fits s'.payload
  | _, _ => True

-- A PATCH sends no payload, a null or one within the limit.
def ScheduleField.fits : ScheduleField → Bool
  | .payload value => value.all fun x => Fits x
  | _ => true

-- Within the limit as it is sent, and beyond it as the column holds it.
def Document.outgrows (document : Document) : Bool := Fits document.sent ∧ ¬ Fits document.held

def PayloadCall.fits : PayloadCall → Bool
  | .enqueue _ data _ => !data.payload.outgrows
  | .enqueueBatch _ items _ => items.all fun item => !item.data.payload.outgrows
  | .createSchedule _ data _ _ => !data.payload.outgrows
  | .updateSchedule _ _ fields => fields.all ScheduleField.fits
  | .sweep _ _ => true

def payloadRules : Rules Key Row PayloadCall where
  ok := rowFits
  rel _ _ _ _ _ := True
  waits _ _ _ _ := True
  present _ _ := False

section Programs

variable {t : TxId} {c : PayloadCall} {held : Locks Key} {user : SessionUser}

theorem within_rollback {α : Type} (a : α) :
    (stmt .rollback >>= fun _ => pure a : Tx α).Within payloadRules t c (fun _ _ => True) held :=
  .stmt trivial fun _ _ => trivial

theorem within_finish {α : Type} (a : α) :
    (stmt .commit >>= fun _ => stmt .rollback >>= fun _ => pure a : Tx α).Within payloadRules t c
      (fun _ _ => True) held :=
  .stmt trivial fun _ _ => within_rollback a

section Jobs

open JobService

theorem within_resolveQueue (id : QueueId) (p : Project) (name : String) :
    (resolveQueue id p name).Within payloadRules t c (fun _ _ => True) held := by
  rw [resolveQueue]
  split
  · refine .stmt trivial fun found _ => ?_
    cases found with
    | some q => trivial
    | none =>
        refine .stmt ⟨trivial, trivial⟩ fun ok _ => ?_
        cases ok with
        | true => trivial
        | false =>
            refine .stmt trivial fun again _ => ?_
            cases again <;> trivial
  · trivial

theorem within_insertJob (job : Job) (dependsOn : List JobId) (hfits : Fits job.payload) :
    (insertJob t job dependsOn).Within payloadRules t c (fun _ _ => True) held := by
  rw [insertJob]
  split
  · refine .stmt ⟨hfits, trivial⟩ fun ok _ => ?_
    cases ok with
    | false => trivial
    | true =>
        simp only [if_true]
        split
        · refine .stmt (fun _ _ _ hok => ⟨hok, trivial⟩) fun _ _ => ?_
          exact .stmt trivial fun _ _ => trivial
        · trivial
  · trivial

theorem within_recover (data : JobCreate) :
    (recover user data).Within payloadRules t c (fun _ _ => True) held := by
  refine .stmt trivial fun _ _ => ?_
  cases truthyKey data with
  | none => trivial
  | some key =>
      dsimp only
      split
      · trivial
      · refine .stmt trivial fun existing _ => ?_
        cases existing <;> trivial

theorem within_create (data : JobCreate) (ids : FreshIds) (now : Time)
    (hfits : Fits data.payload.held) :
    (create t user data ids now).Within payloadRules t c (fun _ _ => True) held := by
  refine (reads_resolveProject data.projectId).within.bind fun r held _ => ?_
  cases r with
  | error err => trivial
  | ok project =>
      refine (within_resolveQueue _ _ _).bind fun r held _ => ?_
      cases r with
      | error err => trivial
      | ok queue =>
          refine (reads_checkDependencies _ _ _).within.bind fun r held _ => ?_
          cases r with
          | error err => trivial
          | ok workflowId =>
              dsimp only
              split
              · refine (within_insertJob _ _ hfits).bind fun ok held _ => ?_
                cases ok with
                | true => trivial
                | false => exact within_recover data
              · trivial

theorem within_enqueue (data : JobCreate) (ids : FreshIds) (hfits : Fits data.payload.held) :
    (enqueue t user data ids).Within payloadRules t c (fun _ _ => True) held := by
  refine .stmt trivial fun now _ => ?_
  have hcheck : (preCheck user data).All Txn.Stmt.Reads := by
    unfold preCheck
    cases truthyKey data with
    | none => trivial
    | some key =>
        dsimp only
        split
        · exact ⟨.select _, fun _ => trivial⟩
        · trivial
  refine hcheck.within.bind fun found held _ => ?_
  rcases found with err | (_ | job)
  · exact within_rollback _
  · exact (within_create data ids now hfits).bind fun r held _ => within_rollback r
  · exact within_rollback _

theorem within_flush (jobs : List Job) (hfits : ∀ job ∈ jobs, Fits job.payload) :
    (flush t jobs).Within payloadRules t c (fun _ _ => True) held := by
  induction jobs generalizing held with
  | nil => trivial
  | cons job jobs ih =>
      rw [flush]
      split
      · refine .stmt ⟨hfits job List.mem_cons_self, trivial⟩ fun ok _ => ?_
        cases ok with
        | true => exact ih fun job hjob => hfits job (List.mem_cons_of_mem _ hjob)
        | false => trivial
      · trivial

theorem within_stageItems (batchId : Nat) (now : Time) (items : List BatchItem)
    (cache : List ((Option ProjectId × String) × Queue)) (staged : List Job) (storable : Bool)
    (hitems : ∀ item ∈ items, Fits item.data.payload.held)
    (hstaged : ∀ job ∈ staged, Fits job.payload) :
    (stageItems t user batchId now items cache staged storable).Within payloadRules t c
      (fun _ _ => True) held := by
  induction items generalizing cache staged storable held with
  | nil =>
      rw [stageItems]
      split
      · refine (within_flush staged hstaged).bind fun ok held _ => ?_
        cases ok <;> trivial
      · trivial
  | cons item items ih =>
      have hitem := hitems item List.mem_cons_self
      have hrest : ∀ item ∈ items, Fits item.data.payload.held :=
        fun item h => hitems item (List.mem_cons_of_mem _ h)
      rw [stageItems]
      cases cache.lookup item.target with
      | some queue =>
          refine (ih cache _ _ hrest fun job hjob => ?_).bind fun _ _ _ => trivial
          rcases List.mem_append.mp hjob with hold | hnew
          · exact hstaged job hold
          · obtain rfl := List.mem_singleton.mp hnew
            exact hitem
      | none =>
          dsimp only
          split
          swap
          · trivial
          refine (within_flush staged hstaged).bind fun ok held _ => ?_
          cases ok with
          | false => trivial
          | true =>
              simp only [if_true]
              have htarget : (resolveTarget user item).Within payloadRules t c
                  (fun _ _ => True) held := by
                refine (reads_resolveProject item.data.projectId).within.bind fun r held _ => ?_
                cases r with
                | error err => trivial
                | ok project => exact within_resolveQueue _ _ _
              refine htarget.bind fun r held _ => ?_
              cases r with
              | error err => trivial
              | ok queue =>
                  refine (ih _ _ _ hrest fun job hjob => ?_).bind fun _ _ _ => trivial
                  obtain rfl := List.mem_singleton.mp hjob
                  exact hitem

theorem within_enqueueBatch (items : List BatchItem) (batchId : Nat)
    (hitems : ∀ item ∈ items, Fits item.data.payload.held) :
    (enqueueBatch t user items batchId).Within payloadRules t c (fun _ _ => True) held := by
  refine .stmt trivial fun now _ => ?_
  refine (within_stageItems batchId now items [] [] true hitems (by simp)).bind fun r held _ => ?_
  cases r with
  | ok jobs => exact within_finish _
  | error err => exact within_rollback _

end Jobs

section Schedules

open ScheduleService ScheduleRepository ExecutionService

variable {cron : CronClock}

theorem within_createSchedule (data : ScheduleCreate) (id : ScheduleId) (queueId : QueueId)
    (hfits : Fits data.payload.held) :
    (create cron user data id queueId).Within payloadRules t c (fun _ _ => True) held := by
  have hqueue (p : Project) {held : Locks Key} : (ScheduleService.resolveQueue queueId p
      data.queue).Within payloadRules t c (fun _ _ => True) held := by
    rw [ScheduleService.resolveQueue]
    split
    · refine .stmt trivial fun found _ => ?_
      cases found with
      | some q => trivial
      | none =>
          refine .stmt ⟨trivial, trivial⟩ fun ok _ => ?_
          cases ok <;> trivial
    · trivial
  have hstage (now : Time) : (stage cron user data id queueId now).Within payloadRules t c
      (fun _ _ => True) held := by
    refine (reads_resolveProject data.projectId).within.bind fun r held _ => ?_
    cases r with
    | error err => trivial
    | ok project =>
        refine (hqueue project).bind fun r held _ => ?_
        cases r with
        | error err => trivial
        | ok queue =>
            dsimp only
            cases cron.next data.cronExpr now with
            | none => trivial
            | some nextRunAt =>
                dsimp only
                split
                · split
                  · refine .stmt ⟨fun s hs => ?_, trivial⟩ fun ok _ => ?_
                    · exact Option.some.inj hs ▸ hfits
                    · cases ok <;> trivial
                  · trivial
                · trivial
  refine .stmt trivial fun now _ => (hstage now).bind fun r held _ => ?_
  cases r with
  | ok s => exact within_finish _
  | error err => exact within_rollback _

-- A field that fits leaves a payload that fits.
theorem assign_fits {f : ScheduleField} {s s' : Schedule} (hf : f.fits = true)
    (hs : Fits s.payload) (h : f.assign s = some s') : Fits s'.payload := by
  cases f with
  | payload value =>
      obtain rfl := Option.some.inj h
      cases value with
      | none =>
          show Fits "null"
          decide
      | some x => simpa [ScheduleField.fits] using hf
  | _ =>
      obtain ⟨x, -, rfl⟩ := Option.map_eq_some_iff.mp h
      exact hs

theorem changes_fits {loaded s : Schedule} {fields : List ScheduleField} {cursor : Option Time}
    (hfields : ∀ f ∈ fields, f.fits = true) (hs : Fits s.payload) :
    Fits (changes loaded fields cursor s).payload := by
  refine changes_keeps (fun s => Fits s.payload) ?_ fun _ _ h => h
  refine Patch.apply_keeps (fun f : ScheduleField => f.fits = true) (fun s => Fits s.payload)
    (fun s f s' hf hs h => assign_fits hf hs h) _ (fun f hf => ?_) s hs
  exact hfields f (List.mem_filter.mp hf).1

theorem within_updateSchedule (id : ScheduleId) (fields : List ScheduleField)
    (hfields : ∀ f ∈ fields, f.fits = true) :
    (update cron user id fields).Within payloadRules t c (fun _ _ => True) held := by
  have hget : (ScheduleService.get user id).All Txn.Stmt.Reads := by
    refine ⟨.select _, fun found => ?_⟩
    cases found <;> trivial
  refine .stmt trivial fun now _ => hget.within.bind fun r held _ => ?_
  cases r with
  | error err => exact within_rollback _
  | ok loaded =>
      dsimp only
      cases movedCursor cron loaded fields now with
      | error err => exact within_rollback _
      | ok cursor =>
          dsimp only
          split
          · exact within_rollback _
          · split
            · exact within_finish _
            · refine .stmt ⟨trivial, fun _ row _ hok _ => ⟨?_, trivial⟩⟩ fun updated _ => ?_
              · intro s hs
                obtain ⟨old, hold, hset⟩ := Option.bind_eq_some_iff.mp hs
                exact Option.some.inj hset ▸ changes_fits hfields (hok old hold)
              · cases updated with
                | none => exact within_rollback _
                | some row => exact within_finish _

-- The schedules a sweep has locked are as the table has them.
theorem within_lockDue (now : Time) (n : Nat) (ids : List ScheduleId) :
    (lockDue now n ids).Within payloadRules t c (fun due _ => ∀ p ∈ due, Fits p.2.payload) held := by
  induction ids generalizing n held with
  | nil =>
      have hnone : ∀ p ∈ ([] : List (ScheduleId × Schedule)), Fits p.2.payload := by simp
      cases n <;> exact hnone
  | cons id ids ih =>
      cases n with
      | zero =>
          have hnone : ∀ p ∈ ([] : List (ScheduleId × Schedule)), Fits p.2.payload := by simp
          exact hnone
      | succ n =>
          refine .stmt (fun _ _ => trivial) fun row hrow => ?_
          cases hs : Option.join row with
          | none => exact ih (n + 1)
          | some s =>
              obtain rfl := Option.join_eq_some_iff.mp hs
              refine (ih n).bind fun rest held hrest p hp => ?_
              rcases List.mem_cons.mp hp with rfl | hp
              · exact (hrow _ rfl).1 s rfl
              · exact hrest p hp

theorem within_flushFiring (id : ScheduleId) (job : Option Job) (nextRunAt : Time)
    (hfits : ∀ j ∈ job, Fits j.payload) :
    (flushFiring t id job nextRunAt).Within payloadRules t c (fun _ _ => True) held := by
  have hwrite : ∀ (inserted : Bool) (held : Locks Key), (if inserted then do
        let _ ← writeSchedule id (advance nextRunAt)
        return true
      else return false : Tx Bool).Within payloadRules t c (fun _ _ => True) held := by
    intro inserted held
    cases inserted with
    | false => trivial
    | true =>
        refine .stmt (fun _ row _ hok => ⟨fun s hs => ?_, trivial⟩) fun _ _ => trivial
        obtain ⟨old, hold, rfl⟩ := Option.map_eq_some_iff.mp hs
        exact hok old hold
  cases job with
  | none => exact hwrite true held
  | some job =>
      rw [flushFiring]
      by_cases hchecks : job.checks = true
      · simp only [hchecks, if_true]
        exact .stmt ⟨hfits job rfl, trivial⟩ fun ok _ => hwrite ok _
      · simp only [hchecks]
        exact hwrite false held

theorem within_fireSchedules (ids : ScheduleId → JobId) (now : Time)
    (due : List (ScheduleId × Schedule)) (hdue : ∀ p ∈ due, Fits p.2.payload) :
    (fireSchedules cron t ids now due).Within payloadRules t c (fun _ _ => True) held := by
  induction due generalizing held with
  | nil => trivial
  | cons p due ih =>
      obtain ⟨id, s⟩ := p
      refine .stmt trivial fun existing _ => ?_
      dsimp only
      cases cron.next s.cronExpr (max s.nextRunAt now) with
      | none => trivial
      | some nextRunAt =>
          refine (within_flushFiring id _ nextRunAt fun job hjob => ?_).bind fun ok held _ => ?_
          · cases hfound : existing.isSome with
            | true => simp [hfound] at hjob
            | false =>
                simp only [hfound, Bool.false_eq_true, if_false, Option.mem_def,
                  Option.some.injEq] at hjob
                exact hjob ▸ hdue _ List.mem_cons_self
          · cases ok with
            | false => trivial
            | true =>
                refine (ih fun p hp => hdue p (List.mem_cons_of_mem _ hp)).bind fun r held _ => ?_
                cases r <;> trivial

theorem within_sweep (ids : ScheduleId → JobId) (rank : ScheduleId → Nat) :
    (materializeSchedulesOnce cron t ids rank).Within payloadRules t c (fun _ _ => True) held := by
  refine .stmt trivial fun now _ => .stmt (fun _ _ => trivial) fun gotLock _ => ?_
  cases gotLock with
  | none => exact within_rollback _
  | some row =>
      refine .stmt trivial fun candidates _ => (within_lockDue now _ candidates).bind ?_
      intro due held hdue
      split
      · exact within_rollback _
      · refine (within_fireSchedules ids now due hdue).bind fun r held _ => ?_
        cases r with
        | error err => exact within_rollback _
        | ok created => exact within_finish _

end Schedules

-- What the validator of a create comes to, unless the column makes the document longer.
theorem fits_held {document : Document} (hsent : Fits document.sent)
    (h : (!document.outgrows) = true) : Fits document.held := by
  by_contra hheld
  simp [Document.outgrows, hsent, hheld] at h

theorem begins_payload {cron : CronClock} {validCron : String → Bool} {s : PayloadState}
    {c : PayloadCall} (hfits : c.fits = true) (hmay : c.accepted validCron = true) :
    Txn.Begins payloadRules (payloadSystem cron validCron) s t c where
  present _ hk := hk.elim
  body := by
    have hjob {data : JobCreate} (h : data.accepted = true) : Fits data.payload.sent := by
      simp only [JobCreate.accepted, decide_eq_true_eq] at h
      exact h.2.2.1
    cases c with
    | enqueue user data ids =>
        exact (within_enqueue data ids (fits_held (hjob hmay) hfits)).bind fun _ _ _ => trivial
    | enqueueBatch user items batchId =>
        refine (within_enqueueBatch items batchId fun item hitem => ?_).bind fun _ _ _ => trivial
        exact fits_held (hjob (List.all_eq_true.mp hmay item hitem))
          (List.all_eq_true.mp hfits item hitem)
    | createSchedule user data id queueId =>
        refine (within_createSchedule data id queueId (fits_held ?_ hfits)).bind fun _ _ _ => trivial
        simp only [PayloadCall.accepted, ScheduleCreate.accepted, decide_eq_true_eq] at hmay
        exact hmay.2.2.1
    | updateSchedule user id fields =>
        exact (within_updateSchedule id fields (List.all_eq_true.mp hfits)).bind
          fun _ _ _ => trivial
    | sweep ids rank => exact (within_sweep ids rank).bind fun _ _ _ => trivial

end Programs

-- The payloads of the two tables.
structure PayloadsFit (m : Db) : Prop where
  job : ∀ id e, committedJob m id = some e → Fits e.job.payload
  schedule : ∀ id s, committedSchedule m id = some s → Fits s.payload

theorem rowFits_of_payloads {m : Db} (h : PayloadsFit m) (k : Key) (v : Row k)
    (hv : (m.cell k).committed = some v) : rowFits k v := by
  cases k with
  | job id => exact h.job id v hv
  | schedule id =>
      intro s hs
      refine h.schedule id s ?_
      rw [committedSchedule, hv, show v = some s from hs]
      rfl
  | _ => trivial

def callsFit : Txn.Event Time PayloadCall → Bool
  | .start _ c => c.fits
  | _ => true

-- As long as no PATCH brings in a larger one and no create one that outgrows the limit in its
-- column, every payload stored is within the limit.
theorem payloads_fit {cron : CronClock} {validCron : String → Bool} {m : Db} (hwf : m.WF)
    (hunlocked : ∀ k, (m.cell k).pending = none) (hfit : PayloadsFit m) {s : PayloadState}
    (h : Reaches (payloadSystem cron validCron).step (fun _ ev _ => callsFit ev = true)
      (Txn.Pool.init m) s) : PayloadsFit s.mem := by
  have hruled : Txn.Ruled payloadRules s :=
    .of_starts (.init hwf (rowFits_of_payloads hfit) hunlocked)
      (fun _ _ _ _ => begins_payload) h
  constructor
  · exact fun id e he => hruled.rows.committed (.job id) e he
  · intro id s' hs'
    obtain ⟨row, hrow, rfl⟩ := Option.bind_eq_some_iff.mp hs'
    exact hruled.rows.committed (.schedule id) _ hrow s' rfl

section Example

-- A PATCH of the payload of a schedule.
theorem runs_update_payload {cron : CronClock} {user : SessionUser} {t : TxId} {v : Snapshot}
    {now : Time} {id : ScheduleId} {s : Schedule} {payload : Json}
    (hs : v.row (.schedule id) = some (some s)) (howner : s.ownerId = user.id)
    (hne : payload ≠ s.payload) :
    Runs t (Settled v now) (ScheduleService.update cron user id [.payload (some payload)])
      fun _ m => committedSchedule m id = some { s with payload := payload } := by
  refine Runs.via (Txn.Sees t v now) ?_ fun m h => h.sees t
  refine .bind .begin fun now' => .given fun _ => ?_
  have hget : Runs t (Txn.Sees t v now) (ScheduleService.get user id) fun r m =>
      r = .ok s ∧ Txn.Sees t v now m := by
    refine .bind (.select _) fun found => .given fun hfound => ?_
    have hrow : ScheduleRepository.getForOwner id user.id v = some s := by
      simp [ScheduleRepository.getForOwner, Snapshot.schedule, hs, howner]
    obtain rfl : found = some s := hfound.trans hrow
    exact .pure fun m h => ⟨rfl, h⟩
  refine .bind hget fun r => .given fun hr => ?_
  subst hr
  have hassign : ScheduleField.assign s (.payload (some payload)) ≠ some s := by
    intro heq
    exact hne (congrArg Schedule.payload (Option.some.inj heq))
  have hchanges : ScheduleService.changes s [.payload (some payload)] none s =
      { s with payload := payload } := by
    simp [ScheduleService.changes, hassign]
    rfl
  have hmoved : ScheduleService.movedCursor cron s [.payload (some payload)] now' = .ok none := rfl
  have hnull : ([ScheduleField.payload (some payload)].any fun f => f.assign s = none) = false := by
    simp [ScheduleField.assign]
  have hchanged : ¬ ScheduleService.changes s [.payload (some payload)] none s = s := by
    rw [hchanges]
    exact fun heq => hne (congrArg Schedule.payload heq)
  simp only [hmoved, hnull, Bool.false_eq_true, if_false, if_neg hchanged]
  refine .bind (.update hs rfl _) fun updated => .given fun hupdated => ?_
  subst hupdated
  refine .bind .commit fun _ => .bind .rollback fun _ => .pure fun m h => ?_
  rw [committedSchedule, h.committed, Txn.View.put_row_self]
  simp [hchanges]

def filled (c : Char) : Nat → String
  | 0 => ""
  | n + 1 => (filled c n).push c

theorem filled_size {c : Char} (hc : c.utf8Size = 1) (n : Nat) : (filled c n).utf8ByteSize = n := by
  induction n with
  | zero => rfl
  | succ n ih => rw [filled, String.utf8ByteSize_push, ih, hc]

-- An object with one long string in it.
def bigPayload : Json := "\x7b\"blob\":\"" ++ filled 'a' MAX_PAYLOAD_BYTES ++ "\"\x7d"

theorem bigPayload_size : ¬ Fits bigPayload := by
  unfold Fits bigPayload
  rw [String.utf8ByteSize_append, String.utf8ByteSize_append, filled_size rfl]
  have hquotes : ("\"\x7d" : String).utf8ByteSize = 2 := by decide
  omega

def patchedSchedule : Schedule :=
  ScheduleService.build 3 0 (Queue.fresh 8 0 "default") exampleSchedule 60 0

def patchedRows : List (Sigma Row) := [⟨.schedule 3, some patchedSchedule⟩]

def patchedDb : Db := Txn.Store.seed patchedRows 0

-- ScheduleUpdate has no validator for the payload.
theorem patch_exceeds_limit : ¬ ∀ cron validCron m s, m.WF → (∀ k, (m.cell k).pending = none) →
    PayloadsFit m → (payloadSystem cron validCron).Reachable m s → PayloadsFit s.mem := by
  intro h
  have hsettled : Settled (.seed patchedRows) 0 patchedDb := .seed (by decide) 0
  have hfit : PayloadsFit patchedDb := by
    constructor
    · intro id e he
      cases he
    · intro id s hs
      obtain ⟨row, hrow, rfl⟩ := Option.bind_eq_some_iff.mp hs
      have hmem : ⟨.schedule id, some s⟩ ∈ patchedRows := List.of_mem_dlookup hrow
      obtain ⟨hid, heq⟩ := Sigma.mk.inj (List.mem_singleton.mp hmem)
      obtain rfl := Key.schedule.inj hid
      obtain rfl := Option.some.inj (eq_of_heq heq)
      decide
  have hne : bigPayload ≠ patchedSchedule.payload := by
    intro heq
    exact bigPayload_size (heq ▸ (by decide : Fits patchedSchedule.payload))
  have hupdate : Runs 1 (Settled (.seed patchedRows) 0) (ScheduleService.update exampleCron
      exampleUser 3 [.payload (some bigPayload)]) fun _ m =>
        committedSchedule m 3 = some { patchedSchedule with payload := bigPayload } :=
    runs_update_payload rfl rfl hne
  obtain ⟨r, m', hrun, hstored⟩ := hupdate _ (hsettled.openTx 1)
  have hbody : (PayloadCall.body exampleCron 1
      (.updateSchedule exampleUser 3 [.payload (some bigPayload)])).run 1 (patchedDb.openTx 1) =
        some ((), m') := by
    rw [PayloadCall.body, Txn.Prog.bind_eq, Txn.Prog.run_bind, hrun]
    rfl
  have hfresh : 1 ∉ patchedDb.opened := by simp [patchedDb, Txn.Store.seed]
  let sys := payloadSystem exampleCron fun _ => true
  have hreach : sys.Reachable patchedDb _ := Reaches.of_call sys
    (.updateSchedule exampleUser 3 [.payload (some bigPayload)]) hfresh rfl hbody
  exact bigPayload_size ((h exampleCron (fun _ => true) patchedDb _ hsettled.wf hsettled.unlocked
    hfit hreach).schedule 3 _ hstored)

-- An array of copies of a number.
def numbers (number : String) : Nat → String
  | 0 => number
  | n + 1 => numbers number n ++ ("," ++ number)

theorem numbers_size (number : String) (n : Nat) :
    (numbers number n).utf8ByteSize = n * (number.utf8ByteSize + 1) + number.utf8ByteSize := by
  induction n with
  | zero => simp [numbers]
  | succ n ih =>
      have hcomma : ("," : String).utf8ByteSize = 1 := by decide
      rw [numbers, String.utf8ByteSize_append, String.utf8ByteSize_append, ih, hcomma, Nat.succ_mul]
      omega

-- 9300 times 1e300, sent with its exponent and held with its 301 digits.
def growingDocument : Document where
  sent := "\x7b\"n\":[" ++ numbers "1e+300" 9299 ++ "]\x7d"
  held := "\x7b\"n\":[" ++ numbers ("1" ++ filled '0' 300) 9299 ++ "]\x7d"
  refused := false

theorem growingDocument_sent : Fits growingDocument.sent := by
  have hopening : ("\x7b\"n\":[" : String).utf8ByteSize = 6 := by decide
  have hclosing : ("]\x7d" : String).utf8ByteSize = 2 := by decide
  have hnumber : ("1e+300" : String).utf8ByteSize = 6 := by decide
  simp only [Fits, growingDocument, String.utf8ByteSize_append, numbers_size, hopening, hclosing,
    hnumber]
  decide

theorem growingDocument_held : ¬ Fits growingDocument.held := by
  have hopening : ("\x7b\"n\":[" : String).utf8ByteSize = 6 := by decide
  have hclosing : ("]\x7d" : String).utf8ByteSize = 2 := by decide
  have hfirst : ("1" : String).utf8ByteSize = 1 := by decide
  have hzeros : (filled '0' 300).utf8ByteSize = 300 := filled_size (by decide) 300
  simp only [Fits, growingDocument, String.utf8ByteSize_append, numbers_size, hopening, hclosing,
    hfirst, hzeros]
  decide

def growingBody : JobCreate := { exampleBody none [] with payload := growingDocument }

theorem growingBody_keyless : Keyless growingBody (committedView exampleDb) ⟨7, 8, 9⟩ where
  accepted := by
    have hsent : growingBody.payload.sent.utf8ByteSize ≤ MAX_PAYLOAD_BYTES := growingDocument_sent
    have hrest : (exampleBody none []).accepted = true := by decide +kernel
    simp only [JobCreate.accepted, decide_eq_true_eq] at hrest ⊢
    exact ⟨hrest.1, hrest.2.1, hsent, hrest.2.2.2⟩
  keyless := rfl
  fresh := ⟨fun id q hq => (by cases hq), by decide +kernel, by decide +kernel⟩

-- The validator of JobCreate measures what is sent.
theorem create_exceeds_limit : ∃ r m', growingBody.accepted = true ∧
    (JobService.enqueue 1 exampleUser growingBody ⟨7, 8, 9⟩).run 1 exampleDb = some (r, m') ∧
      ¬ PayloadsFit m' := by
  have hkeyless : Keyless growingBody (committedView exampleDb) ⟨7, 8, 9⟩ := growingBody_keyless
  have hproject : projectFor exampleUser growingBody.projectId (committedView exampleDb) ≠ none := by
    decide +kernel
  have howned : ¬ Unowned exampleUser.id growingBody (committedView exampleDb) :=
    fun ⟨d, hd, _⟩ => List.not_mem_nil hd
  have hruns : Runs 1 (Settled (committedView exampleDb) exampleDb.clock)
      (JobService.enqueue 1 exampleUser growingBody ⟨7, 8, 9⟩)
      (Ends 1 exampleUser growingBody ⟨7, 8, 9⟩ (committedView exampleDb) exampleDb.clock) :=
    runs_enqueue hkeyless
  obtain ⟨r, m', hrun, hends⟩ := hruns exampleDb
    (settled_committedView exampleDb_initial.wf exampleDb_initial.unlocked)
  refine ⟨r, m', hkeyless.accepted, hrun, fun hfit => ?_⟩
  cases hends with
  | refused err m hcause hrows =>
      cases hcause with
      | notFound message hcause => exact hcause.elim hproject fun h => howned h.2
      | name _ hname => cases hname
      | values _ _ hstored => cases hstored
  | repeated m _ _ hrepeated hrows => exact hrepeated List.nodup_nil
  | created queue workflowId w m hgrown hname hstored hnodup hsettled =>
      have hrow : committedJob m' 7 = some (newRow 1 (JobService.buildJob 7 exampleUser.id queue
          growingBody workflowId exampleDb.clock) growingBody.dependsOn) := by
        rw [committedJob, hsettled.committed]
        exact Txn.View.insert_row_self _ _ _
      exact growingDocument_held (hfit.job 7 _ hrow)

-- Schedule 3 is created with a small payload, and fires three ticks late.
def firingEvents : List (Txn.Event Time PayloadCall) :=
  .start 1 (.createSchedule exampleUser exampleSchedule 3 8) :: List.replicate 7 (.run 1) ++
    .tick 200 :: .start 2 (.sweep (fun id => id + 100) id) :: List.replicate 9 (.run 2)

def firedState : PayloadState :=
  (Txn.runAll (payloadSystem exampleCron fun _ => true).step (fun _ ev _ => callsFit ev)
    (Txn.Pool.init cronDb) firingEvents).getD (Txn.Pool.init cronDb)

theorem payloads_fit_fired :
    ((committedJob firedState.mem 103).isSome && (committedSchedule firedState.mem 3).isSome) = true ∧
      PayloadsFit firedState.mem := by
  constructor
  · decide +kernel
  · have hrun : Reaches (payloadSystem exampleCron fun _ => true).step
        (fun _ ev _ => callsFit ev = true) (Txn.Pool.init cronDb) firedState :=
      Reaches.getD_runAll (fun _ ev _ => callsFit ev) firingEvents
    refine payloads_fit cronDb_initial.wf cronDb_initial.unlocked
      ⟨fun id e he => ?_, fun id s hs => ?_⟩ hrun
    · cases he
    · cases hs

end Example

end Chronos
