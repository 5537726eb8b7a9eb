import Chronos.Data.Numerals
import Chronos.Refinement.Checks
import Chronos.Services.Overview
import Chronos.Txn.Left
import Chronos.Txn.Reading

namespace Chronos

open Txn (TxId Reaches Left Visited)

variable {C : Type} {clients : Clients C} {json : OverviewJson} {ttl d : Time} {m : Db}
  {p p' : StatsPool C} {o : StatsOverview} {b b' e e' x : Time}

def published (m : Db) : Snapshot := ⟨m.keys, fun k => (m.cell k).committed⟩

abbrev StatsRun (clients : Clients C) : StatsPool C → StatsPool C → Prop :=
  Reaches clients.system.step fun _ _ _ => True

-- `P` was true of what was committed at a moment from `b` to `e`, in a run that has come to `p`.
def WasTrue (clients : Clients C) (m : Db) (p : StatsPool C) (b e : Time) (P : Snapshot → Prop) :
    Prop :=
  ∃ p₁, StatsRun clients (.init m) p₁ ∧ StatsRun clients p₁ p ∧ b ≤ p₁.mem.clock ∧
    p₁.mem.clock ≤ e ∧ P (published p₁.mem)

-- Every number of the overview was exact at such a moment.
structure Exact (clients : Clients C) (m : Db) (p : StatsPool C) (o : StatsOverview) (b e : Time) :
    Prop where
  counts : WasTrue clients m p b e fun v => o.countsByStatus = JobRepository.countsByStatus v
  dlq : o.dlqSize = o.countsByStatus .dead
  ready : ∃ now, b ≤ now ∧ now ≤ e ∧ WasTrue clients m p b e fun v =>
    (o.readyNow, o.scheduledLater) = JobRepository.readyAndScheduledCounts now v
  workers : WasTrue clients m p b e fun v => o.workersOnline = WorkerRepository.countOnline v
  throughput : ∃ rank, WasTrue clients m p b e fun v => o.throughputLastHour =
    StatsService.throughput (o.generatedAt - 3600)
      (AttemptRepository.throughputByMinute (o.generatedAt - 3600) rank v)

theorem WasTrue.mono {P : Snapshot → Prop} (h : WasTrue clients m p b e P)
    (hrun : StatsRun clients p p') (hb : b' ≤ b) (he : e ≤ e') : WasTrue clients m p' b' e' P := by
  obtain ⟨p₁, hbefore, hafter, hlow, hhigh, hP⟩ := h
  exact ⟨p₁, hbefore, hafter.trans hrun, hb.trans hlow, hhigh.trans he, hP⟩

theorem Exact.mono (h : Exact clients m p o b e) (hrun : StatsRun clients p p') (hb : b' ≤ b)
    (he : e ≤ e') : Exact clients m p' o b' e' where
  counts := h.counts.mono hrun hb he
  dlq := h.dlq
  ready := by
    obtain ⟨now, hlow, hhigh, hready⟩ := h.ready
    exact ⟨now, hb.trans hlow, hhigh.trans he, hready.mono hrun hb he⟩
  workers := h.workers.mono hrun hb he
  throughput := by
    obtain ⟨rank, hthroughput⟩ := h.throughput
    exact ⟨rank, hthroughput.mono hrun hb he⟩

section Compute

variable {A : Db → Prop} {t : TxId} {a : ComputeArgs}

theorem reads_compute (clients : Clients C) (t : TxId) (a : ComputeArgs) :
    (StatsCall.body clients t (.inr a)).All Txn.Stmt.Reads := by
  refine ⟨.select _, fun counts => ⟨.select _, fun ready => ⟨.select _,
    fun workers => ⟨.select _, fun raw => ⟨.rollback, fun _ => trivial⟩⟩⟩⟩⟩

-- What a computation has found, statement by statement.
theorem left_compute (h : Left A t (StatsCall.body clients t (.inr a)) (.pure (some o))) :
    ∃ m₁ m₂ m₃ m₄, A m₁ ∧ A m₂ ∧ A m₃ ∧ A m₄ ∧
      o.countsByStatus = JobRepository.countsByStatus (m₁.view t) ∧
      o.dlqSize = o.countsByStatus .dead ∧
      (o.readyNow, o.scheduledLater) =
        JobRepository.readyAndScheduledCounts a.dbNow (m₂.view t) ∧
      o.workersOnline = WorkerRepository.countOnline (m₃.view t) ∧
      o.throughputLastHour = StatsService.throughput (o.generatedAt - 3600)
        (AttemptRepository.throughputByMinute (o.generatedAt - 3600) a.rank (m₄.view t)) := by
  obtain ⟨m₁, h₁, h⟩ := Left.of_select h
  obtain ⟨m₂, h₂, h⟩ := Left.of_select h
  obtain ⟨m₃, h₃, h⟩ := Left.of_select h
  obtain ⟨m₄, h₄, h⟩ := Left.of_select h
  obtain rfl := Option.some.inj (Left.of_rollback h).of_pure
  exact ⟨m₁, m₂, m₃, m₄, h₁, h₂, h₃, h₄, rfl, rfl, rfl, rfl, rfl⟩

variable (hwf : m.WF) (hfree : ∀ k, (m.cell k).pending = none)
include hwf hfree

theorem reading_of_run (h : StatsRun clients (.init m) p) :
    Txn.Reading (fun c : StatsCall C => ∃ a, c = .inr a) p := by
  refine .of_reaches hwf hfree ?_ h
  rintro t c ⟨a, rfl⟩
  exact reads_compute clients t a

theorem calls_of_run {p₀ : StatsPool C} (hbefore : StatsRun clients (.init m) p₀)
    (hrun : StatsRun clients p₀ p) {c : StatsCall C} (hc : p₀.calls t c) : p.calls t c := by
  refine hrun.invariant (P := fun p => p.calls t c) hc fun p₁ ev p₂ hp₁ hcalls hstep _ => ?_
  obtain ⟨rest, ht⟩ := hcalls
  have hopen := (reading_of_run hwf hfree (hbefore.trans hp₁)).opened
  exact (Txn.System.steps_of_step hstep).call hopen ht

-- A computation that has returned is exact, from the begin of its transaction on.
theorem exact_of_compute {p₀ : StatsPool C}
    (hbefore : StatsRun clients (.init m) p₀) (hrun : StatsRun clients p₀ p)
    (hfresh : t ∉ p₀.mem.opened) (hbegun : a.dbNow ≤ p₀.mem.clock)
    (ht : p.thread t = some ⟨.inr a, some (.pure (some o))⟩) :
    Exact clients m p o a.dbNow p.mem.clock := by
  have htrue : ∀ {m₁ : Db} {P : Snapshot → Prop},
      Visited clients.system (fun _ _ _ => True) p₀ p t (.inr a) m₁ → P (m₁.view t) →
        WasTrue clients m p a.dbNow p.mem.clock P := by
    rintro m₁ P hvisited hP
    obtain ⟨hlow, hhigh⟩ := hvisited.clock_le
    obtain ⟨p₁, hreach, hafter, hcalls, rfl⟩ := hvisited
    have hview : p₁.mem.view t = published p₁.mem := by
      have hreading := reading_of_run hwf hfree (hbefore.trans hreach)
      rw [Txn.Store.view, published, ← hreading.view hcalls ⟨a, rfl⟩]
      rfl
    exact ⟨p₁, hbefore.trans hreach, hafter, hbegun.trans hlow, hhigh, hview ▸ hP⟩
  have hleft : Left (Visited clients.system (fun _ _ _ => True) p₀ p t (.inr a)) t
      (StatsCall.body clients t (.inr a)) (.pure (some o)) :=
    hrun.left (reading_of_run hwf hfree hbefore).opened hfresh ht
  obtain ⟨m₁, m₂, m₃, m₄, h₁, h₂, h₃, h₄, hcounts, hdlq, hready, hworkers, hthroughput⟩ :=
    left_compute hleft
  have hpast : a.dbNow ≤ p.mem.clock := hbegun.trans hrun.clock_le
  exact ⟨htrue h₁ hcounts, hdlq, ⟨a.dbNow, le_refl _, hpast, htrue h₂ hready⟩,
    htrue h₃ hworkers, a.rank, htrue h₄ hthroughput⟩

end Compute

namespace Dashboard

variable {s s' : Dashboard C} {ev : DashboardEvent C} {i : Nat} {c : OverviewCall}

-- What is known of an overview call by where it stands.
def CallOk (clients : Clients C) (json : OverviewJson) (ttl d : Time) (m : Db) (p : StatsPool C)
    (c : OverviewCall) : Prop :=
  match c.stage with
  | .looked cached => ∀ text o, cached = some text → json.load text = some o →
      Exact clients m p o (c.begunAt - (ttl + d)) p.mem.clock
  | .computing t => ∃ p₀ a, StatsRun clients (.init m) p₀ ∧ StatsRun clients p₀ p ∧
      t ∉ p₀.mem.opened ∧ a.dbNow = c.begunAt ∧ c.begunAt ≤ p₀.mem.clock ∧ p.calls t (.inr a)
  | .computed o | .stored o => Exact clients m p o c.begunAt p.mem.clock
  | .returned o x => Exact clients m p o (x - (ttl + 2 * d)) x
  | _ => True

structure Inv (clients : Clients C) (json : OverviewJson) (ttl d : Time) (m : Db)
    (s : Dashboard C) : Prop where
  run : StatsRun clients (.init m) s.pool
  begun : ∀ i c, s.call i = some c → c.begunAt ≤ s.clock
  calls : ∀ i c, s.call i = some c → CallOk clients json ttl d m s.pool c
  cache : ∀ e, s.redis STATS_CACHE_KEY = some e → ∃ o x, e.value = json.dump o ∧
    e.expiresAt = some (x + ttl) ∧ x ≤ s.clock ∧ Exact clients m s.pool o (x - d) x

-- A call has its answers from Redis, and returns, no more than `d` after its transaction has begun.
def Quick (d : Time) (s : Dashboard C) : DashboardEvent C → Prop
  | .reply i | .set i _ | .finish i => ∀ c, s.call i = some c → s.clock ≤ c.begunAt + d
  | _ => True

theorem CallOk.run (h : CallOk clients json ttl d m p c) (hwf : m.WF)
    (hfree : ∀ k, (m.cell k).pending = none) (hbefore : StatsRun clients (.init m) p)
    (hrun : StatsRun clients p p') : CallOk clients json ttl d m p' c := by
  obtain ⟨stage, begunAt⟩ := c
  cases stage with
  | looked cached =>
      intro text o htext hload
      exact (h text o htext hload).mono hrun (le_refl _) hrun.clock_le
  | computing t =>
      obtain ⟨p₀, a, hp₀, hafter, hfresh, hnow, hbegun, hcalls⟩ := h
      exact ⟨p₀, a, hp₀, hafter.trans hrun, hfresh, hnow, hbegun,
        calls_of_run hwf hfree hbefore hrun hcalls⟩
  | computed o => exact Exact.mono h hrun (le_refl _) hrun.clock_le
  | stored o => exact Exact.mono h hrun (le_refl _) hrun.clock_le
  | returned o x => exact Exact.mono h hrun (le_refl _) (le_refl _)
  | _ => trivial

theorem Inv.put (h : Inv clients json ttl d m s) (hbegun : c.begunAt ≤ s.clock)
    (hc : CallOk clients json ttl d m s.pool c) : Inv clients json ttl d m (s.put i c) := by
  refine ⟨h.run, fun j c' hc' => ?_, fun j c' hc' => ?_, h.cache⟩
  · by_cases hj : j = i
    · subst hj
      obtain rfl : c = c' := by simpa [Dashboard.put] using hc'
      exact hbegun
    · exact h.begun j c' (by simpa [Dashboard.put, hj] using hc')
  · by_cases hj : j = i
    · subst hj
      obtain rfl : c = c' := by simpa [Dashboard.put] using hc'
      exact hc
    · exact h.calls j c' (by simpa [Dashboard.put, hj] using hc')

-- A call goes on.
theorem Inv.goes_on (h : Inv clients json ttl d m s) {stage stage' : OverviewStage} {b : Time}
    (hi : s.call i = some ⟨stage, b⟩) (hc : CallOk clients json ttl d m s.pool ⟨stage', b⟩) :
    Inv clients json ttl d m (s.put i ⟨stage', b⟩) :=
  h.put (h.begun i _ hi : b ≤ s.clock) hc

theorem Inv.pool (h : Inv clients json ttl d m s) (hwf : m.WF)
    (hfree : ∀ k, (m.cell k).pending = none) {ev : Txn.Event Time (StatsCall C)}
    (hstep : clients.system.step s.pool ev = some p) :
    Inv clients json ttl d m { s with pool := p } := by
  have hrun : StatsRun clients s.pool p := .tail .refl hstep trivial
  refine ⟨h.run.trans hrun, fun i c hc => (h.begun i c hc).trans hrun.clock_le,
    fun i c hc => (h.calls i c hc).run hwf hfree h.run hrun, fun e he => ?_⟩
  obtain ⟨o, x, hvalue, hexpires, hpast, hexact⟩ := h.cache e he
  exact ⟨o, x, hvalue, hexpires, hpast.trans hrun.clock_le,
    hexact.mono hrun (le_refl _) (le_refl _)⟩

-- What Redis answers is as old as its TTL allows, and no older than a computation took more.
theorem looked_ok (h : Inv clients json ttl d m s)
    (hjson : ∀ o, json.load (json.dump o) = some o) {cached : Option String}
    (hcached : ∀ text, cached = some text →
      Redis.get s.clock STATS_CACHE_KEY s.redis = some text) {b : Time} (hb : b ≤ s.clock) :
    CallOk clients json ttl d m s.pool ⟨.looked cached, b⟩ := by
  intro text o htext hload
  obtain ⟨e, he, rfl⟩ := Option.map_eq_some_iff.mp (hcached text htext)
  obtain ⟨hentry, hlive⟩ := Redis.lookup_eq_some.mp he
  obtain ⟨o', x, hvalue, hexpires, hpast, hexact⟩ := h.cache e hentry
  rw [hvalue, hjson, Option.some.injEq] at hload
  subst hload
  rw [Redis.Entry.live, hexpires, Option.all_some, decide_eq_true_eq] at hlive
  have hlow : b - (ttl + d) ≤ x - d := by linarith
  exact hexact.mono .refl hlow hpast

theorem served_ok {cached : Option String} {b x : Time} (hx : x = p.mem.clock) (hquick : x ≤ b + d)
    (h : CallOk clients json ttl d m p ⟨.looked cached, b⟩) :
    CallOk clients json ttl d m p ⟨served json x cached, b⟩ := by
  cases cached with
  | none => trivial
  | some text =>
      cases hload : json.load text with
      | none =>
          simp only [served, hload]
          split <;> trivial
      | some o =>
          have hlow : x - (ttl + 2 * d) ≤ b - (ttl + d) := by linarith
          simp only [served, hload]
          split
          · trivial
          · exact (h text o rfl hload).mono .refl hlow hx.ge

theorem ending_ok (hwf : m.WF) (hfree : ∀ k, (m.cell k).pending = none) {t : TxId} {b : Time}
    {stage : OverviewStage} (hc : CallOk clients json ttl d m p ⟨.computing t, b⟩)
    (hending : ending (p.thread t) = some stage) : CallOk clients json ttl d m p ⟨stage, b⟩ := by
  obtain ⟨p₀, a, hbefore, hafter, hfresh, rfl, hbegun, rest, ht⟩ := hc
  rw [ht, ending.eq_def] at hending
  split at hending
  · rename_i c o heq
    obtain ⟨rfl, rfl⟩ := Txn.Thread.mk.inj (Option.some.inj heq)
    obtain rfl := Option.some.inj hending
    exact exact_of_compute hwf hfree hbefore hafter hfresh hbegun ht
  · obtain rfl := Option.some.inj hending
    trivial
  · cases hending

theorem Inv.step (hwf : m.WF) (hfree : ∀ k, (m.cell k).pending = none)
    (hjson : ∀ o, json.load (json.dump o) = some o) (httl : 0 ≤ ttl)
    (h : Inv clients json ttl d m s) (hstep : step clients json ttl s ev = some s')
    (hquick : Quick d s ev) : Inv clients json ttl d m s' := by
  cases ev with
  | db ev =>
      obtain ⟨p, hp, rfl⟩ := Option.map_eq_some_iff.mp hstep
      exact h.pool hwf hfree hp
  | evict key =>
      cases hstep
      refine ⟨h.run, h.begun, h.calls, fun e he => h.cache e ?_⟩
      by_cases hk : STATS_CACHE_KEY = key
      · subst hk
        simp [Redis.del] at he
      · simpa [Redis.del, hk] using he
  | call i =>
      simp only [Dashboard.step] at hstep
      split at hstep
      · cases hstep
        exact h.put (le_refl _) trivial
      · cases hstep
  | get i arrives =>
      simp only [Dashboard.step] at hstep
      split at hstep
      · rename_i b hi
        cases hstep
        have hbegun : b ≤ s.clock := h.begun i _ hi
        refine h.goes_on hi (looked_ok h hjson (fun text htext => ?_) hbegun)
        cases arrives with
        | false => cases htext
        | true => exact htext
      · cases hstep
  | reply i =>
      simp only [Dashboard.step] at hstep
      split at hstep
      · rename_i cached b hi
        cases hstep
        exact h.goes_on hi (served_ok rfl (hquick _ hi) (h.calls i _ hi))
      · cases hstep
  | compute i t now rank =>
      simp only [Dashboard.step] at hstep
      split at hstep
      · rename_i b hi
        obtain ⟨p, hp, rfl⟩ := Option.map_eq_some_iff.mp hstep
        have hpool : Inv clients json ttl d m { s with pool := p } := h.pool hwf hfree hp
        have hbegun : b ≤ s.clock := h.begun i _ hi
        refine hpool.goes_on hi ?_
        cases Txn.System.steps_of_step hp with
        | start t c hfresh hmay =>
            exact ⟨s.pool, ⟨b, now, rank⟩, h.run, .tail .refl hp trivial, hfresh, rfl, hbegun, _,
              Txn.Pool.set_thread_self _ _ _ _ _⟩
      · cases hstep
  | collect i =>
      simp only [Dashboard.step] at hstep
      split at hstep
      · rename_i t b hi
        obtain ⟨stage, hending, rfl⟩ := Option.map_eq_some_iff.mp hstep
        exact h.goes_on hi (ending_ok hwf hfree (h.calls i _ hi) hending)
      · cases hstep
  | set i stored =>
      simp only [Dashboard.step] at hstep
      split at hstep
      · rename_i o b hi
        have hexact : Exact clients m s.pool o b s.clock := h.calls i _ hi
        have hnow : s.clock ≤ b + d := hquick _ hi
        have hput : Inv clients json ttl d m (s.put i ⟨.stored o, b⟩) :=
          h.goes_on hi hexact
        split at hstep
        · cases hstep
          refine ⟨hput.run, hput.begun, hput.calls, fun e he => ?_⟩
          obtain rfl : _ = e := by simpa [Redis.set] using he
          exact ⟨o, s.clock, rfl, rfl, le_refl _, hexact.mono .refl (by linarith) (le_refl _)⟩
        · cases hstep
          exact hput
      · cases hstep
  | finish i =>
      simp only [Dashboard.step] at hstep
      split at hstep
      · rename_i o b hi
        cases hstep
        have hexact : Exact clients m s.pool o b s.clock := h.calls i _ hi
        have hbegun : b ≤ s.clock := h.begun i _ hi
        have hnow : s.clock ≤ b + d := hquick _ hi
        have hlow : s.clock - (ttl + 2 * d) ≤ b := by linarith
        exact h.goes_on hi (hexact.mono .refl hlow (le_refl _))
      · cases hstep

-- A call served from the cache.
theorem step_get_cached {b : Time} {e : Redis.Entry String Time}
    (hcall : s.call i = some ⟨.called, b⟩) (he : s.redis STATS_CACHE_KEY = some e)
    (hlive : e.live s.clock = true) {text : String} (hvalue : e.value = text) :
    step clients json ttl s (.get i true) = some (s.put i ⟨.looked (some text), b⟩) := by
  have hget : Redis.get s.clock STATS_CACHE_KEY s.redis = some text := by
    rw [Redis.get, Redis.lookup_eq_some.mpr ⟨he, hlive⟩, Option.map_some, hvalue]
  simp only [Dashboard.step, hcall, if_true, hget]

theorem step_reply_cached {b now : Time} {text : String}
    (hcall : s.call i = some ⟨.looked (some text), b⟩) (hload : json.load text = some o)
    (hfull : text ≠ "") (hnow : s.clock = now) :
    step clients json ttl s (.reply i) = some (s.put i ⟨.returned o now, b⟩) := by
  simp only [Dashboard.step, hcall, served, hload, if_neg hfull, hnow]

theorem Inv.of_reaches (hwf : m.WF) (hfree : ∀ k, (m.cell k).pending = none)
    (hjson : ∀ o, json.load (json.dump o) = some o) (httl : 0 ≤ ttl)
    (h : Reaches (Dashboard.step clients json ttl) (fun s ev _ => Quick d s ev) (.init m) s) :
    Inv clients json ttl d m s := by
  refine h.invariant (P := Inv clients json ttl d m) ⟨.refl, ?_, ?_, ?_⟩ ?_
  · intro i c hc
    cases hc
  · intro i c hc
    cases hc
  · intro e he
    cases he
  · intro s ev s' _ hinv hstep hquick
    exact hinv.step hwf hfree hjson httl hstep hquick

end Dashboard

-- Every number of an overview was exact, in what was committed, at a moment no longer before the
-- answer than the TTL and twice the time a call takes.
theorem overview_staleness (hwf : m.WF) (hfree : ∀ k, (m.cell k).pending = none)
    (hjson : ∀ o, json.load (json.dump o) = some o) (httl : 0 ≤ ttl) {s : Dashboard C}
    (h : Reaches (Dashboard.step clients json ttl) (fun s ev _ => Dashboard.Quick d s ev) (.init m)
      s) {i : Nat} {answeredAt begunAt : Time}
    (hi : s.call i = some ⟨.returned o answeredAt, begunAt⟩) :
    Exact clients m s.pool o (answeredAt - (ttl + 2 * d)) answeredAt :=
  (Dashboard.Inv.of_reaches hwf hfree hjson httl h).calls i _ hi

section Example

def timeFields (before : String) (t : Time) (after : String) : List Numerals.Field :=
  [⟨before, t.num, "/"⟩, ⟨"", t.den, after⟩]

def pointFields (before : String) (p : ThroughputPoint) : List Numerals.Field :=
  timeFields (before ++ "\x7b\"minute\":\"") p.minute "\",\"succeeded\":" ++
    [⟨"", p.succeeded, ",\"failed\":"⟩, ⟨"", p.failed, "\x7d"⟩]

def pointsFields : List ThroughputPoint → List Numerals.Field
  | [] => []
  | p :: ps => pointFields "" p ++ ps.flatMap (pointFields ",")

-- The JSON of an overview. A time stands in it as the fraction of seconds that it is here.
def overviewFields (o : StatsOverview) : List Numerals.Field :=
  [⟨"\x7b\"counts_by_status\":\x7b\"PENDING\":", o.countsByStatus .pending, ",\"RUNNING\":"⟩,
    ⟨"", o.countsByStatus .running, ",\"SUCCEEDED\":"⟩,
    ⟨"", o.countsByStatus .succeeded, ",\"CANCELLED\":"⟩,
    ⟨"", o.countsByStatus .cancelled, ",\"DEAD\":"⟩,
    ⟨"", o.countsByStatus .dead, "\x7d,\"ready_now\":"⟩,
    ⟨"", o.readyNow, ",\"scheduled_later\":"⟩, ⟨"", o.scheduledLater, ",\"workers_online\":"⟩,
    ⟨"", o.workersOnline, ",\"dlq_size\":"⟩, ⟨"", o.dlqSize, ",\"throughput_last_hour\":["⟩] ++
  (pointsFields o.throughputLastHour ++ timeFields "],\"generated_at\":\"" o.generatedAt "\"\x7d")

def loadPoints : List Int → Option (List ThroughputPoint × Time)
  | [num, den] => some ([], num / den)
  | num :: den :: succeeded :: failed :: rest => (loadPoints rest).map fun r =>
      (⟨num / den, succeeded.toNat, failed.toNat⟩ :: r.1, r.2)
  | _ => none

def loadOverview : List Int → Option StatsOverview
  | pending :: running :: succeeded :: cancelled :: dead :: readyNow :: scheduledLater ::
      workersOnline :: dlqSize :: rest => (loadPoints rest).map fun r => {
        countsByStatus := fun
          | .pending => pending.toNat
          | .running => running.toNat
          | .succeeded => succeeded.toNat
          | .cancelled => cancelled.toNat
          | .dead => dead.toNat
        readyNow := readyNow.toNat
        scheduledLater := scheduledLater.toNat
        workersOnline := workersOnline.toNat
        dlqSize := dlqSize.toNat
        throughputLastHour := r.1
        generatedAt := r.2 }
  | _ => none

def exampleJson : OverviewJson where
  dump o := String.ofList ((overviewFields o).flatMap Numerals.Field.text)
  load text := loadOverview (Numerals.numbers text.toList)

section Text

variable {before : String} {f : Numerals.Field}

theorem apart_pointFields (p : ThroughputPoint) (hbefore : before = "" ∨ before = ",")
    (hf : f ∈ pointFields before p) : f.apart = true := by
  simp only [pointFields, timeFields, List.cons_append, List.nil_append, List.mem_cons,
    List.not_mem_nil, or_false] at hf
  rcases hf with rfl | rfl | rfl | rfl <;> simp only [Numerals.Field.apart]
  · rcases hbefore with rfl | rfl <;> decide
  · decide
  · decide
  · decide

theorem apart_pointsFields (ps : List ThroughputPoint) (hf : f ∈ pointsFields ps) :
    f.apart = true := by
  cases ps with
  | nil => cases hf
  | cons p ps =>
      rcases List.mem_append.mp hf with hf | hf
      · exact apart_pointFields p (.inl rfl) hf
      · obtain ⟨q, -, hq⟩ := List.mem_flatMap.mp hf
        exact apart_pointFields q (.inr rfl) hq

theorem apart_overviewFields (o : StatsOverview) (hf : f ∈ overviewFields o) : f.apart = true := by
  rcases List.mem_append.mp hf with hf | hf
  · simp only [List.mem_cons, List.not_mem_nil, or_false] at hf
    rcases hf with rfl | rfl | rfl | rfl | rfl | rfl | rfl | rfl | rfl <;>
      simp only [Numerals.Field.apart] <;> decide
  · rcases List.mem_append.mp hf with hf | hf
    · exact apart_pointsFields _ hf
    · simp only [timeFields, List.mem_cons, List.not_mem_nil, or_false] at hf
      rcases hf with rfl | rfl <;> simp only [Numerals.Field.apart] <;> decide

def pointNumbers (p : ThroughputPoint) : List Int :=
  [p.minute.num, p.minute.den, p.succeeded, p.failed]

theorem map_pointsFields (ps : List ThroughputPoint) :
    (pointsFields ps).map Numerals.Field.number = ps.flatMap pointNumbers := by
  cases ps with
  | nil => rfl
  | cons p ps =>
      rw [pointsFields, List.map_append, List.map_flatMap]
      rfl

theorem loadPoints_flatMap (ps : List ThroughputPoint) (t : Time) :
    loadPoints (ps.flatMap pointNumbers ++ [t.num, (t.den : Int)]) = some (ps, t) := by
  induction ps with
  | nil => simp [loadPoints, Rat.num_div_den]
  | cons p ps ih =>
      rw [List.flatMap_cons, List.append_assoc, pointNumbers]
      simp only [List.cons_append, List.nil_append, loadPoints]
      rw [ih]
      simp [Rat.num_div_den]

theorem load_dump (o : StatsOverview) : exampleJson.load (exampleJson.dump o) = some o := by
  have hcounts : (fun
      | .pending => o.countsByStatus .pending
      | .running => o.countsByStatus .running
      | .succeeded => o.countsByStatus .succeeded
      | .cancelled => o.countsByStatus .cancelled
      | .dead => o.countsByStatus .dead : JobStatus → Nat) = o.countsByStatus := by
    funext status
    cases status <;> rfl
  have hpoints := loadPoints_flatMap o.throughputLastHour o.generatedAt
  simp only [exampleJson, String.toList_ofList]
  rw [Numerals.numbers_flatMap fun f hf => apart_overviewFields o hf, overviewFields]
  simp only [List.map_append, map_pointsFields, timeFields, List.map_cons, List.map_nil,
    List.cons_append, List.nil_append, loadOverview]
  rw [hpoints]
  simp only [Option.map_some, Int.toNat_natCast, hcounts]

theorem dump_ne_empty (o : StatsOverview) : exampleJson.dump o ≠ "" := by
  intro h
  have hload := load_dump o
  rw [h] at hload
  cases hload

end Text

def exampleClients : Clients Call := ⟨fun _ _ => true, fun t c => do
  let _ ← c.body t
  return ()⟩

def quickly (d : Time) (s : Dashboard Call) : DashboardEvent Call → Bool
  | .reply i | .set i _ | .finish i => (s.call i).all fun c => s.clock ≤ c.begunAt + d
  | _ => true

def dbEvents (t : TxId) (c : StatsCall Call) (n : Nat) : List (DashboardEvent Call) :=
  .db (.start t c) :: List.replicate n (.db (.run t))

-- A job is created and an overview computed; two seconds later the next one is asked for.
def askedEvents : List (DashboardEvent Call) :=
  dbEvents 1 (.inl (.enqueue exampleUser (exampleBody none []) ⟨7, 8, 9⟩)) 8 ++
    [.call 0, .get 0 true, .reply 0, .compute 0 2 0 fun _ => 0] ++
      List.replicate 5 (.db (.run 2)) ++
        [.collect 0, .set 0 true, .finish 0, .db (.tick 2), .call 1]

def askedState : Dashboard Call :=
  (Txn.runAll (Dashboard.step exampleClients exampleJson 3) (fun s ev _ => quickly 1 s ev)
    (.init exampleDb) askedEvents).getD (.init exampleDb)

theorem quickly_sound {d : Time} {s : Dashboard Call} {ev : DashboardEvent Call}
    (h : quickly d s ev = true) : Dashboard.Quick d s ev := by
  have hcall : ∀ i, (s.call i).all (fun c => s.clock ≤ c.begunAt + d) = true →
      ∀ c, s.call i = some c → s.clock ≤ c.begunAt + d := by
    intro i hall c hc
    rw [hc, Option.all_some] at hall
    exact of_decide_eq_true hall
  cases ev with
  | reply i => exact hcall i h
  | set i stored => exact hcall i h
  | finish i => exact hcall i h
  | _ => trivial

theorem reaches_askedState : Reaches (Dashboard.step exampleClients exampleJson 3)
    (fun s ev _ => Dashboard.Quick 1 s ev) (.init exampleDb) askedState :=
  (Reaches.getD_runAll (fun s ev _ => quickly 1 s ev) askedEvents).mono fun _ _ _ h =>
    quickly_sound h

def calledAt (s : Dashboard Call) (i : Nat) : Option Time :=
  match s.call i with
  | some ⟨.called, begunAt⟩ => some begunAt
  | _ => none

theorem call_of_calledAt {s : Dashboard Call} {i : Nat} {begunAt : Time}
    (h : calledAt s i = some begunAt) : s.call i = some ⟨.called, begunAt⟩ := by
  rw [calledAt] at h
  split at h
  · rename_i b hcall
    obtain rfl := Option.some.inj h
    exact hcall
  · cases h

-- The second answer is the first one, from the cache.
theorem overview_staleness_cached : ∃ s o,
    Reaches (Dashboard.step exampleClients exampleJson 3) (fun s ev _ => Dashboard.Quick 1 s ev)
      (.init exampleDb) s ∧ s.call 1 = some ⟨.returned o 2, 2⟩ ∧
        Exact exampleClients exampleDb s.pool o (2 - (3 + 2 * 1)) 2 := by
  have hinv := Dashboard.Inv.of_reaches exampleDb_initial.wf exampleDb_initial.unlocked load_dump
    (by norm_num) reaches_askedState
  have hclock : askedState.clock = 2 := by decide +kernel
  have hcall : askedState.call 1 = some ⟨.called, 2⟩ := call_of_calledAt (by decide +kernel)
  have huntil : (askedState.redis STATS_CACHE_KEY).map (·.expiresAt) = some (some 3) := by
    decide +kernel
  obtain ⟨e, he, hexpires⟩ := Option.map_eq_some_iff.mp huntil
  obtain ⟨o, x, hvalue, -⟩ := hinv.cache e he
  have hlive : e.live askedState.clock = true := by
    rw [Redis.Entry.live, hexpires, hclock]
    decide +kernel
  -- Redis answers the GET, and the call returns what it is told
  let looked := askedState.put 1 ⟨.looked (some (exampleJson.dump o)), 2⟩
  have hget : Dashboard.step exampleClients exampleJson 3 askedState (.get 1 true) = some looked :=
    Dashboard.step_get_cached hcall he hlive hvalue
  have hlooked : looked.call 1 = some ⟨.looked (some (exampleJson.dump o)), 2⟩ := by
    simp [looked, Dashboard.put]
  have hreply : Dashboard.step exampleClients exampleJson 3 looked (.reply 1) =
      some (looked.put 1 ⟨.returned o 2, 2⟩) :=
    Dashboard.step_reply_cached hlooked (load_dump o) (dump_ne_empty o) hclock
  have hquick : Dashboard.Quick 1 looked (.reply 1) := by
    intro c hc
    obtain rfl := Option.some.inj (hlooked.symm.trans hc)
    exact (hclock.trans_le (by norm_num) : askedState.clock ≤ 2 + 1)
  have hreach := (Reaches.tail reaches_askedState hget trivial).tail hreply hquick
  have hanswer : (looked.put 1 ⟨.returned o 2, 2⟩).call 1 =
      some ⟨.returned o 2, 2⟩ := by
    simp [Dashboard.put]
  exact ⟨_, o, hreach, hanswer, overview_staleness exampleDb_initial.wf
    exampleDb_initial.unlocked load_dump (by norm_num) hreach hanswer⟩

end Example

end Chronos
