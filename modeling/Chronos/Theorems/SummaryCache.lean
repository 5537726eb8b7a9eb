import Chronos.Events.SummaryCache

namespace Chronos

open Txn (Reaches)

variable {enabled : Bool} {digest : String → String} {analyze : SummaryId → Analysis}
  {s s' : Summaries}
  {ev : SummaryEvent} {i j : SummaryId} {c : SummaryCall}

namespace Summaries

-- A call with this error text has come to this summary.
def Computed (analyze : SummaryId → Analysis) (s : Summaries) (errorText text : String) : Prop :=
  ∃ j d, s.call j = some d ∧ d.args.errorText = errorText ∧ d.stage = .returned false (some text) ∧
    (analyze j).of d.args = some text

-- What a call has in hand is the analysis of its own arguments, or an answer of the cache that a
-- call with the same error text has come to.
def Sound (analyze : SummaryId → Analysis) (s : Summaries) (i : SummaryId) (c : SummaryCall) :
    Prop :=
  match c.stage with
  | .analyzed text => (analyze i).of c.args = some text
  | .returned false (some text) => (analyze i).of c.args = some text
  | .returned true (some text) => Computed analyze s c.args.errorText text
  | _ => True

structure Inv (digest : String → String) (analyze : SummaryId → Analysis) (s : Summaries) :
    Prop where
  calls : ∀ i c, s.call i = some c → Sound analyze s i c
  cache : ∀ k e, s.redis k = some e →
    ∃ errorText, cacheKey digest errorText = k ∧ Computed analyze s errorText e.value

theorem cacheKey_injective (h : Function.Injective digest) :
    Function.Injective (cacheKey digest) := by
  intro a b hab
  exact h ((String.append_right_inj AI_CACHE_PREFIX).mp hab)

-- Calls that have not returned move on.
theorem Computed.put {errorText text : String} (h : Computed analyze s errorText text)
    {c' : SummaryCall} (hopen : ∀ c, s.call i = some c → ∀ cached r, c.stage ≠ .returned cached r) :
    Computed analyze (s.put i c') errorText text := by
  obtain ⟨j, d, hd, herror, hstage, hof⟩ := h
  have hj : j ≠ i := by
    intro hj
    exact hopen d (hj ▸ hd) _ _ hstage
  exact ⟨j, d, by simp [Summaries.put, hj, hd], herror, hstage, hof⟩

theorem Sound.put (h : Sound analyze s j c) {c' : SummaryCall}
    (hopen : ∀ c, s.call i = some c → ∀ cached r, c.stage ≠ .returned cached r) :
    Sound analyze (s.put i c') j c := by
  obtain ⟨args, stage⟩ := c
  cases stage with
  | returned cached result =>
      cases cached with
      | false => cases result <;> exact h
      | true =>
          cases result with
          | none => trivial
          | some text => exact Computed.put h hopen
  | _ => exact h

theorem Inv.put (h : Inv digest analyze s) {c' : SummaryCall} (hsound : Sound analyze s i c')
    (hopen : ∀ c, s.call i = some c → ∀ cached r, c.stage ≠ .returned cached r) :
    Inv digest analyze (s.put i c') := by
  refine ⟨fun j d hd => ?_, fun k e he => ?_⟩
  · by_cases hj : j = i
    · subst hj
      obtain rfl : c' = d := by simpa [Summaries.put] using hd
      exact hsound.put hopen
    · have hd' : s.call j = some d := by simpa [Summaries.put, hj] using hd
      exact (h.calls j d hd').put hopen
  · obtain ⟨errorText, hk, hcomputed⟩ := h.cache k e he
    exact ⟨errorText, hk, hcomputed.put hopen⟩

theorem open_of {args : SummaryArgs} {stage : SummaryStage} (hi : s.call i = some ⟨args, stage⟩)
    (hstage : ∀ cached r, stage ≠ .returned cached r) :
    ∀ c, s.call i = some c → ∀ cached r, c.stage ≠ .returned cached r := by
  intro c hc cached r
  obtain rfl := Option.some.inj (hi.symm.trans hc)
  exact hstage cached r

theorem Inv.step (hdigest : Function.Injective digest) (h : Inv digest analyze s)
    (hstep : step enabled digest analyze s ev = some s') : Inv digest analyze s' := by
  cases ev with
  | tick now =>
      simp only [Summaries.step] at hstep
      split at hstep
      · cases hstep
        exact ⟨h.calls, h.cache⟩
      · cases hstep
  | evict key =>
      cases hstep
      refine ⟨h.calls, fun k e he => h.cache k e ?_⟩
      by_cases hk : k = key
      · subst hk
        simp [Redis.del] at he
      · simpa [Redis.del, hk] using he
  | call i args =>
      simp only [Summaries.step] at hstep
      split at hstep
      · rename_i hi
        cases hstep
        refine h.put ?_ fun c hc => ?_
        · cases enabled <;> trivial
        · rw [hi] at hc
          cases hc
      · cases hstep
  | get i arrives =>
      simp only [Summaries.step] at hstep
      split at hstep
      · rename_i args hi
        have hopen := open_of hi (by simp)
        split at hstep
        · rename_i text hcached
          split at hstep
          · cases hstep
            refine h.put ?_ hopen
            cases arrives with
            | false => cases hcached
            | true =>
                obtain ⟨e, he, rfl⟩ := Option.map_eq_some_iff.mp hcached
                obtain ⟨errorText, hkey, hcomputed⟩ := h.cache _ e (Redis.lookup_eq_some.mp he).1
                obtain rfl := cacheKey_injective hdigest hkey
                exact hcomputed
          · cases hstep
            exact h.put trivial hopen
        · cases hstep
          exact h.put trivial hopen
      · cases hstep
  | analyze i fails =>
      simp only [Summaries.step] at hstep
      split at hstep
      · rename_i args hi
        have hopen := open_of hi (by simp)
        split at hstep
        · rename_i text hsummary
          cases hstep
          refine h.put ?_ hopen
          cases fails with
          | true => cases hsummary
          | false => exact (Option.filter_eq_some_iff.mp hsummary).1
        · cases hstep
          exact h.put trivial hopen
      · cases hstep
  | set i stored =>
      simp only [Summaries.step] at hstep
      split at hstep
      · rename_i args text hi
        have hof : (analyze i).of args = some text := h.calls i _ hi
        have hput : Inv digest analyze (s.put i ⟨args, .returned false (some text)⟩) :=
          h.put hof (open_of hi (by simp))
        split at hstep
        · cases hstep
          refine ⟨hput.calls, fun k e he => ?_⟩
          by_cases hk : k = cacheKey digest args.errorText
          · subst hk
            obtain rfl : _ = e := by simpa [Redis.set] using he
            exact ⟨_, rfl, i, ⟨args, .returned false (some text)⟩, by simp [Summaries.put], rfl, rfl,
              hof⟩
          · have he' : s.redis k = some e := by simpa [Redis.set, hk] using he
            exact hput.cache k e he'
        · cases hstep
          exact hput
      · cases hstep

theorem Inv.of_reaches (hdigest : Function.Injective digest) {now : ℚ}
    (hrun : Reaches (Summaries.step enabled digest analyze) (fun _ _ _ => True) (initial now) s) :
    Inv digest analyze s := by
  refine hrun.invariant ⟨fun i c hc => (by cases hc), fun k e he => (by cases he)⟩ ?_
  exact fun s ev s' _ h hstep _ => h.step hdigest hstep

end Summaries

open Summaries

-- A call returns None, the analysis of its own arguments, or from the cache the analysis that
-- another call with the same error text has come to.
theorem summaries_by_error (hdigest : Function.Injective digest) {now : ℚ}
    (hrun : Reaches (step enabled digest analyze) (fun _ _ _ => True) (initial now) s) :
    ∀ i args cached text, s.call i = some ⟨args, .returned cached (some text)⟩ →
      (cached = false ∧ (analyze i).of args = some text) ∨
      (cached = true ∧ ∃ j d, j ≠ i ∧ s.call j = some d ∧ d.args.errorText = args.errorText ∧
        d.stage = .returned false (some text) ∧ (analyze j).of d.args = some text) := by
  intro i args cached text hi
  have hsound : Sound analyze s i ⟨args, .returned cached (some text)⟩ :=
    (Inv.of_reaches hdigest hrun).calls i _ hi
  cases cached with
  | false => exact .inl ⟨rfl, hsound⟩
  | true =>
      obtain ⟨j, d, hd, herror, hstage, hof⟩ := hsound
      refine .inr ⟨rfl, j, d, fun hj => ?_, hd, herror, hstage, hof⟩
      obtain rfl := Option.some.inj (hi.symm.trans (hj ▸ hd))
      cases hstage

section Example

-- An analysis that says which task has failed, and how often.
def exampleAnalysis : Analysis := fun taskName errorText attemptCount =>
  some (taskName ++ " failed " ++ toString attemptCount ++ " times: " ++ errorText)

def timeout (taskName : String) (attemptCount : Int) : SummaryArgs :=
  ⟨"TimeoutError", taskName, attemptCount⟩

-- Two jobs of different tasks fail with the same error.
def twoFailures : List SummaryEvent :=
  [.call 1 (timeout "send_email" 3), .get 1 true, .analyze 1 false, .set 1 true,
    .call 2 (timeout "export" 5), .get 2 true]

def summariesAfter (events : List SummaryEvent) : Summaries :=
  (Txn.runAll (step true id fun _ => exampleAnalysis) (fun _ _ _ => true) (initial 0)
    events).getD (initial 0)

theorem run_summariesAfter (events : List SummaryEvent) :
    Reaches (step true id fun _ => exampleAnalysis) (fun _ _ _ => True) (initial 0)
      (summariesAfter events) :=
  (Reaches.getD_runAll (fun _ _ _ => true) events).mono fun _ _ _ _ => trivial

-- The second job is told that it is the first that has failed.
theorem summary_of_another_task : ¬ ∀ digest (analyze : Analysis) s, Function.Injective digest →
    Reaches (step true digest fun _ => analyze) (fun _ _ _ => True) (initial 0) s →
    ∀ i args cached text, s.call i = some ⟨args, .returned cached (some text)⟩ →
      analyze.of args = some text := by
  intro h
  have hof := h id exampleAnalysis (summariesAfter twoFailures) Function.injective_id
    (run_summariesAfter twoFailures) 2 (timeout "export" 5) true
    "send_email failed 3 times: TimeoutError" (by decide +kernel)
  revert hof
  decide +kernel

theorem summaries_by_error_hit :
    ∃ j d, j ≠ 2 ∧ (summariesAfter twoFailures).call j = some d ∧
      d.args.errorText = "TimeoutError" ∧
      exampleAnalysis.of d.args = some "send_email failed 3 times: TimeoutError" := by
  rcases @summaries_by_error true id (fun _ => exampleAnalysis) _ Function.injective_id 0
    (run_summariesAfter twoFailures) 2 (timeout "export" 5) true
    "send_email failed 3 times: TimeoutError" (by decide +kernel)
    with ⟨hfalse, -⟩ | ⟨-, j, d, hj, hd, herror, -, hof⟩
  · cases hfalse
  · exact ⟨j, d, hj, hd, herror, hof⟩

end Example

end Chronos
