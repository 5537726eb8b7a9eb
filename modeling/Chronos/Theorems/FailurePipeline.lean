import Chronos.Services.FailurePipeline
import Chronos.Theorems.SummaryCache

namespace Chronos

namespace FailurePipeline

open Dialogue (Held Talk)

variable {E : Type} {lib : TextLibrary} {llm : Llm E} {graph : LangGraph E} {limit : Nat}
  {taskName errorText : String} {attemptCount : Int} {state : FailureState}
  {said : List (Messages × Content)}

-- `sub` stands in `s`, word for word.
def Quotes (s sub : String) : Prop := ∃ before after, s = before ++ sub ++ after

theorem Quotes.refl (s : String) : Quotes s s := ⟨"", "", by simp⟩

theorem Quotes.left {s sub : String} (h : Quotes s sub) (t : String) : Quotes (s ++ t) sub := by
  obtain ⟨before, after, rfl⟩ := h
  exact ⟨before, after ++ t, by simp [String.append_assoc]⟩

theorem Quotes.right {s sub : String} (h : Quotes s sub) (t : String) : Quotes (t ++ s) sub := by
  obtain ⟨before, after, rfl⟩ := h
  exact ⟨t ++ before, after, by simp [String.append_assoc]⟩

-- Who is asked before the remediation agent, and who in all.
def before (category : String) : List String :=
  if category = "transient" then [TRIAGE_PROMPT] else [TRIAGE_PROMPT, DIAGNOSE_PROMPT]

def agents (category : String) : List String :=
  before category ++ [REMEDIATE_PROMPT, COMPOSE_PROMPT]

def asked (said : List (Messages × Content)) : List String := said.map fun x => x.1.system

-- What holds of a dialogue at any time: it is about the task and its error, and an agent after
-- triage is quoted to all those after it.
structure Coherent (lib : TextLibrary) (llm : Llm E) (taskName errorText : String)
    (said : List (Messages × Content)) : Prop where
  held : Held llm said
  named : ∀ x ∈ said, Quotes x.1.user taskName
  shown : ∀ x ∈ said.head?, Quotes x.1.user (excerpt errorText)
  quoted : said.tail.Pairwise fun x y => Quotes y.1.user (lib.text x.2)

-- What the agents have found so far is in the state.
structure Known (lib : TextLibrary) (llm : Llm E) (taskName errorText : String) (attemptCount : Int)
    (state : FailureState) (said : List (Messages × Content)) : Prop
    extends Coherent lib llm taskName errorText said where
  task : state.taskName = some taskName
  error : state.errorText = some errorText
  attempts : state.attemptCount = some attemptCount
  kept : ∀ x ∈ said.tail,
    state.diagnosis = some (lib.text x.2) ∨ state.remediation = some (lib.text x.2)

-- The category is what the first answer is taken for.
def Triaged (lib : TextLibrary) (said : List (Messages × Content)) (category : String) : Prop :=
  ∃ first later, said = first :: later ∧ categoryOf (lib.lower (lib.text first.2)) = category

def Stage (lib : TextLibrary) (state : FailureState) (said : List (Messages × Content)) :
    Node → Prop
  | .triage => said = [] ∧ state.diagnosis = none ∧ state.remediation = none
  | .diagnose => ∃ category, Triaged lib said category ∧ category ≠ "transient" ∧
      state.category = some category ∧ state.diagnosis = none ∧ state.remediation = none ∧
        asked said = [TRIAGE_PROMPT]
  | .remediate => ∃ category, Triaged lib said category ∧ state.category = some category ∧
      state.remediation = none ∧ asked said = before category
  | .compose => ∃ category remediation, Triaged lib said category ∧
      state.category = some category ∧ state.remediation = some remediation ∧
        asked said = before category ++ [REMEDIATE_PROMPT]

-- The last agent's answer, under the category.
def Note (lib : TextLibrary) (category : String) (said : List (Messages × Content))
    (summary : String) : Prop :=
  ∃ earlier prompt answer, said = earlier ++ [(prompt, answer)] ∧
    summary = "[" ++ category ++ "] " ++ lib.text answer

structure Summarized (lib : TextLibrary) (llm : Llm E) (taskName errorText : String)
    (result : Option String) (said : List (Messages × Content)) : Prop
    extends Coherent lib llm taskName errorText said where
  note : ∃ category ∈ CATEGORIES, ∃ summary, Triaged lib said category ∧ result = some summary ∧
    Note lib category said summary ∧ asked said = agents category

-- The LLM has raised it, when it was asked as the one after the others.
structure Failed (lib : TextLibrary) (llm : Llm E) (taskName errorText : String) (e : GraphError E)
    (said : List (Messages × Content)) : Prop extends Coherent lib llm taskName errorText said where
  raised : ∃ x prompt category, e = .llm x ∧ llm said prompt = .error x ∧
    (said = [] ∨ Triaged lib said category) ∧ asked said ++ [prompt.system] <+: agents category

def rank : Node → Nat
  | .triage => 3
  | .diagnose => 2
  | .remediate => 1
  | .compose => 0

theorem categoryOf_mem (raw : String) : categoryOf raw ∈ CATEGORIES := by
  rw [categoryOf]
  cases h : CATEGORIES.find? fun c => occursIn c raw with
  | some c => exact List.mem_of_find?_eq_some h
  | none => simp [CATEGORIES]

-- One more question that quotes what is in the state.
theorem Known.ask (h : Known lib llm taskName errorText attemptCount state said) {q : Messages}
    {a : Content} (ha : llm said q = .ok a) (htask : Quotes q.user taskName)
    (herror : said = [] → Quotes q.user (excerpt errorText))
    (hdiagnosis : ∀ t, state.diagnosis = some t → Quotes q.user t)
    (hremediation : ∀ t, state.remediation = some t → Quotes q.user t) :
    Coherent lib llm taskName errorText (said ++ [(q, a)]) := by
  refine ⟨h.held.snoc ha, fun x hx => ?_, fun x hx => ?_, ?_⟩
  · rcases List.mem_append.mp hx with hx | hx
    · exact h.named x hx
    · obtain rfl := List.mem_singleton.mp hx
      exact htask
  · cases said with
    | nil =>
        obtain rfl := Option.some.inj hx
        exact herror rfl
    | cons first said => exact h.shown x hx
  · cases said with
    | nil => exact List.Pairwise.nil
    | cons first said =>
        refine List.pairwise_append.mpr ⟨h.quoted, List.pairwise_singleton _ _, fun x hx y hy => ?_⟩
        obtain rfl := List.mem_singleton.mp hy
        rcases h.kept x hx with hx | hx
        · exact hdiagnosis _ hx
        · exact hremediation _ hx

theorem mem_tail_concat {α : Type} {l : List α} {x y : α} (h : x ∈ (l ++ [y]).tail) :
    x ∈ l.tail ∨ l ≠ [] ∧ x = y := by
  cases l with
  | nil => cases h
  | cons first l =>
      rcases List.mem_append.mp h with h | h
      · exact .inl h
      · exact .inr ⟨by simp, List.mem_singleton.mp h⟩

-- The inputs stay, what is found is added.
theorem Known.update (h : Known lib llm taskName errorText attemptCount state said)
    {returned : FailureState} {q : Messages} {a : Content}
    (hcoherent : Coherent lib llm taskName errorText (said ++ [(q, a)]))
    (hinputs : returned.taskName = none ∧ returned.errorText = none ∧ returned.attemptCount = none)
    (hdiagnosis : state.diagnosis = none ∨ returned.diagnosis = none)
    (hremediation : state.remediation = none ∨ returned.remediation = none)
    (hfound : said ≠ [] → returned.diagnosis = some (lib.text a) ∨
      returned.remediation = some (lib.text a)) :
    Known lib llm taskName errorText attemptCount (state.update returned) (said ++ [(q, a)]) := by
  obtain ⟨htask, herror, hattempts⟩ := hinputs
  refine ⟨hcoherent, ?_, ?_, ?_, fun x hx => ?_⟩
  · simp [FailureState.update, htask, h.task]
  · simp [FailureState.update, herror, h.error]
  · simp [FailureState.update, hattempts, h.attempts]
  · rcases mem_tail_concat hx with hx | ⟨hsaid, rfl⟩
    · rcases h.kept x hx with hold | hold
      · have hnone : returned.diagnosis = none := by simpa [hold] using hdiagnosis
        exact .inl (by simp [FailureState.update, hnone, hold])
      · have hnone : returned.remediation = none := by simpa [hold] using hremediation
        exact .inr (by simp [FailureState.update, hnone, hold])
    · rcases hfound hsaid with hnew | hnew
      · exact .inl (by simp [FailureState.update, hnew])
      · exact .inr (by simp [FailureState.update, hnew])

@[simp] theorem item_some {α : Type} (key : String) (r : α) :
    (item key (some r) : Agent E α) = pure r := rfl

@[simp] theorem asked_concat (x : Messages × Content) :
    asked (said ++ [x]) = asked said ++ [x.1.system] := by
  simp [asked]

theorem Triaged.concat {category : String} (h : Triaged lib said category)
    (x : Messages × Content) : Triaged lib (said ++ [x]) category := by
  obtain ⟨first, later, rfl, hcategory⟩ := h
  exact ⟨first, later ++ [x], rfl, hcategory⟩

theorem Triaged.ne_nil {category : String} (h : Triaged lib said category) : said ≠ [] := by
  obtain ⟨first, later, rfl, -⟩ := h
  simp

theorem Triaged.mem {category : String} (h : Triaged lib said category) :
    category ∈ CATEGORIES := by
  obtain ⟨first, later, -, rfl⟩ := h
  exact categoryOf_mem _

theorem triage_first (category : String) : [TRIAGE_PROMPT] <+: agents category := by
  rw [agents, before]
  split <;> simp

-- The rule for asking: `system` is the next agent on the way of the category.
theorem wp_ainvoke (h : Known lib llm taskName errorText attemptCount state said)
    {system user category : String} (htask : Quotes user taskName)
    (hdiagnosis : ∀ t, state.diagnosis = some t → Quotes user t)
    (hremediation : ∀ t, state.remediation = some t → Quotes user t)
    {post : Content → List (Messages × Content) → Prop}
    (hpost : ∀ a, Coherent lib llm taskName errorText (said ++ [(⟨system, user⟩, a)]) →
      post a (said ++ [(⟨system, user⟩, a)]))
    (htriaged : said = [] ∧ Quotes user (excerpt errorText) ∨ Triaged lib said category)
    (hnext : asked said ++ [system] <+: agents category) :
    (ainvoke llm system user).wp post (Failed lib llm taskName errorText) said := by
  refine Talk.wp_ask _ _ _ (fun a ha => ?_) fun e he => ?_
  · refine hpost a (h.ask ha htask (fun hnil => ?_) hdiagnosis hremediation)
    rcases htriaged with ⟨-, herror⟩ | htriaged
    · exact herror
    · exact absurd hnil htriaged.ne_nil
  · exact ⟨h.toCoherent, e, _, category, rfl, he, htriaged.imp And.left id, hnext⟩

def Inv (lib : TextLibrary) (llm : Llm E) (taskName errorText : String) (attemptCount : Int)
    (n : Node) (state : FailureState) (said : List (Messages × Content)) : Prop :=
  Known lib llm taskName errorText attemptCount state said ∧ Stage lib state said n

abbrev Visits (lib : TextLibrary) (llm : Llm E) (taskName errorText : String) (attemptCount : Int)
    (n : Node) (state : FailureState) (said : List (Messages × Content)) : Prop :=
  ((buildFailureGraph lib llm).visit n state).wp
    (StateGraph.Leaves (Inv lib llm taskName errorText attemptCount)
      (fun state => Summarized lib llm taskName errorText state.summary) rank n)
    (Failed lib llm taskName errorText) said

theorem visit_triage (h : Known lib llm taskName errorText attemptCount state said)
    (hstage : Stage lib state said .triage) :
    Visits lib llm taskName errorText attemptCount .triage state said := by
  obtain ⟨rfl, hdiagnosis, hremediation⟩ := hstage
  simp only [Visits, StateGraph.visit, StateGraph.Edge.follow, buildFailureGraph, triage,
    Talk.wp_bind, h.task, h.attempts, h.error, item_some, Talk.wp_pure]
  refine wp_ainvoke h (.left (.right (.refl _) _) _) (by simp [hdiagnosis]) (by simp [hremediation])
    (fun a hcoherent => ?_) (.inl ⟨rfl, .right (.right (.refl _) _) _⟩) (triage_first "transient")
  obtain ⟨category, hcategory⟩ : ∃ c, categoryOf (lib.lower (lib.text a)) = c := ⟨_, rfl⟩
  have hknown : Known lib llm taskName errorText attemptCount
      (state.update { FailureState.empty with category := category }) _ :=
    h.update hcoherent ⟨rfl, rfl, rfl⟩ (.inr rfl) (.inr rfl) (by simp)
  have htriaged : ∀ q, Triaged lib ([] ++ [(q, a)]) category :=
    fun q => ⟨(q, a), [], rfl, hcategory⟩
  simp only [routeAfterTriage, Talk.wp_pure, Talk.wp_bind, FailureState.update, Option.some_or,
    item_some, hcategory]
  refine ⟨by simp, fun n hn => ?_⟩
  obtain rfl := Option.some.inj hn
  by_cases htransient : category = "transient"
  · rw [if_pos htransient]
    refine ⟨by decide, hknown, category, htriaged _, rfl, hremediation, ?_⟩
    rw [before, if_pos htransient]
    rfl
  · rw [if_neg htransient]
    exact ⟨by decide, hknown, category, htriaged _, htransient, rfl, hdiagnosis, hremediation, rfl⟩

theorem visit_diagnose (h : Known lib llm taskName errorText attemptCount state said)
    (hstage : Stage lib state said .diagnose) :
    Visits lib llm taskName errorText attemptCount .diagnose state said := by
  obtain ⟨category, htriaged, hcategory, hstate, hdiagnosis, hremediation, hasked⟩ := hstage
  have hbefore : before category = [TRIAGE_PROMPT, DIAGNOSE_PROMPT] := if_neg hcategory
  simp only [Visits, StateGraph.visit, StateGraph.Edge.follow, buildFailureGraph, diagnose,
    Talk.wp_bind, h.task, h.error, item_some, Talk.wp_pure]
  refine wp_ainvoke h (.left (.right (.refl _) _) _) (by simp [hdiagnosis]) (by simp [hremediation])
    (fun a hcoherent => ?_) (.inr htriaged) (by simp [hasked, agents, hbefore])
  have hknown : Known lib llm taskName errorText attemptCount
      (state.update { FailureState.empty with diagnosis := lib.text a }) _ :=
    h.update hcoherent ⟨rfl, rfl, rfl⟩ (.inl hdiagnosis) (.inr rfl) fun _ => .inl rfl
  refine ⟨by simp, fun n hn => ?_⟩
  obtain rfl := Option.some.inj hn
  refine ⟨by decide, hknown, category, htriaged.concat _, hstate, hremediation, ?_⟩
  rw [asked_concat, hasked, hbefore]
  rfl

theorem visit_remediate (h : Known lib llm taskName errorText attemptCount state said)
    (hstage : Stage lib state said .remediate) :
    Visits lib llm taskName errorText attemptCount .remediate state said := by
  obtain ⟨category, htriaged, hstate, hremediation, hasked⟩ := hstage
  simp only [Visits, StateGraph.visit, StateGraph.Edge.follow, buildFailureGraph, remediate,
    Talk.wp_bind, h.task, h.attempts, hstate, item_some, Talk.wp_pure]
  refine wp_ainvoke h (.right (.left (.right (.refl _) _) _) _) (fun t ht => ?_)
    (by simp [hremediation]) (fun a hcoherent => ?_) (.inr htriaged) (by simp [hasked, agents])
  · rw [ht]
    exact .left (.right (.refl _) _) _
  · have hknown : Known lib llm taskName errorText attemptCount
        (state.update { FailureState.empty with remediation := lib.text a }) _ :=
      h.update hcoherent ⟨rfl, rfl, rfl⟩ (.inr rfl) (.inl hremediation) fun _ => .inr rfl
    refine ⟨by simp, fun n hn => ?_⟩
    obtain rfl := Option.some.inj hn
    refine ⟨by decide, hknown, category, _, htriaged.concat _, hstate, rfl, ?_⟩
    rw [asked_concat, hasked]

theorem visit_compose (h : Known lib llm taskName errorText attemptCount state said)
    (hstage : Stage lib state said .compose) :
    Visits lib llm taskName errorText attemptCount .compose state said := by
  obtain ⟨category, remediation, htriaged, hstate, hremediation, hasked⟩ := hstage
  simp only [Visits, StateGraph.visit, StateGraph.Edge.follow, buildFailureGraph, compose,
    Talk.wp_bind, h.task, h.attempts, hstate, hremediation, item_some, Talk.wp_pure]
  refine wp_ainvoke h (.left (.right (.refl _) _) _) (fun t ht => ?_) (fun t ht => ?_)
    (fun a hcoherent => ?_) (.inr htriaged) (by simp [hasked, agents])
  · rw [ht]
    exact .right (.left (.right (.refl _) _) _) _
  · obtain rfl := Option.some.inj (hremediation.symm.trans ht)
    exact .right (.right (.right (.refl _) _) _) _
  · refine ⟨fun _ => ⟨hcoherent, category, htriaged.mem, _, htriaged.concat _, rfl,
      ⟨said, _, a, rfl, rfl⟩, ?_⟩, by simp⟩
    rw [asked_concat, hasked, agents, List.append_assoc]
    rfl

-- Each visit comes closer to the end, so the recursion limit is not reached.
theorem wp_graph (hgraph : StateGraph.Follows limit graph) (hlimit : 5 ≤ limit) :
    (graph (buildFailureGraph lib llm) (input taskName errorText attemptCount)).wp
      (fun state => Summarized lib llm taskName errorText state.summary)
      (Failed lib llm taskName errorText) [] := by
  have hstart : Inv lib llm taskName errorText attemptCount .triage
      (input taskName errorText attemptCount) [] :=
    ⟨⟨⟨.nil, by simp, by simp, .nil⟩, rfl, rfl, rfl, by simp⟩, rfl, rfl, rfl⟩
  have hrank : rank (buildFailureGraph lib llm).entry + 1 < limit := hlimit
  refine StateGraph.wp_invoke hgraph (fun n state said hinv => ?_) hrank hstart
  obtain ⟨hknown, hstage⟩ := hinv
  cases n with
  | triage => exact visit_triage hknown hstage
  | diagnose => exact visit_diagnose hknown hstage
  | remediate => exact visit_remediate hknown hstage
  | compose => exact visit_compose hknown hstage

-- A note is not empty, by the category it is under.
theorem Note.ne_empty {category summary : String} (h : Note lib category said summary) :
    summary ≠ "" := by
  obtain ⟨-, -, -, -, rfl⟩ := h
  simp

theorem wp_analyzeFailure (hgraph : StateGraph.Follows limit graph) (hlimit : 5 ≤ limit) :
    (analyzeFailure lib llm graph taskName errorText attemptCount).wp
      (Summarized lib llm taskName errorText) (Failed lib llm taskName errorText) [] := by
  rw [analyzeFailure, Talk.wp_bind]
  refine Talk.wp_mono (wp_graph hgraph hlimit) ?_
  rintro result said ⟨hcoherent, category, hmem, summary, htriaged, hresult, hnote, hagents⟩
  have hsummary := hnote.ne_empty
  exact ⟨hcoherent, category, hmem, summary, htriaged, by simp [hresult, hsummary], hnote, hagents⟩

end FailurePipeline

open FailurePipeline

-- Whatever the LLM says, the first answer decides which agents are asked, each is quoted to those
-- after it, and the last answer is the note. No exception is raised that the LLM has not raised.
theorem failure_analysis_routed {E : Type} {graph : LangGraph E} {limit : Nat}
    (hgraph : StateGraph.Follows limit graph) (hlimit : 5 ≤ limit) (lib : TextLibrary)
    (llm : Llm E) (taskName errorText : String) (attemptCount : Int) :
    (∀ result said, analyzeFailure lib llm graph taskName errorText attemptCount [] =
      (.ok result, said) → Summarized lib llm taskName errorText result said) ∧
    ∀ e said, analyzeFailure lib llm graph taskName errorText attemptCount [] =
      (.error e, said) → Failed lib llm taskName errorText e said :=
  Dialogue.Talk.wp_iff.mp (wp_analyzeFailure hgraph hlimit)

section Example

def exampleText : TextLibrary where
  strip text := String.ofList
    ((text.toList.dropWhile Char.isWhitespace).reverse.dropWhile Char.isWhitespace).reverse
  lower text := String.ofList (text.toList.map Char.toLower)

-- Knows of no difference between errors.
def exampleLlm : Llm String := fun _ q =>
  if q.system = TRIAGE_PROMPT then .ok (.str " Code\n")
  else if q.system = DIAGNOSE_PROMPT then .ok (.str "KeyError on a missing user_id.")
  else if q.system = REMEDIATE_PROMPT then .ok (.parts [.other "Fix", .dict (some "the enqueuer.")])
  else .ok (.str "The handler crashed; fix the enqueuer.")

-- Visits at most `left` nodes.
def runNodes (g : StateGraph Node FailureState Messages Content (GraphError String)) :
    Nat → Node → FailureState → Agent String FailureState
  | 0, _, _ => .raise .recursionLimit
  | left + 1, n, state => do
      let r ← g.visit n state
      match r.2 with
      | none => return r.1
      | some n => runNodes g left n r.1

-- 25 steps, the start and 24 nodes.
def exampleGraph : LangGraph String := fun g state => runNodes g 24 g.entry state

theorem runNodes_of_walk {g : StateGraph Node FailureState Messages Content (GraphError String)}
    {k left : Nat} {n : Node} {state : FailureState} {said said' : List (Messages × Content)}
    {r : Except (GraphError String) FailureState} (h : g.Walk k n state said r said')
    (hk : k ≤ left) : runNodes g left n state said = (r, said') := by
  induction h generalizing left with
  | raised h =>
      obtain ⟨left, rfl⟩ := Nat.exists_eq_add_of_le' hk
      simp only [runNodes, bind, Dialogue.Talk.next, h]
  | ended h =>
      obtain ⟨left, rfl⟩ := Nat.exists_eq_add_of_le' hk
      simp only [runNodes, bind, Dialogue.Talk.next, h]
      rfl
  | goes h hrest ih =>
      cases left with
      | zero => omega
      | succ left =>
          simp only [runNodes, bind, Dialogue.Talk.next, h]
          exact ih (by omega)

theorem exampleGraph_follows : StateGraph.Follows 25 exampleGraph :=
  fun _ _ _ _ _ _ hwalk hk => runNodes_of_walk hwalk (Nat.le_of_lt_succ hk)

theorem exists_eq_of_fst {α β : Type} {x : α × β} {a : α} (h : x.1 = a) : ∃ b, x = (a, b) :=
  ⟨x.2, Prod.ext h rfl⟩

theorem failure_analysis_routed_code : ∃ said,
    analyzeFailure exampleText exampleLlm exampleGraph "emails.send" "KeyError" 3 [] =
      (.ok (some "[code] The handler crashed; fix the enqueuer."), said) ∧
    Summarized exampleText exampleLlm "emails.send" "KeyError"
      (some "[code] The handler crashed; fix the enqueuer.") said := by
  have hresult :
      (analyzeFailure exampleText exampleLlm exampleGraph "emails.send" "KeyError" 3 []).1 =
        .ok (some "[code] The handler crashed; fix the enqueuer.") := by
    decide +kernel
  obtain ⟨said, hrun⟩ := exists_eq_of_fst hresult
  exact ⟨said, hrun, (failure_analysis_routed exampleGraph_follows (by decide) exampleText
    exampleLlm "emails.send" "KeyError" 3).1 _ _ hrun⟩

end Example

section Served

open Summaries
open Txn (Reaches)

variable {E : Type} {lib : TextLibrary} {llm : SummaryId → Llm E} {graph : LangGraph E}
  {enabled : Bool} {digest : String → String} {limit : Nat} {s : Summaries} {now : ℚ}

end Served

section Example

open Summaries
open Txn (Reaches)

end Example

end Chronos
