import Chronos.Data.StateGraph
import Chronos.Events.SummaryCache
import Mathlib.Data.List.Infix

namespace Chronos

namespace FailurePipeline

open Dialogue (Party Talk)

def CATEGORIES : List String := ["transient", "permanent", "code", "config"]

-- A TypedDict with total=False.
structure FailureState where
  taskName : Option String
  errorText : Option String
  attemptCount : Option Int
  category : Option String
  diagnosis : Option String
  remediation : Option String
  summary : Option String
deriving DecidableEq

def FailureState.empty : FailureState := ⟨none, none, none, none, none, none, none⟩

-- The keys that are returned overwrite those of the state.
def FailureState.update (state returned : FailureState) : FailureState where
  taskName := returned.taskName.or state.taskName
  errorText := returned.errorText.or state.errorText
  attemptCount := returned.attemptCount.or state.attemptCount
  category := returned.category.or state.category
  diagnosis := returned.diagnosis.or state.diagnosis
  remediation := returned.remediation.or state.remediation
  summary := returned.summary.or state.summary

def TRIAGE_PROMPT : String :=
  "You are a triage agent for a distributed job scheduler. Classify the " ++
  "failure into exactly one category:\n" ++
  "- transient: network blips, timeouts, connection resets, dependency " ++
  "5xx — likely to succeed on requeue\n" ++
  "- permanent: the input or external state makes success impossible\n" ++
  "- code: a bug in the task handler (TypeError, KeyError, assertion...)\n" ++
  "- config: missing/invalid credentials, endpoints or settings\n" ++
  "Reply with ONLY the category word."

def DIAGNOSE_PROMPT : String :=
  "You are a root-cause analyst. Given a job failure's traceback, state " ++
  "the most likely root cause in one short sentence. Name the failing " ++
  "operation and why it failed; no speculation beyond the evidence."

def REMEDIATE_PROMPT : String :=
  "You are an SRE remediation agent. Given a failure's category and " ++
  "root cause, propose exactly ONE concrete next action for the operator " ++
  "(e.g. 'requeue the job', 'fix the payload field X', 'rotate the API " ++
  "key'). One short sentence."

def COMPOSE_PROMPT : String :=
  "You write concise incident notes for a job dashboard. Combine the " ++
  "material into 2-3 plain-English sentences: what failed, why, and the " ++
  "recommended action. No preamble, no markdown."

-- A system message and a human one.
structure Messages where
  system : String
  user : String
deriving DecidableEq

-- The parts of a content are dicts, of which `text` is read, and others, of which their str() is.
inductive ContentPart
  | dict (text : Option String)
  | other (str : String)
deriving DecidableEq

inductive Content
  | str (s : String)
  | parts (ps : List ContentPart)
deriving DecidableEq

def ContentPart.text : ContentPart → String
  | .dict text => text.getD ""
  | .other str => str

def Content.joined : Content → String
  | .str s => s
  | .parts ps => String.intercalate " " (ps.map ContentPart.text)

-- What can be raised while the graph runs: `E` is what the LLM raises.
inductive GraphError (E : Type)
  | keyError (key : String)
  | recursionLimit
  | llm (e : E)
deriving DecidableEq

inductive Node
  | triage
  | diagnose
  | remediate
  | compose
deriving DecidableEq

abbrev Agent (E : Type) := Talk Messages Content (GraphError E)

abbrev Llm (E : Type) := Party Messages Content E

-- str.strip and str.lower
structure TextLibrary where
  strip : String → String
  lower : String → String

def TextLibrary.text (lib : TextLibrary) (response : Content) : String := lib.strip response.joined

-- `category in raw`
def occursIn (sub s : String) : Bool := decide (sub.toList <:+: s.toList)

def categoryOf (raw : String) : String :=
  (CATEGORIES.find? fun c => occursIn c raw).getD "permanent"

-- error_text[:2000]
def excerpt (errorText : String) : String := String.ofList (errorText.toList.take 2000)

variable {E : Type} (lib : TextLibrary) (llm : Llm E)

-- state[key]
def item {α : Type} (key : String) : Option α → Agent E α
  | some x => return x
  | none => .raise (.keyError key)

def ainvoke (system user : String) : Agent E Content := Talk.ask llm .llm ⟨system, user⟩

def triage (state : FailureState) : Agent E FailureState := do
  let taskName ← item "task_name" state.taskName
  let attemptCount ← item "attempt_count" state.attemptCount
  let errorText ← item "error_text" state.errorText
  let response ← ainvoke llm TRIAGE_PROMPT
    ("Task: " ++ taskName ++ ("\nAttempts: " ++ toString attemptCount ++
      "\nError:\n" ++ excerpt errorText))
  return { FailureState.empty with category := categoryOf (lib.lower (lib.text response)) }

def diagnose (state : FailureState) : Agent E FailureState := do
  let taskName ← item "task_name" state.taskName
  let errorText ← item "error_text" state.errorText
  let response ← ainvoke llm DIAGNOSE_PROMPT
    ("Task: " ++ taskName ++ ("\nTraceback:\n" ++ excerpt errorText))
  return { FailureState.empty with diagnosis := lib.text response }

def remediate (state : FailureState) : Agent E FailureState := do
  let category ← item "category" state.category
  let taskName ← item "task_name" state.taskName
  let attemptCount ← item "attempt_count" state.attemptCount
  let response ← ainvoke llm REMEDIATE_PROMPT
    ("Category: " ++ category ++ "\nRoot cause: " ++
      state.diagnosis.getD "not analyzed — transient" ++
      ("\nTask: " ++ taskName ++ (", failed " ++ toString attemptCount ++ " attempts")))
  return { FailureState.empty with remediation := lib.text response }

def compose (state : FailureState) : Agent E FailureState := do
  let taskName ← item "task_name" state.taskName
  let attemptCount ← item "attempt_count" state.attemptCount
  let category ← item "category" state.category
  let remediation ← item "remediation" state.remediation
  let response ← ainvoke llm COMPOSE_PROMPT
    ("Task: " ++ taskName ++ (" (failed " ++ toString attemptCount ++ " attempts)\nCategory: " ++
      category ++ "\nRoot cause: " ++ state.diagnosis.getD "likely transient" ++
      ("\nRecommended action: " ++ remediation)))
  return { FailureState.empty with summary := "[" ++ category ++ "] " ++ lib.text response }

def routeAfterTriage (state : FailureState) : Agent E Node := do
  let category ← item "category" state.category
  return if category = "transient" then .remediate else .diagnose

def buildFailureGraph : StateGraph Node FailureState Messages Content (GraphError E) where
  entry := .triage
  node
    | .triage => triage lib llm
    | .diagnose => diagnose lib llm
    | .remediate => remediate lib llm
    | .compose => compose lib llm
  update := FailureState.update
  edge
    | .triage => .choose routeAfterTriage
    | .diagnose => .to .remediate
    | .remediate => .to .compose
    | .compose => .finish

-- LangGraph: the ainvoke of a compiled graph.
abbrev LangGraph (E : Type) :=
  StateGraph Node FailureState Messages Content (GraphError E) → FailureState → Agent E FailureState

def input (taskName errorText : String) (attemptCount : Int) : FailureState :=
  { FailureState.empty with taskName, errorText, attemptCount }

variable (graph : LangGraph E)

def analyzeFailure (taskName errorText : String) (attemptCount : Int) : Agent E (Option String) := do
  let result ← graph (buildFailureGraph lib llm) (input taskName errorText attemptCount)
  return result.summary.filter (· ≠ "")

end FailurePipeline

end Chronos
