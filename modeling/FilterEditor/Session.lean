import FilterEditor.ConfigFile
import FilterEditor.History
import FilterEditor.Json.Value
import FilterEditor.Mutation.Rebase
import FilterEditor.Selection

/-!
# Editing sessions

A session joins a document with its history, a selection, an input document and the output of the
latest evaluation.  What is evaluated is the preview of the selection, or the whole expression
when nothing is selected.

The generation counts the changes of what would be evaluated.  An evaluation that was asked for in
an earlier generation is out of date when it arrives, and its result is dropped.

The library writes expressions and does not run them.  Whoever runs them supplies a `Sandbox`; the
library reads the input document, hands it over with the expression, and shows what comes back.  A
request is a value of its own, so it can be run while editing goes on; the ticket in it says for
which generation of the session it was made.
-/

namespace FilterEditor

/-! ## Running an expression -/

abbrev EvaluationResult := Except EvaluationError Value

/-- What runs expressions: a document and an expression give a value or an error. -/
abbrev Sandbox := Value → String → EvaluationResult

def readInput (text : String) : EvaluationResult :=
  match Value.parse? text with
  | some v => .ok v
  | none => .error (.input "not a JSON document")

/-- The text shown for a result; every error shows the same placeholder. -/
def showResult (config : Config) : EvaluationResult → String
  | .ok v => v.render config.outputIndent
  | .error _ => config.failurePlaceholder

/-- The generation for which an evaluation was asked. -/
structure Ticket where
  generation : Nat
  deriving DecidableEq, Repr

structure EvaluationRequest where
  ticket : Ticket
  input : String
  expression : String
  deriving DecidableEq, Repr

def EvaluationRequest.run (r : EvaluationRequest) (sandbox : Sandbox) : EvaluationResult :=
  match readInput r.input with
  | .ok document => sandbox document r.expression
  | .error e => .error e

/-! ## The session -/

structure Session where
  /-- The name of the session. -/
  id : String
  document : Document
  history : History
  selection : Selection
  /-- The text of the input document. -/
  input : String
  /-- The shown result of the latest evaluation that was in time. -/
  output : Option String
  generation : Nat
  config : Config
  deriving DecidableEq, Repr

namespace Session

/-- A session on a document with given settings; fresh keys are those of the settings. -/
def ofConfig (id : String) (document : Document) (config : Config) : Session where
  id := id
  document := document.withFreshKeyPrefix config.freshKeyPrefix
  history := .ofMaxLevels config.undoLevels
  selection := .empty
  input := ""
  output := none
  generation := 0
  config := config

def new (id : String) (document : Document) : Session :=
  ofConfig id document .standard

def selectedPath? (s : Session) : Option Path :=
  s.selection.path?

def fullExpression (s : Session) : String :=
  s.document.expression

def selectedExpression? (s : Session) : Option String :=
  s.selection.expression? s.document.root

def activeExpression (s : Session) : String :=
  s.selectedExpression?.getD s.fullExpression

/-! ## Editing -/

def followMutation (s : Session) (m : Mutation) : Session :=
  match s.selection.path? with
  | none => s
  | some path => { s with selection := ⟨m.rebase path⟩ }

/-- Start a new generation after the tree has changed; a selection that leads nowhere is dropped. -/
def afterChange (s : Session) : Session :=
  let resolves := match s.selection.path? with
    | none => true
    | some path => (s.document.resolve? path).isSome
  { s with
    generation := s.generation + 1
    selection := if resolves then s.selection else .empty }

def apply (s : Session) (m : Mutation) : Outcome × Session :=
  match s.history.apply m s.document with
  | (.applied version, history, document) =>
    (.applied version,
      (followMutation { s with history := history, document := document } m).afterChange)
  | (.ignored e, history, document) =>
    (.ignored e, { s with history := history, document := document })

def begin (s : Session) (description : String) : Session :=
  { s with history := s.history.begin.describe description }

def finish (s : Session) : Session :=
  { s with history := s.history.finish }

/-- Drop the selection, for the tree that comes back numbers its nodes in its own way. -/
def dropSelection (s : Session) : Session :=
  { s with selection := .empty }

def undo (s : Session) : Bool × Session :=
  match s.history.undo s.document with
  | (undone, history, document) =>
    let s := { s with history := history, document := document }
    (undone, if undone then s.dropSelection.afterChange else s)

def redo (s : Session) : Except EditorError Bool × Session :=
  match s.history.redo s.document with
  | (.ok redone, history, document) =>
    let s := { s with history := history, document := document }
    (.ok redone, if redone then s.dropSelection.afterChange else s)
  | (.error e, history, document) =>
    (.error (.mutation e), { s with history := history, document := document })

/-! ## Selecting -/

/-- Select a place, or take the selection back if it was selected.  The root and paths that lead
nowhere cannot be selected. -/
def toggleSelection (s : Session) (path : Path) : Session :=
  if path = [] ∨ s.document.resolve? path = none then s
  else { s with selection := s.selection.toggle path, generation := s.generation + 1 }

def clearSelection (s : Session) : Session :=
  if s.selection.isSome then { s.dropSelection with generation := s.generation + 1 } else s

/-! ## Evaluating -/

def setInput (s : Session) (text : String) : Session :=
  { s with input := text, generation := s.generation + 1 }

def requestEvaluation (s : Session) : EvaluationRequest :=
  ⟨⟨s.generation⟩, s.input, s.activeExpression⟩

/-- Take the result of an evaluation, unless it is out of date.  The answer says whether it was in
time. -/
def completeEvaluation (s : Session) (ticket : Ticket) (result : EvaluationResult) :
    Bool × Session :=
  if ticket.generation = s.generation then
    (true, { s with output := some (showResult s.config result) })
  else (false, s)

/-- Evaluate the active expression at once; the answer is the text shown. -/
def evaluateWith (s : Session) (sandbox : Sandbox) : String × Session :=
  let request := s.requestEvaluation
  let s := (s.completeEvaluation request.ticket (request.run sandbox)).2
  (s.output.getD "", s)

end Session

end FilterEditor
