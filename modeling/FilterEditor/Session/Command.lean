import FilterEditor.Session

/-!
# Commands to a session

What a user and the evaluations in flight can ask of a session, as data, with the answers.  A
sequence of commands is a whole run; `run` gives the session after it.  Asking for an evaluation
changes nothing and is not a command.
-/

namespace FilterEditor.Session

inductive Command where
  | apply (m : Mutation)
  /-- Open a step with a description. -/
  | begin (description : String)
  | finish
  | undo
  | redo
  | toggleSelection (path : Path)
  | clearSelection
  | setInput (text : String)
  /-- Deliver the result of an evaluation that was asked for with a ticket. -/
  | completeEvaluation (ticket : Ticket) (result : EvaluationResult)
  | evaluateWith (sandbox : Sandbox)

inductive Answer where
  /-- Nothing. -/
  | silent
  /-- What became of a mutation. -/
  | outcome (outcome : Outcome)
  /-- Whether there was a step to take back. -/
  | undone (done : Bool)
  /-- Whether there was a step to do again. -/
  | redone (done : Bool)
  /-- There was a step to do again, but it does not fit. -/
  | misfit (error : EditorError)
  /-- The place that is selected now. -/
  | selected (path? : Option Path)
  /-- Whether a result was in time. -/
  | completed (inTime : Bool)
  /-- The text that is shown now. -/
  | shown (text : String)
  deriving DecidableEq, Repr

def perform (c : Command) (s : Session) : Answer × Session :=
  match c with
  | .apply m =>
    match s.apply m with
    | (outcome, s) => (.outcome outcome, s)
  | .begin description => (.silent, s.begin description)
  | .finish => (.silent, s.finish)
  | .undo =>
    match s.undo with
    | (done, s) => (.undone done, s)
  | .redo =>
    match s.redo with
    | (.ok done, s) => (.redone done, s)
    | (.error e, s) => (.misfit e, s)
  | .toggleSelection path =>
    let s := s.toggleSelection path
    (.selected s.selectedPath?, s)
  | .clearSelection => (.silent, s.clearSelection)
  | .setInput text => (.silent, s.setInput text)
  | .completeEvaluation ticket result =>
    match s.completeEvaluation ticket result with
    | (inTime, s) => (.completed inTime, s)
  | .evaluateWith sandbox =>
    match s.evaluateWith sandbox with
    | (text, s) => (.shown text, s)

def run (commands : List Command) (s : Session) : Session :=
  commands.foldl (fun s c => (perform c s).2) s

theorem run_append (cs ds : List Command) (s : Session) : run (cs ++ ds) s = run ds (run cs s) := by
  simp [run]

end FilterEditor.Session
