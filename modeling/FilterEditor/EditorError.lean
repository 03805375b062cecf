import FilterEditor.Mutation.Basic

/-!
# Errors of an editor

The errors of all parts under one type, each with a word in front that says which part it is.  The
errors of a mutation come with the mutations; those of an evaluation stand here.
-/

namespace FilterEditor

/-- Why an evaluation gave no value. -/
inductive EvaluationError where
  /-- The input document is not JSON. -/
  | input (reason : String)
  /-- The expression cannot be understood. -/
  | expression (reason : String)
  /-- The expression failed on the input. -/
  | runtime (reason : String)
  deriving DecidableEq, Repr

def EvaluationError.message : EvaluationError → String
  | input reason => "Invalid input document: " ++ reason
  | expression reason => "Invalid expression: " ++ reason
  | runtime reason => "Runtime error: " ++ reason

inductive EditorError where
  /-- A file could not be read as text. -/
  | io (reason : String)
  /-- A text is not JSON of the form that is wanted. -/
  | json (reason : String)
  /-- A mutation does not fit. -/
  | mutation (error : MutationError)
  /-- An evaluation failed. -/
  | evaluation (error : EvaluationError)
  deriving DecidableEq, Repr

namespace EditorError

def message : EditorError → String
  | io reason => "IO error: " ++ reason
  | json reason => "JSON error: " ++ reason
  | mutation e => "Mutation error: " ++ e.message
  | evaluation e => "Evaluation error: " ++ e.message

/-- The error of a text that does not read as `what`. -/
def unreadable (what : String) : EditorError :=
  .json ("not the JSON form of " ++ what)

end EditorError

end FilterEditor
