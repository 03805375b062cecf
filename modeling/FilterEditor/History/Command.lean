import FilterEditor.History

/-!
# Commands to a history

What a user can ask of a history and its document, as data, with the answers.  A sequence of
commands is a whole run; `run` gives the state after it.  A `Change` is one that goes to the
document alone, behind the history's back.
-/

namespace FilterEditor

/-- A change of a document that its history does not see. -/
inductive Document.Change where
  /-- Apply a mutation. -/
  | mutate (m : Mutation)
  /-- Put in a whole tree. -/
  | restore (root : Pipeline)
  /-- Name fresh keys in another way. -/
  | useFreshKeyPrefix (stem : String)
  deriving DecidableEq, Repr

def Document.change (d : Document) : Document.Change → Document
  | .mutate m => (d.apply m).2
  | .restore root => d.restore root
  | .useFreshKeyPrefix stem => d.withFreshKeyPrefix stem

namespace History

inductive Command where
  | apply (m : Mutation)
  | begin
  | finish
  | describe (text : String)
  | undo
  | redo
  | clear
  /-- Change the document without the history. -/
  | outside (change : Document.Change)
  deriving DecidableEq, Repr

inductive Answer where
  /-- Nothing. -/
  | silent
  /-- What became of a mutation. -/
  | outcome (outcome : Outcome)
  /-- Whether there was a step to take back. -/
  | undone (done : Bool)
  /-- Whether there was a step to do again. -/
  | redone (done : Bool)
  /-- There was a step to do again, but it does not fit. -/
  | misfit (error : MutationError)
  deriving DecidableEq, Repr

/-- Whether a command goes through the history. -/
def Command.isInside : Command → Bool
  | outside _ => false
  | _ => true

def perform (c : Command) (h : History) (d : Document) : Answer × History × Document :=
  match c with
  | .apply m =>
    match h.apply m d with
    | (outcome, h, d) => (.outcome outcome, h, d)
  | .begin => (.silent, h.begin, d)
  | .finish => (.silent, h.finish, d)
  | .describe text => (.silent, h.describe text, d)
  | .undo =>
    match h.undo d with
    | (done, h, d) => (.undone done, h, d)
  | .redo =>
    match h.redo d with
    | (.ok done, h, d) => (.redone done, h, d)
    | (.error e, h, d) => (.misfit e, h, d)
  | .clear => (.silent, h.clear, d)
  | .outside change => (.silent, h, d.change change)

theorem perform_redo (h : History) (d : Document) : (perform .redo h d).2 = (h.redo d).2 := by
  rw [perform]
  rcases h.redo d with ⟨e | done, h', d'⟩ <;> rfl

def run (commands : List Command) (h : History) (d : Document) : History × Document :=
  commands.foldl (fun state c => (perform c state.1 state.2).2) (h, d)

theorem run_append (cs ds : List Command) (h : History) (d : Document) :
    run (cs ++ ds) h d = run ds (run cs h d).1 (run cs h d).2 := by
  simp [run]

theorem run_concat (cs : List Command) (c : Command) (h : History) (d : Document) :
    run (cs ++ [c]) h d = (perform c (run cs h d).1 (run cs h d).2).2 := by
  rw [run_append]
  rfl

end History

end FilterEditor
