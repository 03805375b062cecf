import FilterEditor.Proofs.History
import FilterEditor.Session.Command

/-!
# What a session shows, and how a command changes it

An evaluation depends on three things of a session: the tree, the selected place and the input.
They are its `View`.  A command leaves the view and the generation as they are, or it makes one
`View.Turn` and starts a new generation (`moves_perform`).  That is all that the theorems on
evaluations and on the selection have to know of the commands.

Nothing that happens to the history alone is a turn: opening, describing and closing a step, an
undo or a redo that finds no step, a redo that does not fit, and a mutation that does not fit.
-/

namespace FilterEditor

/-- What an evaluation depends on. -/
structure Session.View where
  root : Pipeline
  selected? : Option Path
  input : String
  deriving DecidableEq, Repr

namespace Session

def view (s : Session) : View :=
  ⟨s.document.root, s.selectedPath?, s.input⟩

namespace View

def expression (v : View) : String :=
  (v.selected?.bind v.root.preview?).getD v.root.expression

/-- The tree `root` that a mutation has made, with the selection carried over; a selection that
leads nowhere is dropped. -/
def follow (v : View) (m : Mutation) (root : Pipeline) : View where
  root := root
  selected? := (v.selected?.bind m.rebase).filter fun path => (root.resolve? path).isSome
  input := v.input

/-- One change of the view; fresh keys begin with `stem`. -/
inductive Turn (stem : String) (v : View) : View → Prop
  | mutate {m : Mutation} {root : Pipeline} : m.applyWith stem v.root = .ok root →
      Turn stem v (v.follow m root)
  /-- Undo and redo put in another tree, on which nothing is selected. -/
  | replace (root : Pipeline) : Turn stem v ⟨root, none, v.input⟩
  | select {path : Path} : path ≠ [] → (v.root.resolve? path).isSome →
      Turn stem v ⟨v.root, some path, v.input⟩
  | deselect : Turn stem v ⟨v.root, none, v.input⟩
  | setInput (text : String) : Turn stem v ⟨v.root, v.selected?, text⟩

end View

variable {s s' : Session}

theorem activeExpression_eq (s : Session) : s.activeExpression = s.view.expression := rfl

/-- What one command may do to the view and the generation. -/
inductive Moves (s s' : Session) : Prop
  | still : s'.view = s.view → s'.generation = s.generation → Moves s s'
  | turn : View.Turn s.document.freshKeyPrefix s.view s'.view →
      s'.generation = s.generation + 1 → Moves s s'

theorem Moves.generation_le (h : Moves s s') : s.generation ≤ s'.generation := by
  cases h with
  | still _ hgen => omega
  | turn _ hgen => omega

theorem Moves.generation_le_succ (h : Moves s s') : s'.generation ≤ s.generation + 1 := by
  cases h with
  | still _ hgen => omega
  | turn _ hgen => omega

/-! ## The commands one by one -/

theorem followMutation_eq (s : Session) (m : Mutation) :
    s.followMutation m = { s with selection := ⟨s.selectedPath?.bind m.rebase⟩ } := by
  obtain ⟨id, document, history, ⟨selected?⟩, input, output, generation, config⟩ := s
  cases selected? <;> rfl

theorem afterChange_eq (s : Session) :
    s.afterChange = { s with
      generation := s.generation + 1
      selection := ⟨s.selectedPath?.filter fun path => (s.document.resolve? path).isSome⟩ } := by
  obtain ⟨id, document, history, ⟨selected?⟩, input, output, generation, config⟩ := s
  cases selected? with
  | none => rfl
  | some path =>
    by_cases hres : (document.resolve? path).isSome
    · simp [afterChange, selectedPath?, Option.filter, hres]
    · simp [afterChange, selectedPath?, Option.filter, hres, Selection.empty]

theorem apply_of_ok {m : Mutation} {root : Pipeline}
    (hm : m.applyWith s.document.freshKeyPrefix s.document.root = .ok root) :
    (s.apply m).1 = .applied (s.document.version + 1) ∧
      (s.apply m).2.view = s.view.follow m root ∧
        (s.apply m).2.generation = s.generation + 1 := by
  rw [apply, History.apply_of_ok hm]
  show _ ∧ (afterChange _).view = _ ∧ (afterChange _).generation = _
  rw [followMutation_eq, afterChange_eq]
  exact ⟨rfl, rfl, rfl⟩

theorem apply_of_error {m : Mutation} {e : MutationError}
    (hm : m.applyWith s.document.freshKeyPrefix s.document.root = .error e) :
    s.apply m = (.ignored e, s) := by
  rw [apply, History.apply_of_error hm]

theorem moves_apply (m : Mutation) (s : Session) : Moves s (s.apply m).2 := by
  cases hm : m.applyWith s.document.freshKeyPrefix s.document.root with
  | error e =>
    rw [apply_of_error hm]
    exact .still rfl rfl
  | ok root =>
    obtain ⟨-, hview, hgen⟩ := apply_of_ok hm
    refine .turn ?_ hgen
    rw [hview]
    exact .mutate hm

theorem moves_undo (s : Session) : Moves s s.undo.2 := by
  rw [undo]
  rcases s.history.undo_cases s.document with hnone | ⟨h', root, hdone⟩
  · rw [hnone]
    exact .still rfl rfl
  · rw [hdone]
    exact .turn (.replace root) rfl

theorem moves_redo (s : Session) : Moves s s.redo.2 := by
  rw [redo]
  rcases s.history.redo_cases s.document with ⟨h', d', hdone⟩ | ⟨answer, d', hnone, hne, hroot⟩
  · rw [hdone]
    exact .turn (.replace d'.root) rfl
  · rw [hnone]
    refine .still ?_ ?_
    · rcases answer with e | _ | _
      · simp [view, selectedPath?, hroot]
      · simp [view, selectedPath?, hroot]
      · exact absurd rfl hne
    · rcases answer with e | _ | _
      · rfl
      · rfl
      · exact absurd rfl hne

theorem moves_toggleSelection (path : Path) (s : Session) : Moves s (s.toggleSelection path) := by
  rw [toggleSelection]
  split
  next => exact .still rfl rfl
  next hok =>
    obtain ⟨hne, hnone⟩ := not_or.mp hok
    have hres : (s.document.resolve? path).isSome := Option.isSome_iff_ne_none.mpr hnone
    by_cases hsel : s.selection.isSelected path
    · rw [Selection.toggle, if_pos hsel]
      exact .turn .deselect rfl
    · rw [Selection.toggle, if_neg hsel]
      exact .turn (.select hne hres) rfl

theorem moves_clearSelection (s : Session) : Moves s s.clearSelection := by
  rw [clearSelection]
  split
  · exact .turn .deselect rfl
  · exact .still rfl rfl

theorem moves_completeEvaluation (ticket : Ticket) (result : EvaluationResult) (s : Session) :
    Moves s (s.completeEvaluation ticket result).2 := by
  rw [completeEvaluation]
  split
  · exact .still rfl rfl
  · exact .still rfl rfl

/-- **A command makes one turn and a new generation, or neither.** -/
theorem moves_perform (c : Command) (s : Session) : Moves s (perform c s).2 := by
  cases c with
  | apply m => exact moves_apply m s
  | begin description => exact .still rfl rfl
  | finish => exact .still rfl rfl
  | undo => exact moves_undo s
  | redo =>
    have hredo : (perform .redo s).2 = s.redo.2 := by
      rw [perform]
      rcases s.redo with ⟨e | done, s'⟩ <;> rfl
    rw [hredo]
    exact moves_redo s
  | toggleSelection path => exact moves_toggleSelection path s
  | clearSelection => exact moves_clearSelection s
  | setInput text => exact .turn (.setInput text) rfl
  | completeEvaluation ticket result => exact moves_completeEvaluation ticket result s
  | evaluateWith sandbox => exact moves_completeEvaluation _ _ s

end Session

end FilterEditor
