import FilterEditor.Document

/-!
# Undo and redo

A step is what one undo takes back: a lone mutation, or the mutations that were applied while a
step was held open.  A step keeps the tree from before its first mutation.  Undo puts that tree
back; redo applies the mutations of the step again.  A new step empties the redo side, and a
bounded history forgets its oldest step.

The document is not part of the history, and may be changed without it.  Then a step may no longer
fit; redo puts the tree back as it was and keeps the step.
-/

namespace FilterEditor

/-- Mutations that are undone and redone together. -/
structure Step where
  /-- The mutations in the order in which they were applied. -/
  mutations : List Mutation
  /-- The tree before the first of them. -/
  snapshot : Pipeline
  /-- What the step does, in words. -/
  description : Option String
  deriving DecidableEq, Repr

namespace Step

def single (m : Mutation) (snapshot : Pipeline) : Step :=
  ⟨[m], snapshot, none⟩

def blank : Step :=
  ⟨[], [], none⟩

def describe (s : Step) (text : String) : Step :=
  { s with description := some text }

/-- The step with one more mutation, applied to the tree `before`. -/
def record (s : Step) (m : Mutation) (before : Pipeline) : Step :=
  { s with
    mutations := s.mutations ++ [m]
    snapshot := if s.mutations = [] then before else s.snapshot }

/-- The document after the mutations of a step, with the first error if one does not fit; the
document then is as that mutation leaves it. -/
def replay : List Mutation → Document → Document × Option MutationError
  | [], d => (d, none)
  | m :: rest, d =>
    match d.edit m with
    | .ok _ d' => replay rest d'
    | .error e d' => (d', some e)

end Step

/-- The steps that can be undone and redone. -/
structure History where
  /-- How many steps can be undone; zero means all of them. -/
  maxLevels : Nat
  /-- The steps that can be undone, the latest first. -/
  past : List Step
  /-- The steps that can be redone, the one to redo first. -/
  future : List Step
  /-- The step that is held open. -/
  openStep : Option Step
  deriving DecidableEq, Repr

namespace History

def ofMaxLevels (maxLevels : Nat) : History :=
  ⟨maxLevels, [], [], none⟩

/-- A history without steps and with the usual bound. -/
def new : History :=
  ofMaxLevels 100

instance : Inhabited History := ⟨new⟩

/-- The steps that a bound lets stand. -/
def trim (maxLevels : Nat) (past : List Step) : List Step :=
  if 0 < maxLevels ∧ maxLevels < past.length then past.dropLast else past

def push (h : History) (s : Step) : History :=
  { h with past := trim h.maxLevels (s :: h.past), future := [] }

/-- Close the open step; one without mutations leaves no trace. -/
def finish (h : History) : History :=
  match h.openStep with
  | none => h
  | some s =>
    if s.mutations = [] then { h with openStep := none }
    else { h with openStep := none }.push s

/-- Close the open step and open a new one. -/
def begin (h : History) : History :=
  { h.finish with openStep := some .blank }

def describe (h : History) (text : String) : History :=
  { h with openStep := h.openStep.map fun s => s.describe text }

/-- Note a mutation that was applied to the tree `before`. -/
def record (h : History) (m : Mutation) (before : Pipeline) : History :=
  match h.openStep with
  | none => h.push (.single m before)
  | some s => { h with openStep := some (s.record m before) }

def apply (h : History) (m : Mutation) (d : Document) : Outcome × History × Document :=
  match d.apply m with
  | (.applied version, d') => (.applied version, h.record m d.root, d')
  | (.ignored e, d') => (.ignored e, h, d')

/-- Take back the latest step, the open one included.  The answer says whether there was one. -/
def undo (h : History) (d : Document) : Bool × History × Document :=
  let h := h.finish
  match h.past with
  | [] => (false, h, d)
  | s :: past => (true, { h with past := past, future := s :: h.future }, d.restore s.snapshot)

/-- Do the step again that was taken back last.  The answer says whether there was one, or why it
does not fit. -/
def redo (h : History) (d : Document) : Except MutationError Bool × History × Document :=
  let h := h.finish
  match h.future with
  | [] => (.ok false, h, d)
  | s :: future =>
    match Step.replay s.mutations d with
    | (d', none) => (.ok true, { h with past := s :: h.past, future := future }, d')
    | (d', some e) => (.error e, h, d'.restore d.root)

def clear (h : History) : History :=
  { h with past := [], future := [], openStep := none }

/-- Whether a closed step can be undone. -/
def canUndo (h : History) : Bool :=
  !h.past.isEmpty

def canRedo (h : History) : Bool :=
  !h.future.isEmpty

def undoLevels (h : History) : Nat :=
  h.past.length

def redoLevels (h : History) : Nat :=
  h.future.length

def undoDescription? (h : History) : Option String :=
  h.past.head?.bind Step.description

def redoDescription? (h : History) : Option String :=
  h.future.head?.bind Step.description

end History

end FilterEditor
