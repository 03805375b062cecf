import FilterEditor.EditorError
import FilterEditor.Exchange.Tree
import FilterEditor.Expression
import FilterEditor.Mutation.Apply
import FilterEditor.Mutation.InPlace
import FilterEditor.Tree.Place

/-!
# Documents

A document is the tree under edit with a version.  The version grows with every change, so whoever
keeps an expression can tell whether it still belongs to the tree.
-/

namespace FilterEditor

structure Document where
  /-- The number of changes so far. -/
  version : Nat
  /-- The tree. -/
  root : Pipeline
  /-- What stands in front of the number in a fresh key. -/
  freshKeyPrefix : String
  deriving DecidableEq, Repr

/-- What became of a mutation. -/
inductive Outcome where
  /-- The tree has changed; the document has this version now. -/
  | applied (version : Nat)
  /-- The mutation did not fit and was dropped. -/
  | ignored (error : MutationError)
  deriving DecidableEq, Repr

def Outcome.isApplied : Outcome → Bool
  | applied _ => true
  | ignored _ => false

namespace Document

def ofRoot (root : Pipeline) : Document :=
  ⟨0, root, defaultFreshKeyPrefix⟩

/-- The document with the identity filter. -/
def new : Document :=
  ofRoot [.filter "."]

def empty : Document :=
  ofRoot []

instance : Inhabited Document := ⟨new⟩

/-- The document of a tree that was exchanged as JSON. -/
def ofText (text : String) : Except EditorError Document :=
  match Pipeline.ofText? text with
  | some root => .ok (ofRoot root)
  | none => .error (.unreadable "a tree")

theorem ofText_eq_ok_iff {text : String} {d : Document} :
    ofText text = .ok d ↔ ∃ root, Pipeline.ofText? text = some root ∧ ofRoot root = d := by
  rw [ofText]
  cases Pipeline.ofText? text <;> simp

def toText (d : Document) : String :=
  Pipeline.toText d.root

def withFreshKeyPrefix (d : Document) (stem : String) : Document :=
  { d with freshKeyPrefix := stem }

def resolve? (d : Document) (path : Path) : Option Target :=
  d.root.resolve? path

def node? (d : Document) (path : Path) : Option Node :=
  d.root.node? path

/-- The document with another tree, one version on. -/
def restore (d : Document) (root : Pipeline) : Document :=
  { d with version := d.version + 1, root := root }

/-- Carry out a mutation on the tree in place, and count the change.  The answer is the new version.
The tree stays as the mutation leaves it, also when it does not fit. -/
def edit (d : Document) (m : Mutation) : EStateM.Result MutationError Document Nat :=
  match m.work d.freshKeyPrefix d.root with
  | .ok () root => .ok (d.restore root).version (d.restore root)
  | .error e root => .error e { d with root := root }

/-- The document after a mutation, or the reason why it does not fit. -/
def tryApply (d : Document) (m : Mutation) : Except MutationError Document :=
  match d.edit m with
  | .ok _ d' => .ok d'
  | .error e _ => .error e

/-- The document after a mutation; that one does not fit is no failure. -/
def apply (d : Document) (m : Mutation) : Outcome × Document :=
  match d.edit m with
  | .ok version d' => (.applied version, d')
  | .error e d' => (.ignored e, d')

def expression (d : Document) : String :=
  d.root.expression

def nodeExpression? (d : Document) (path : Path) : Option String :=
  (d.node? path).map Node.expression

end Document

end FilterEditor
