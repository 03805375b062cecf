import FilterEditor.Expression
import FilterEditor.Path

/-!
# The selected place and its ancestors

At most one place of a tree is selected.  Selecting it again takes the selection back.

The preview of the selection is the expression of its ancestor chain, which is the part of the tree
that the place contributes through its ancestors: every pipeline on the way down keeps the one node
on the path, every container keeps the one branch on it, and what is selected stays whole.  A
sibling of `.x` in `[.x, .y]` is gone and the brackets are still there.
-/

namespace FilterEditor

/-! ## The ancestor chain of a place -/

mutual

/-- The pipeline cut down to what lies on the path. -/
def Pipeline.prune? : Path → Pipeline → Option Pipeline
  | [], p => some p
  | .index i :: rest, p =>
    match p[i]? with
    | none => none
    | some n => (Node.prune? rest n).map fun n' => [n']
  | .branch _ :: _, _ => none
  | .key _ :: _, _ => none

def Node.prune? : Path → Node → Option Node
  | [], n => some n
  | .branch b :: rest, .array branches =>
    match branches[b]? with
    | none => none
    | some p => (Pipeline.prune? rest p).map fun p' => .array [p']
  | .key k :: rest, .object entries =>
    match Entries.get? k entries with
    | none => none
    | some p => (Pipeline.prune? rest p).map fun p' => .object [(k, p')]
  | _ :: _, _ => none

end

namespace Pipeline

/-- The ancestor chain of a place.  The root has none, and neither has a path that leads nowhere. -/
def chain? (root : Pipeline) (path : Path) : Option Pipeline :=
  if path = [] then none else prune? path root

def preview? (root : Pipeline) (path : Path) : Option String :=
  (chain? root path).map Pipeline.expression

end Pipeline

/-! ## The selection -/

structure Selection where
  path? : Option Path
  deriving DecidableEq, Repr

namespace Selection

def empty : Selection :=
  ⟨none⟩

instance : Inhabited Selection := ⟨empty⟩

def ofPath (path : Path) : Selection :=
  ⟨some path⟩

def isSelected (s : Selection) (path : Path) : Bool :=
  s.path? = some path

def isSome (s : Selection) : Bool :=
  s.path?.isSome

/-- Select a place, or nothing if it was selected. -/
def toggle (s : Selection) (path : Path) : Selection :=
  if s.isSelected path then empty else ofPath path

def expression? (s : Selection) (root : Pipeline) : Option String :=
  s.path?.bind (Pipeline.preview? root)

end Selection

end FilterEditor
