import FilterEditor.Text

/-!
# Paths

A path addresses a place in a filter tree: it lists the selectors that lead there from the root
pipeline.  An index selects a node of a pipeline; a branch number selects a branch of an array,
and a key one of an object.  A path that ends with an index addresses a node; the empty path and a
path that ends with a branch selector address a pipeline.

A path holds no part of a tree.  Every look-up starts at the root again, and after an edit the
same path may lead elsewhere or nowhere.

In messages a path is shown the way one would spell it by hand: positions with dots between them,
and each branch as an item of its container, a key between quotes.  The root has a name of its own.
-/

namespace FilterEditor

/-- One step of a path. -/
inductive Selector where
  /-- The node at a position of a pipeline. -/
  | index (n : Nat)
  /-- The branch at a position of an array. -/
  | branch (n : Nat)
  /-- The branch under a key of an object. -/
  | key (k : String)
  deriving DecidableEq, Repr, Inhabited

def Selector.isBranch : Selector → Bool
  | index _ => false
  | branch _ => true
  | key _ => true

/-- The steps from the root pipeline to a place in the tree. -/
abbrev Path := List Selector

namespace Path

/-- The path without its last selector, and that selector. -/
def split? (p : Path) : Option (Path × Selector) :=
  p.getLast?.map fun s => (p.dropLast, s)

def parent? (p : Path) : Option Path :=
  p.split?.map Prod.fst

def isNodePath (p : Path) : Bool :=
  match p.getLast? with
  | some (.index _) => true
  | _ => false

theorem split?_eq_some_iff {p parent : Path} {s : Selector} :
    p.split? = some (parent, s) ↔ p = parent ++ [s] := by
  rcases List.eq_nil_or_concat p with rfl | ⟨q, t, rfl⟩
  · simp [split?]
  · simp [split?, List.append_eq_append_iff_of_size_eq_right]

theorem split?_eq_none_iff {p : Path} : p.split? = none ↔ p = [] := by
  simp [split?]

end Path

/-! ## The text of a path -/

/-- A selector as it is shown; a dot stands in front of an index that follows something. -/
def Selector.display (first : Bool) : Selector → String
  | index n => (if first then "" else ".") ++ toString n
  | branch n => ".items[" ++ toString n ++ "]"
  | key k => ".items[" ++ Text.quote k ++ "]"

def Path.display : Path → String
  | [] => "<root>"
  | s :: rest => s.display true ++ String.join (rest.map (Selector.display false))

end FilterEditor
