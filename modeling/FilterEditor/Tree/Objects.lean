import FilterEditor.Tree.Node

/-!
# What holds of every object in a tree

`AllObjects P` says that `P` holds of the entries of every object in a tree, at every depth.  Two
instances matter: the keys of an object are distinct, and none of them is empty.

`allObjects_array` and `allObjects_object` restate the recursion with `∀ … ∈ …`.
-/

namespace FilterEditor

mutual

/-- The entries of every object in a node have a property. -/
def Node.AllObjects (P : Entries Pipeline → Prop) : Node → Prop
  | .filter _ => True
  | .array branches => Node.AllObjectsOfBranches P branches
  | .object entries => P entries ∧ Node.AllObjectsOfEntries P entries

def Pipeline.AllObjects (P : Entries Pipeline → Prop) : List Node → Prop
  | [] => True
  | n :: rest => n.AllObjects P ∧ Pipeline.AllObjects P rest

def Node.AllObjectsOfBranches (P : Entries Pipeline → Prop) : List (List Node) → Prop
  | [] => True
  | branch :: rest => Pipeline.AllObjects P branch ∧ Node.AllObjectsOfBranches P rest

def Node.AllObjectsOfEntries (P : Entries Pipeline → Prop) : List (String × List Node) → Prop
  | [] => True
  | (_, branch) :: rest => Pipeline.AllObjects P branch ∧ Node.AllObjectsOfEntries P rest

end

mutual

def Node.decAllObjects (P : Entries Pipeline → Prop) [DecidablePred P] :
    (n : Node) → Decidable (n.AllObjects P)
  | .filter _ => isTrue trivial
  | .array branches => Node.decAllObjectsOfBranches P branches
  | .object entries =>
    @instDecidableAnd _ _ inferInstance (Node.decAllObjectsOfEntries P entries)

def Pipeline.decAllObjects (P : Entries Pipeline → Prop) [DecidablePred P] :
    (p : List Node) → Decidable (Pipeline.AllObjects P p)
  | [] => isTrue trivial
  | n :: rest => @instDecidableAnd _ _ (n.decAllObjects P) (Pipeline.decAllObjects P rest)

def Node.decAllObjectsOfBranches (P : Entries Pipeline → Prop) [DecidablePred P] :
    (branches : List (List Node)) → Decidable (Node.AllObjectsOfBranches P branches)
  | [] => isTrue trivial
  | branch :: rest =>
    @instDecidableAnd _ _ (Pipeline.decAllObjects P branch) (Node.decAllObjectsOfBranches P rest)

def Node.decAllObjectsOfEntries (P : Entries Pipeline → Prop) [DecidablePred P] :
    (entries : List (String × List Node)) → Decidable (Node.AllObjectsOfEntries P entries)
  | [] => isTrue trivial
  | (_, branch) :: rest =>
    @instDecidableAnd _ _ (Pipeline.decAllObjects P branch) (Node.decAllObjectsOfEntries P rest)

end

instance (P : Entries Pipeline → Prop) [DecidablePred P] (n : Node) : Decidable (n.AllObjects P) :=
  n.decAllObjects P

instance (P : Entries Pipeline → Prop) [DecidablePred P] (p : Pipeline) :
    Decidable (Pipeline.AllObjects P p) :=
  Pipeline.decAllObjects P p

/-- In every object of the tree the keys are distinct. -/
def Pipeline.KeysDistinct (p : Pipeline) : Prop :=
  Pipeline.AllObjects (fun entries => (Entries.keys entries).Nodup) p

/-- In no object of the tree is a key empty. -/
def Pipeline.KeysNonempty (p : Pipeline) : Prop :=
  Pipeline.AllObjects (fun entries => "" ∉ Entries.keys entries) p

instance (p : Pipeline) : Decidable (Pipeline.KeysDistinct p) :=
  inferInstanceAs (Decidable (Pipeline.AllObjects _ p))

instance (p : Pipeline) : Decidable (Pipeline.KeysNonempty p) :=
  inferInstanceAs (Decidable (Pipeline.AllObjects _ p))

theorem Pipeline.allObjects_iff {P : Entries Pipeline → Prop} {p : Pipeline} :
    Pipeline.AllObjects P p ↔ ∀ n ∈ p, n.AllObjects P := by
  induction p with
  | nil => simp [Pipeline.AllObjects]
  | cons n rest ih => simp [Pipeline.AllObjects, ih]

theorem Node.allObjects_array {P : Entries Pipeline → Prop} {branches : List Pipeline} :
    (Node.array branches).AllObjects P ↔ ∀ branch ∈ branches, Pipeline.AllObjects P branch := by
  rw [Node.AllObjects]
  induction branches with
  | nil => simp [Node.AllObjectsOfBranches]
  | cons branch rest ih => simp [Node.AllObjectsOfBranches, ih]

theorem Node.allObjects_object {P : Entries Pipeline → Prop} {entries : Entries Pipeline} :
    (Node.object entries).AllObjects P ↔
      P entries ∧ ∀ entry ∈ entries, Pipeline.AllObjects P entry.2 := by
  have h : ∀ es : Entries Pipeline,
      Node.AllObjectsOfEntries P es ↔ ∀ entry ∈ es, Pipeline.AllObjects P entry.2 := by
    intro es
    induction es with
    | nil => simp [Node.AllObjectsOfEntries]
    | cons entry rest ih => simp [Node.AllObjectsOfEntries, ih]
  rw [Node.AllObjects, h]

end FilterEditor
