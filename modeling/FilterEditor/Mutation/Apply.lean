import FilterEditor.Mutation.Basic
import FilterEditor.Tree.Place

/-!
# Applying a mutation

A mutation applies as a whole or not at all: the result is a new tree or the reason why the
mutation does not fit.  Each mutation looks at one container.  `Edit` has the change of that
container and the errors that it can give; `applyWith` finds the container and makes the change.

When two things are wrong at once, the shape of the path is reported first, then an empty key,
then a missing container, then a container of the wrong kind, and what is inside the container
last.  A removal or a renaming names the whole path when the element is missing, and the path
of the container when the container is.
-/

namespace FilterEditor

/-- The position behind position `i`, or the end when that is further on. -/
def insertionPoint (i length : Nat) : Nat :=
  min (i + 1) length

def insertAfter {α : Type} (i : Nat) (a : α) (l : List α) : List α :=
  l.insertIdx (insertionPoint i l.length) a

namespace Edit

def setValue (path : Path) (value : String) : Edit MutationError :=
  .ofNode (.notFound path) fun
    | .filter _ => .ok (.filter value)
    | _ => .error (.notFilter path)

def insertNode (parent : Path) (i : Nat) (kind : Kind) : Edit MutationError :=
  .ofPipeline (.notFound parent) fun p => .ok (insertAfter i kind.blankNode p)

def insertBranch (parent : Path) (b : Nat) (kind : Kind) : Edit MutationError :=
  .ofNode (.notFound parent) fun
    | .array branches => .ok (.array (insertAfter b [kind.blankNode] branches))
    | _ => .error (.notArray parent)

/-- The change of an object by a fresh entry at its end. -/
def insertEntry (stem : String) (parent : Path) (kind : Kind) : Edit MutationError :=
  .ofNode (.notFound parent) fun
    | .object entries =>
      .ok (.object (Entries.put (Entries.freshKey entries stem) [kind.blankNode] entries))
    | _ => .error (.notObject parent)

def addBranch (path : Path) : Edit MutationError :=
  .ofNode (.notFound path) fun
    | .array branches => .ok (.array (branches ++ [[]]))
    | _ => .error (.notArray path)

def dropNode (path : Path) (i : Nat) : Edit MutationError :=
  .ofPipeline (.notFound path) fun p =>
    if i < p.length then .ok (p.eraseIdx i) else .error (.notFound path)

/-- The change of a container that loses the branch behind the selector `last`. -/
def dropBranch (path parent : Path) (last : Selector) : Edit MutationError :=
  .ofNode (.notFound parent) fun
    | .array branches =>
      match last with
      | .branch b =>
        if b < branches.length then .ok (.array (branches.eraseIdx b))
        else .error (.notFound path)
      | .index _ => .error (.notBranchPath path)
      | .key _ => .error (.selectorMismatch path)
    | .object entries =>
      match last with
      | .key k =>
        if k ∈ Entries.keys entries then .ok (.object (Entries.erase k entries))
        else .error (.notFound path)
      | .index _ => .error (.notBranchPath path)
      | .branch _ => .error (.selectorMismatch path)
    | .filter _ =>
      match last with
      | .index _ => .error (.notBranchPath path)
      | _ => .error (.selectorMismatch path)

/-- The change of an object by a blank filter under `key`. -/
def putProperty (path : Path) (key : String) : Edit MutationError :=
  .ofNode (.notFound path) fun
    | .object entries => .ok (.object (Entries.put key [.filter ""] entries))
    | _ => .error (.notObject path)

def renameEntry (path parent : Path) (key newKey : String) : Edit MutationError :=
  .ofNode (.notFound parent) fun
    | .object entries =>
      if key ≠ newKey ∧ newKey ∈ Entries.keys entries then .error (.duplicateKey newKey)
      else if key ∈ Entries.keys entries then .ok (.object (Entries.rename key newKey entries))
      else .error (.notFound path)
    | _ => .error (.notObject parent)

end Edit

namespace Mutation

/-- The tree after a mutation; fresh keys begin with `stem`. -/
def applyWith (stem : String) (m : Mutation) (root : Pipeline) : Except MutationError Pipeline :=
  match m with
  | setFilterValue path value => (Edit.setValue path value).pipeline path root
  | insertSibling path kind =>
    match path.split? with
    | none => .ok (kind.blankNode :: root)
    | some (parent, .index i) => (Edit.insertNode parent i kind).pipeline parent root
    | some (parent, .branch b) => (Edit.insertBranch parent b kind).pipeline parent root
    | some (parent, .key _) => (Edit.insertEntry stem parent kind).pipeline parent root
  | appendBranch path => (Edit.addBranch path).pipeline path root
  | removeNode path =>
    match path.split? with
    | some (parent, .index i) => (Edit.dropNode path i).pipeline parent root
    | _ => .error (.notNodePath path)
  | removeBranch path =>
    match path.split? with
    | none => .error .rootBranch
    | some (parent, last) => (Edit.dropBranch path parent last).pipeline parent root
  | addProperty path key =>
    if key = "" then .error .emptyKey else (Edit.putProperty path key).pipeline path root
  | renameProperty path newKey =>
    match path.split? with
    | some (parent, .key key) =>
      if newKey = "" then .error .emptyKey
      else (Edit.renameEntry path parent key newKey).pipeline parent root
    | _ => .error (.notEntryPath path)

/-- The tree after a mutation, with fresh keys of the usual form. -/
def apply (m : Mutation) (root : Pipeline) : Except MutationError Pipeline :=
  m.applyWith defaultFreshKeyPrefix root

def validate (m : Mutation) (root : Pipeline) : Except MutationError Unit :=
  (m.apply root).map fun _ => ()

/-- The tree after a mutation, or the tree itself when the mutation does not fit. -/
def appliedTo (m : Mutation) (root : Pipeline) : Pipeline :=
  match m.apply root with
  | .ok next => next
  | .error _ => root

end Mutation

end FilterEditor
