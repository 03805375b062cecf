import FilterEditor.Mutation.Basic

/-!
# Following a place across a mutation

A mutation moves what stands behind the place it changes, and gives other names to what it
renames.  `rebase` says where a selected node or branch is afterwards, or that it is gone.  Only
the selector right below the changed container can be affected, and only when the selected path
runs through that container.
-/

namespace FilterEditor

/-- Change the selector that stands right below `parent`; a path that does not run through `parent`
stays as it is. -/
def Path.mapBelow (f : Selector → Selector) : Path → Path → Path
  | [], s :: rest => f s :: rest
  | a :: parent, s :: rest => if a = s then s :: mapBelow f parent rest else s :: rest
  | _, [] => []

namespace Selector

/-- The selector of the same element after one is inserted behind `place`. -/
def shiftUp (place : Selector) : Selector → Selector
  | index i =>
    match place with
    | index j => if j < i then index (i + 1) else index i
    | _ => index i
  | branch i =>
    match place with
    | branch j => if j < i then branch (i + 1) else branch i
    | _ => branch i
  | key k => key k

/-- The selector of the same element after the one at `place` is taken out. -/
def shiftDown (place : Selector) : Selector → Selector
  | index i =>
    match place with
    | index j => if j < i then index (i - 1) else index i
    | _ => index i
  | branch i =>
    match place with
    | branch j => if j < i then branch (i - 1) else branch i
    | _ => branch i
  | key k => key k

/-- The selector of the same node after one is inserted in front of all. -/
def next : Selector → Selector
  | index i => index (i + 1)
  | s => s

end Selector

namespace Mutation

/-- Where the place at `selected` is after the mutation has applied; nothing if the mutation removed
or replaced it. -/
def rebase (m : Mutation) (selected : Path) : Option Path :=
  match m with
  | setFilterValue .. => some selected
  | appendBranch _ => some selected
  | insertSibling path _ =>
    match path.split? with
    | none => some (Path.mapBelow .next [] selected)
    | some (parent, last) => some (Path.mapBelow last.shiftUp parent selected)
  | removeNode path | removeBranch path =>
    match path.split? with
    | none => some selected
    | some (parent, last) =>
      if path <+: selected then none else some (Path.mapBelow last.shiftDown parent selected)
  | addProperty path key =>
    if path ++ [.key key] <+: selected then none else some selected
  | renameProperty path newKey =>
    match path.split? with
    | none => some selected
    | some (parent, _) =>
      if path <+: selected then some (Path.mapBelow (fun _ => .key newKey) parent selected)
      else some selected

end Mutation

end FilterEditor
