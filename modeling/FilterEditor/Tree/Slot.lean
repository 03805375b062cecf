import FilterEditor.Tree.Place

/-!
# Places open for writing

`resolve?` gives what a path addresses.  `slot?` walks the same way and keeps in hand, next to what
the walk has reached, what the whole tree is when something else stands there.  A node and a
pipeline cannot stand for each other, so each sort of place takes its own.
-/

namespace FilterEditor

/-- A place that is open for writing: what stands there, and the whole with something else there. -/
inductive Slot where
  | node (n : Node) (put : Node → Pipeline)
  | pipeline (p : Pipeline) (put : Pipeline → Pipeline)

namespace Slot

def target : Slot → Target
  | node n _ => .node n
  | pipeline p _ => .pipeline p

def whole : Slot → Pipeline
  | node n put => put n
  | pipeline p put => put p

/-- The whole with something else in the place, if it is of the same sort. -/
def write? : Slot → Target → Option Pipeline
  | node _ put, .node n => some (put n)
  | pipeline _ put, .pipeline p => some (put p)
  | _, _ => none

def step? : Slot → Selector → Option Slot
  | pipeline p put, .index i => p[i]?.map fun n => node n fun n' => put (p.set i n')
  | node (.array branches) put, .branch b =>
    branches[b]?.map fun p => pipeline p fun p' => put (.array (branches.set b p'))
  | node (.object entries) put, .key k =>
    (Entries.get? k entries).map fun p =>
      pipeline p fun p' => put (.object (Entries.put k p' entries))
  | _, _ => none

def walk? (slot : Slot) (path : Path) : Option Slot :=
  path.foldlM step? slot

end Slot

/-- What a path addresses in a tree, open for writing. -/
def Pipeline.slot? (root : Pipeline) (path : Path) : Option Slot :=
  (Slot.pipeline root id).walk? path

end FilterEditor
