import FilterEditor.Path
import FilterEditor.Tree.Node

/-!
# What a path addresses, and changing it

`resolve?` walks from the root one selector at a time.  A step fails when a position is out of
range, a key is missing, or the selector does not fit what the walk has reached; then the path
addresses nothing.

An `Edit` says what happens at the place that a path addresses: how a node changes, how a pipeline
changes, and which error it is when the path leads nowhere.  The walk rebuilds the containers on
the way and nothing else.
-/

namespace FilterEditor

/-! ## Finding a place -/

inductive Target where
  | node (n : Node)
  | pipeline (p : Pipeline)
  deriving DecidableEq, Repr

namespace Target

def step? : Target → Selector → Option Target
  | pipeline p, .index i => p[i]?.map node
  | node (.array branches), .branch b => branches[b]?.map pipeline
  | node (.object entries), .key k => (Entries.get? k entries).map pipeline
  | _, _ => none

def walk? (t : Target) (p : Path) : Option Target :=
  p.foldlM step? t

def node? : Target → Option Node
  | node n => some n
  | pipeline _ => none

def pipeline? : Target → Option Pipeline
  | node _ => none
  | pipeline p => some p

end Target

namespace Pipeline

def resolve? (root : Pipeline) (p : Path) : Option Target :=
  (Target.pipeline root).walk? p

def node? (root : Pipeline) (p : Path) : Option Node :=
  (resolve? root p).bind Target.node?

def pipeline? (root : Pipeline) (p : Path) : Option Pipeline :=
  (resolve? root p).bind Target.pipeline?

end Pipeline

theorem Target.walk?_append (t : Target) (p q : Path) :
    t.walk? (p ++ q) = (t.walk? p).bind fun u => u.walk? q := by
  simp [walk?, List.foldlM_append]

/-! ## Changing a place -/

/-- A change at one place of a tree. -/
structure Edit (ε : Type) where
  /-- The error of a path that leads nowhere. -/
  missing : ε
  /-- The change of a node. -/
  onNode : Node → Except ε Node
  /-- The change of a pipeline. -/
  onPipeline : Pipeline → Except ε Pipeline

namespace Edit

variable {ε : Type}

/-- A change of nodes; a path to a pipeline counts as one that leads nowhere. -/
def ofNode (missing : ε) (f : Node → Except ε Node) : Edit ε :=
  ⟨missing, f, fun _ => .error missing⟩

def ofPipeline (missing : ε) (f : Pipeline → Except ε Pipeline) : Edit ε :=
  ⟨missing, fun _ => .error missing, f⟩

mutual

def pipeline (e : Edit ε) : Path → Pipeline → Except ε Pipeline
  | [], p => e.onPipeline p
  | .index i :: rest, p =>
    match p[i]? with
    | none => .error e.missing
    | some n => (e.node rest n).map fun n' => p.set i n'
  | .branch _ :: _, _ => .error e.missing
  | .key _ :: _, _ => .error e.missing

def node (e : Edit ε) : Path → Node → Except ε Node
  | [], n => e.onNode n
  | .branch b :: rest, .array branches =>
    match branches[b]? with
    | none => .error e.missing
    | some p => (e.pipeline rest p).map fun p' => .array (branches.set b p')
  | .key k :: rest, .object entries =>
    match Entries.get? k entries with
    | none => .error e.missing
    | some p => (e.pipeline rest p).map fun p' => .object (Entries.put k p' entries)
  | _ :: _, _ => .error e.missing

end

end Edit

/-- The tree with another node at a path; nothing if the path leads to no node. -/
def Pipeline.withNode? (root : Pipeline) (path : Path) (n : Node) : Option Pipeline :=
  ((Edit.ofNode () fun _ => .ok n).pipeline path root).toOption

end FilterEditor
