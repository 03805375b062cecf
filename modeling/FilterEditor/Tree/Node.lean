import FilterEditor.Tree.Entries

/-!
# Filter trees

A filter of the language jq is a pipeline, a sequence of nodes written with pipes between them.  A
node is a filter, whose text is taken as it is, or a container: an array construction with a
branch per item, or an object construction with a branch under each key.  Every branch is a
pipeline again.

The keys of one object are distinct in every tree that the library builds.  The type does not say
so; the operations on `Entries` keep it.
-/

namespace FilterEditor

/-- One segment of a pipeline. -/
inductive Node where
  /-- Text of a filter, which may be blank. -/
  | filter (value : String)
  /-- An array construction; each branch gives items. -/
  | array (branches : List (List Node))
  /-- An object construction; each branch gives the value of its key. -/
  | object (entries : List (String × List Node))
  deriving Repr, Inhabited

/-- Segments in the order in which they run. -/
abbrev Pipeline := List Node

/-- Induction over a node gives a hypothesis for each node of each branch of a container. -/
@[induction_eliminator]
theorem Node.induction {motive : Node → Prop} (filter : ∀ value, motive (.filter value))
    (array : ∀ branches : List Pipeline, (∀ p ∈ branches, ∀ n ∈ p, motive n) →
      motive (.array branches))
    (object : ∀ entries : Entries Pipeline, (∀ e ∈ entries, ∀ n ∈ e.2, motive n) →
      motive (.object entries))
    (n : Node) : motive n := by
  refine @Node.rec motive (fun branches => ∀ p ∈ branches, ∀ n ∈ p, motive n)
    (fun entries => ∀ e ∈ entries, ∀ n ∈ e.2, motive n) (fun p => ∀ n ∈ p, motive n)
    (fun e => ∀ n ∈ e.2, motive n) filter array object nofun ?_ nofun ?_ nofun ?_
    (fun _ _ h => h) n
  all_goals exact fun _ _ head tail => List.forall_mem_cons.mpr ⟨head, tail⟩

/-! ## Equality is decidable -/

mutual

def Node.hasDecEq : (a b : Node) → Decidable (a = b)
  | .filter v, .filter w => if h : v = w then isTrue (by rw [h]) else isFalse (by simp [h])
  | .array p, .array q =>
    match Node.branchesDecEq p q with
    | isTrue h => isTrue (by rw [h])
    | isFalse h => isFalse (by simp [h])
  | .object p, .object q =>
    match Node.entriesDecEq p q with
    | isTrue h => isTrue (by rw [h])
    | isFalse h => isFalse (by simp [h])
  | .filter _, .array _ | .filter _, .object _ | .array _, .filter _ | .array _, .object _
  | .object _, .filter _ | .object _, .array _ => isFalse nofun
termination_by structural a => a

def Node.pipelineDecEq : (a b : List Node) → Decidable (a = b)
  | [], [] => isTrue rfl
  | [], _ :: _ | _ :: _, [] => isFalse nofun
  | n :: p, m :: q =>
    match Node.hasDecEq n m, Node.pipelineDecEq p q with
    | isTrue h, isTrue k => isTrue (by rw [h, k])
    | isFalse h, _ => isFalse (by simp [h])
    | _, isFalse h => isFalse (by simp [h])
termination_by structural a => a

def Node.branchesDecEq : (a b : List (List Node)) → Decidable (a = b)
  | [], [] => isTrue rfl
  | [], _ :: _ | _ :: _, [] => isFalse nofun
  | n :: p, m :: q =>
    match Node.pipelineDecEq n m, Node.branchesDecEq p q with
    | isTrue h, isTrue k => isTrue (by rw [h, k])
    | isFalse h, _ => isFalse (by simp [h])
    | _, isFalse h => isFalse (by simp [h])
termination_by structural a => a

def Node.entriesDecEq : (a b : List (String × List Node)) → Decidable (a = b)
  | [], [] => isTrue rfl
  | [], _ :: _ | _ :: _, [] => isFalse nofun
  | (k, n) :: p, (l, m) :: q =>
    match decEq k l, Node.pipelineDecEq n m, Node.entriesDecEq p q with
    | isTrue h₁, isTrue h₂, isTrue h₃ => isTrue (by rw [h₁, h₂, h₃])
    | isFalse h, _, _ => isFalse (by simp [h])
    | _, isFalse h, _ => isFalse (by simp [h])
    | _, _, isFalse h => isFalse (by simp [h])
termination_by structural a => a

end

instance : DecidableEq Node := Node.hasDecEq

/-! ## Kinds -/

inductive Kind where
  | filter
  | array
  | object
  deriving DecidableEq, Repr, Inhabited

namespace Kind

/-- The name by which a kind is shown and exchanged. -/
def name : Kind → String
  | filter => "filter"
  | array => "array"
  | object => "object"

def ofName? (s : String) : Option Kind :=
  [filter, array, object].find? (·.name = s)

/-- A fresh node: blank text, or a container without branches. -/
def blankNode : Kind → Node
  | filter => .filter ""
  | array => .array []
  | object => .object []

end Kind

namespace Node

def kind : Node → Kind
  | filter _ => .filter
  | array _ => .array
  | object _ => .object

def isContainer (n : Node) : Bool :=
  n.kind ≠ .filter

/-- The node without its branches; the text of a filter stays. -/
def hollow : Node → Node
  | filter value => .filter value
  | array _ => .array []
  | object _ => .object []

/-- The object with the given entries, in which a repeated key keeps its first place and its last
branch. -/
def ofEntries (pairs : List (String × Pipeline)) : Node :=
  .object (Entries.ofList pairs)

end Node

theorem Kind.ofName?_name (k : Kind) : ofName? k.name = some k := by
  cases k <;> decide

/-! ## Counting nodes -/

mutual

/-- The number of nodes in a tree, its top node included. -/
def Node.count : Node → Nat
  | .filter _ => 1
  | .array branches => 1 + Node.branchesCount branches
  | .object entries => 1 + Node.entriesCount entries

def Pipeline.count : List Node → Nat
  | [] => 0
  | n :: rest => n.count + Pipeline.count rest

def Node.branchesCount : List (List Node) → Nat
  | [] => 0
  | branch :: rest => Pipeline.count branch + Node.branchesCount rest

def Node.entriesCount : List (String × List Node) → Nat
  | [] => 0
  | (_, branch) :: rest => Pipeline.count branch + Node.entriesCount rest

end

end FilterEditor
