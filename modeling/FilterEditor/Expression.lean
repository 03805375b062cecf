import FilterEditor.Text
import FilterEditor.Tree.Node

/-!
# Expressions

The text of a tree.  A filter gives its trimmed text, a pipeline the texts of its nodes with pipes
between them, an array its branches in square brackets, and an object its entries in braces.  What
gives no text is left out together with its separator, its key or its brackets, at every level.

The functions recurse along the tree; `segments_eq_map`, `compile_array` and `compile_object`
restate them with `List.map`, which is the form to use in proofs.
-/

namespace FilterEditor

/-- The texts that stand between the parts of an expression. -/
structure Separators where
  /-- Between the segments of a pipeline. -/
  pipe : String
  /-- Between array branches and between object entries. -/
  item : String
  /-- Between a key and its value. -/
  key : String
  deriving DecidableEq, Repr

namespace Separators

/-- The usual separators, padded with spaces. -/
def spaced : Separators :=
  ⟨" | ", ", ", ": "⟩

def compact : Separators :=
  ⟨"|", ",", ":"⟩

instance : Inhabited Separators := ⟨spaced⟩

end Separators

/-- The parts that are not empty, with a separator between neighbours. -/
def joinNonEmpty (separator : String) (parts : List String) : String :=
  separator.intercalate (parts.filter (· ≠ ""))

/-- A text between brackets; nothing has no brackets. -/
def enclose (opening closing inner : String) : String :=
  if inner = "" then "" else opening ++ inner ++ closing

/-- A key with its value; the key goes away together with an empty value. -/
def keyed (separator key value : String) : String :=
  if value = "" then "" else key ++ separator ++ value

mutual

def Node.compile (s : Separators) : Node → String
  | .filter value => Text.trim value
  | .array branches => enclose "[" "]" (joinNonEmpty s.item (Node.branchTexts s branches))
  | .object entries => enclose "\x7b" "\x7d" (joinNonEmpty s.item (Node.entryTexts s entries))

def Pipeline.segments (s : Separators) : List Node → List String
  | [] => []
  | n :: rest => n.compile s :: Pipeline.segments s rest

def Node.branchTexts (s : Separators) : List (List Node) → List String
  | [] => []
  | branch :: rest => joinNonEmpty s.pipe (Pipeline.segments s branch) :: Node.branchTexts s rest

def Node.entryTexts (s : Separators) : List (String × List Node) → List String
  | [] => []
  | (key, branch) :: rest =>
    keyed s.key key (joinNonEmpty s.pipe (Pipeline.segments s branch)) :: Node.entryTexts s rest

end

def Pipeline.compile (s : Separators) (p : Pipeline) : String :=
  joinNonEmpty s.pipe (Pipeline.segments s p)

def Node.expression (n : Node) : String :=
  n.compile .spaced

/-- The text of a pipeline with the usual separators. -/
def Pipeline.expression (p : Pipeline) : String :=
  Pipeline.compile .spaced p

def Node.entryText (s : Separators) (entry : String × Pipeline) : String :=
  keyed s.key entry.1 (Pipeline.compile s entry.2)

theorem Pipeline.segments_eq_map (s : Separators) (p : Pipeline) :
    Pipeline.segments s p = p.map (Node.compile s) := by
  induction p with
  | nil => rfl
  | cons n rest ih => simp [Pipeline.segments, ih]

theorem Pipeline.compile_eq (s : Separators) (p : Pipeline) :
    Pipeline.compile s p = joinNonEmpty s.pipe (p.map (Node.compile s)) := by
  rw [Pipeline.compile, Pipeline.segments_eq_map]

theorem Node.compile_array (s : Separators) (branches : List Pipeline) :
    (Node.array branches).compile s =
      enclose "[" "]" (joinNonEmpty s.item (branches.map (Pipeline.compile s))) := by
  have h : ∀ bs : List Pipeline, Node.branchTexts s bs = bs.map (Pipeline.compile s) := by
    intro bs
    induction bs with
    | nil => rfl
    | cons b rest ih => simp [Node.branchTexts, ih, Pipeline.compile]
  rw [Node.compile, h]

theorem Node.compile_object (s : Separators) (entries : Entries Pipeline) :
    (Node.object entries).compile s =
      enclose "\x7b" "\x7d" (joinNonEmpty s.item (entries.map (Node.entryText s))) := by
  have h : ∀ es : Entries Pipeline, Node.entryTexts s es = es.map (Node.entryText s) := by
    intro es
    induction es with
    | nil => rfl
    | cons e rest ih => simp [Node.entryTexts, ih, Node.entryText, Pipeline.compile]
  rw [Node.compile, h]

end FilterEditor
