import Mathlib.Data.List.DropRight
import FilterEditor.Expression

/-!
# Tidy trees

A text does not show everything: the blanks at the ends of a filter are not in it, nor is a node, a
branch or an entry that gives no text.  `Pipeline.tidy` takes all this away, at every level, and
`Pipeline.compile_tidy` says that the text stays.

Like the text itself, tidying recurses along the tree; `tidy_eq`, `tidy_array` and `tidy_object` are
the forms for proofs.
-/

namespace FilterEditor

/-- The parts that show some text. -/
def shown {α : Type} (text : α → String) (parts : List α) : List α :=
  parts.filter (text · ≠ "")

theorem shown_cons {α : Type} (text : α → String) (a : α) (parts : List α) :
    shown text (a :: parts) = if text a = "" then shown text parts else a :: shown text parts := by
  simp [shown, List.filter_cons, ite_not]

theorem mem_shown {α : Type} {text : α → String} {parts : List α} {a : α} :
    a ∈ shown text parts ↔ a ∈ parts ∧ text a ≠ "" := by
  simp [shown]

theorem joinNonEmpty_map {α : Type} (separator : String) (text : α → String) (parts : List α) :
    joinNonEmpty separator (parts.map text) =
      separator.intercalate ((shown text parts).map text) := by
  rw [joinNonEmpty, List.filter_map]
  rfl

/-- The others can be left out, and the parts exchanged for ones of the same text. -/
theorem joinNonEmpty_map_shown {α β : Type} {separator : String} {text : α → String}
    {text' : β → String} {view : α → β} {parts : List α}
    (h : ∀ a ∈ parts, text' (view a) = text a) :
    joinNonEmpty separator (((shown text parts).map view).map text') =
      joinNonEmpty separator (parts.map text) := by
  have hview : ((shown text parts).map view).map text' = (shown text parts).map text := by
    rw [List.map_map]
    exact List.map_congr_left fun a ha => h a (mem_shown.mp ha).1
  rw [hview, joinNonEmpty_map, joinNonEmpty_map, shown, shown, List.filter_filter]
  simp only [Bool.and_self]

/-! ## Tidying -/

mutual

/-- The node with its filters trimmed and without the parts that show no text. -/
def Node.tidy (s : Separators) : Node → Node
  | .filter value => .filter (Text.trim value)
  | .array branches => .array (Node.tidyBranches s branches)
  | .object entries => .object (Node.tidyEntries s entries)

def Pipeline.tidy (s : Separators) : List Node → List Node
  | [] => []
  | n :: rest =>
    if n.compile s = "" then Pipeline.tidy s rest else n.tidy s :: Pipeline.tidy s rest

def Node.tidyBranches (s : Separators) : List (List Node) → List (List Node)
  | [] => []
  | branch :: rest =>
    if Pipeline.compile s branch = "" then Node.tidyBranches s rest
    else Pipeline.tidy s branch :: Node.tidyBranches s rest

def Node.tidyEntries (s : Separators) : List (String × List Node) → List (String × List Node)
  | [] => []
  | (key, branch) :: rest =>
    if Node.entryText s (key, branch) = "" then Node.tidyEntries s rest
    else (key, Pipeline.tidy s branch) :: Node.tidyEntries s rest

end

theorem Pipeline.tidy_eq (s : Separators) (p : Pipeline) :
    Pipeline.tidy s p = (shown (Node.compile s) p).map (Node.tidy s) := by
  induction p with
  | nil => rfl
  | cons n rest ih =>
    rw [Pipeline.tidy, shown_cons, ih]
    split <;> rfl

theorem Node.tidy_array (s : Separators) (branches : List Pipeline) :
    (Node.array branches).tidy s =
      .array ((shown (Pipeline.compile s) branches).map (Pipeline.tidy s)) := by
  rw [Node.tidy]
  congr 1
  induction branches with
  | nil => rfl
  | cons p rest ih =>
    rw [Node.tidyBranches, shown_cons, ih]
    split <;> rfl

theorem Node.tidy_object (s : Separators) (entries : Entries Pipeline) :
    (Node.object entries).tidy s =
      .object ((shown (Node.entryText s) entries).map fun e => (e.1, Pipeline.tidy s e.2)) := by
  rw [Node.tidy]
  congr 1
  induction entries with
  | nil => rfl
  | cons e rest ih =>
    obtain ⟨key, p⟩ := e
    rw [Node.tidyEntries, shown_cons, ih]
    split <;> rfl

/-! ## The text stays -/

namespace Text

theorem trimBlanks_trimBlanks (cs : List Char) : trimBlanks (trimBlanks cs) = trimBlanks cs := by
  let inner := cs.dropWhile isBlank
  -- What is left begins as `inner` does, and `inner` begins with no blank.
  have hleft : (inner.rdropWhile isBlank).dropWhile isBlank = inner.rdropWhile isBlank := by
    rw [List.dropWhile_eq_self_iff]
    intro hlt
    have hle : inner.rdropWhile isBlank <+: inner := List.rdropWhile_prefix isBlank inner
    have hlt' : 0 < inner.length := Nat.lt_of_lt_of_le hlt hle.length_le
    rw [hle.getElem hlt]
    exact List.dropWhile_eq_self_iff.mp (List.dropWhile_idempotent isBlank cs) hlt'
  show ((inner.rdropWhile isBlank).dropWhile isBlank).rdropWhile isBlank = inner.rdropWhile isBlank
  rw [hleft, List.rdropWhile_idempotent]

theorem trim_trim (text : String) : trim (trim text) = trim text := by
  rw [trim, trim, String.toList_ofList, trimBlanks_trimBlanks]

end Text

/-- A view of the nodes leaves out what shows no text, at every level, and lets every filter keep
its text. -/
structure Node.Elides (s : Separators) (view : Node → Node) (viewAll : Pipeline → Pipeline) :
    Prop where
  filter : ∀ value, (view (.filter value)).compile s = Text.trim value
  pipeline : ∀ p, viewAll p = (shown (Node.compile s) p).map view
  array : ∀ branches, view (.array branches) =
    .array ((shown (Pipeline.compile s) branches).map viewAll)
  object : ∀ entries, view (.object entries) =
    .object ((shown (Node.entryText s) entries).map fun e => (e.1, viewAll e.2))

namespace Node.Elides

variable {s : Separators} {view : Node → Node} {viewAll : Pipeline → Pipeline}

/-- A branch is viewed node by node, so what is kept for its nodes is kept for the branch. -/
theorem compile_branch (h : Elides s view viewAll) {p : Pipeline}
    (hnodes : ∀ n ∈ p, (view n).compile s = n.compile s) :
    Pipeline.compile s (viewAll p) = Pipeline.compile s p := by
  rw [Pipeline.compile_eq, h.pipeline, joinNonEmpty_map_shown hnodes, Pipeline.compile_eq]

theorem compile_node (h : Elides s view viewAll) (n : Node) :
    (view n).compile s = n.compile s := by
  induction n with
  | filter value => exact h.filter value
  | array branches ih =>
    have hbranch : ∀ p ∈ branches, Pipeline.compile s (viewAll p) = Pipeline.compile s p :=
      fun p hp => h.compile_branch (ih p hp)
    rw [h.array, compile_array, joinNonEmpty_map_shown hbranch, compile_array]
  | object entries ih =>
    have hentry : ∀ e ∈ entries, entryText s (e.1, viewAll e.2) = entryText s e :=
      fun e he => congrArg (keyed s.key e.1) (h.compile_branch (ih e he))
    rw [h.object, compile_object, joinNonEmpty_map_shown hentry, compile_object]

theorem compile_pipeline (h : Elides s view viewAll) (p : Pipeline) :
    Pipeline.compile s (viewAll p) = Pipeline.compile s p :=
  h.compile_branch fun n _ => h.compile_node n

end Node.Elides

theorem Node.tidy_elides (s : Separators) : Elides s (tidy s) (Pipeline.tidy s) where
  filter := Text.trim_trim
  pipeline := Pipeline.tidy_eq s
  array := tidy_array s
  object := tidy_object s

/-- **Tidying keeps the text.** -/
theorem Pipeline.compile_tidy (s : Separators) (p : Pipeline) :
    Pipeline.compile s (Pipeline.tidy s p) = Pipeline.compile s p :=
  (Node.tidy_elides s).compile_pipeline p

end FilterEditor
