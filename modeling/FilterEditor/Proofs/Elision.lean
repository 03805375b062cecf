import FilterEditor.Proofs.Framing
import FilterEditor.Proofs.Tidy

/-!
# What is left out

A tree has no text just when every filter in it is blank, at whatever depth, and this does not
depend on the separators.  Emptiness goes up from the filters: a separator never stands alone, and
brackets and keys appear only with what they enclose and name, so a container shows no text when
none of its branches does (`Node.compile_eq_empty_iff`).

So what a text leaves out can be told from the filters alone.  `Pipeline.dropBlank` takes away, at
every level, the nodes, the branches and the entries in which every filter is blank.  It loses no
filter that is not (`Pipeline.filters_dropBlank`), and as these are the very parts that show no text
(`shown_eq_worded`), the text stays.

`Pipeline.elision_is_emptiness` says both of a whole tree.
-/

namespace FilterEditor

/-! ## The filters of a tree -/

mutual

/-- The texts of the filters in a node, at every depth and in their order. -/
def Node.filters : Node → List String
  | .filter value => [value]
  | .array branches => Node.filtersOfBranches branches
  | .object entries => Node.filtersOfEntries entries

def Pipeline.filters : List Node → List String
  | [] => []
  | n :: rest => n.filters ++ Pipeline.filters rest

def Node.filtersOfBranches : List (List Node) → List String
  | [] => []
  | branch :: rest => Pipeline.filters branch ++ Node.filtersOfBranches rest

def Node.filtersOfEntries : List (String × List Node) → List String
  | [] => []
  | (_, branch) :: rest => Pipeline.filters branch ++ Node.filtersOfEntries rest

end

def Node.entryFilters (entry : String × Pipeline) : List String :=
  Pipeline.filters entry.2

theorem Pipeline.filters_eq (p : Pipeline) : filters p = p.flatMap Node.filters := by
  induction p with
  | nil => rfl
  | cons n rest ih => rw [filters, ih, List.flatMap_cons]

theorem Node.filters_array (branches : List Pipeline) :
    (array branches).filters = branches.flatMap Pipeline.filters := by
  rw [filters]
  induction branches with
  | nil => rfl
  | cons p rest ih => rw [filtersOfBranches, ih, List.flatMap_cons]

theorem Node.filters_object (entries : Entries Pipeline) :
    (object entries).filters = entries.flatMap entryFilters := by
  rw [filters]
  induction entries with
  | nil => rfl
  | cons e rest ih => rw [filtersOfEntries, ih, List.flatMap_cons, entryFilters]

def AllBlank (texts : List String) : Prop :=
  ∀ text ∈ texts, Text.trim text = ""

instance : DecidablePred AllBlank :=
  fun texts => inferInstanceAs (Decidable (∀ text ∈ texts, Text.trim text = ""))

/-- The parts with a text that is not blank. -/
def worded {α : Type} (texts : α → List String) (parts : List α) : List α :=
  parts.filter fun a => ¬ AllBlank (texts a)

section

variable {α : Type} {texts : α → List String} {parts : List α}

theorem worded_cons (texts : α → List String) (a : α) (parts : List α) :
    worded texts (a :: parts) =
      if AllBlank (texts a) then worded texts parts else a :: worded texts parts := by
  simp [worded, List.filter_cons, ite_not]

theorem allBlank_flatMap : AllBlank (parts.flatMap texts) ↔ ∀ a ∈ parts, AllBlank (texts a) :=
  List.forall_mem_flatMap

theorem AllBlank.filter_eq_nil {texts : List String} (h : AllBlank texts) :
    texts.filter (Text.trim · ≠ "") = [] := by
  rw [List.filter_eq_nil_iff]
  intro text hmem
  simp [h text hmem]

/-- The other parts have blank texts alone, so without them no other text is missing. -/
theorem flatMap_map_worded {view : α → α}
    (h : ∀ a ∈ parts, ¬ AllBlank (texts a) →
      texts (view a) = (texts a).filter (Text.trim · ≠ "")) :
    ((worded texts parts).map view).flatMap texts =
      (parts.flatMap texts).filter (Text.trim · ≠ "") := by
  induction parts with
  | nil => rfl
  | cons a rest ih =>
    obtain ⟨ha, hrest⟩ := List.forall_mem_cons.mp h
    rw [worded_cons, List.flatMap_cons, List.filter_append, ← ih hrest]
    by_cases hblank : AllBlank (texts a)
    · rw [if_pos hblank, hblank.filter_eq_nil, List.nil_append]
    · rw [if_neg hblank, List.map_cons, List.flatMap_cons, ha hblank]

end

/-! ## Leaving out what is blank -/

mutual

/-- The node without the parts in which every filter is blank. -/
def Node.dropBlank : Node → Node
  | .filter value => .filter value
  | .array branches => .array (Node.dropBlankBranches branches)
  | .object entries => .object (Node.dropBlankEntries entries)

def Pipeline.dropBlank : List Node → List Node
  | [] => []
  | n :: rest =>
    if AllBlank n.filters then Pipeline.dropBlank rest else n.dropBlank :: Pipeline.dropBlank rest

def Node.dropBlankBranches : List (List Node) → List (List Node)
  | [] => []
  | branch :: rest =>
    if AllBlank (Pipeline.filters branch) then Node.dropBlankBranches rest
    else Pipeline.dropBlank branch :: Node.dropBlankBranches rest

def Node.dropBlankEntries : List (String × List Node) → List (String × List Node)
  | [] => []
  | (key, branch) :: rest =>
    if AllBlank (Pipeline.filters branch) then Node.dropBlankEntries rest
    else (key, Pipeline.dropBlank branch) :: Node.dropBlankEntries rest

end

theorem Pipeline.dropBlank_eq (p : Pipeline) :
    dropBlank p = (worded Node.filters p).map Node.dropBlank := by
  induction p with
  | nil => rfl
  | cons n rest ih =>
    rw [dropBlank, worded_cons, ih]
    split <;> rfl

theorem Node.dropBlank_array (branches : List Pipeline) :
    (array branches).dropBlank =
      .array ((worded Pipeline.filters branches).map Pipeline.dropBlank) := by
  rw [dropBlank]
  congr 1
  induction branches with
  | nil => rfl
  | cons p rest ih =>
    rw [dropBlankBranches, worded_cons, ih]
    split <;> rfl

theorem Node.dropBlank_object (entries : Entries Pipeline) :
    (object entries).dropBlank =
      .object ((worded entryFilters entries).map fun e => (e.1, Pipeline.dropBlank e.2)) := by
  rw [dropBlank]
  congr 1
  induction entries with
  | nil => rfl
  | cons e rest ih =>
    obtain ⟨key, p⟩ := e
    rw [dropBlankEntries, worded_cons, entryFilters, ih]
    split <;> rfl

/-- What is kept of the nodes of a branch is kept of the branch. -/
theorem Pipeline.filters_dropBlank_of_nodes {p : Pipeline}
    (h : ∀ n ∈ p, ¬ AllBlank n.filters →
      n.dropBlank.filters = n.filters.filter (Text.trim · ≠ "")) :
    filters (dropBlank p) = (filters p).filter (Text.trim · ≠ "") := by
  rw [filters_eq, dropBlank_eq, filters_eq]
  exact flatMap_map_worded h

theorem Node.filters_dropBlank {n : Node} (h : ¬ AllBlank n.filters) :
    n.dropBlank.filters = n.filters.filter (Text.trim · ≠ "") := by
  induction n with
  | filter value =>
    rw [filters, AllBlank, List.forall_mem_singleton] at h
    simp [dropBlank, filters, h]
  | array branches ih =>
    rw [dropBlank_array, filters_array, filters_array]
    exact flatMap_map_worded fun p hp _ => Pipeline.filters_dropBlank_of_nodes (ih p hp)
  | object entries ih =>
    rw [dropBlank_object, filters_object, filters_object]
    exact flatMap_map_worded fun e he _ => Pipeline.filters_dropBlank_of_nodes (ih e he)

/-- **No filter with text is lost**, and no blank one is left. -/
theorem Pipeline.filters_dropBlank (p : Pipeline) :
    filters (dropBlank p) = (filters p).filter (Text.trim · ≠ "") :=
  filters_dropBlank_of_nodes fun _ _ => Node.filters_dropBlank

/-! ## Where there is no text -/

theorem Pipeline.compile_eq_empty_iff_of_nodes {s : Separators} {p : Pipeline}
    (h : ∀ n ∈ p, (n.compile s = "" ↔ AllBlank n.filters)) :
    compile s p = "" ↔ AllBlank (filters p) := by
  rw [compile_eq, joinNonEmpty_eq_empty_iff, List.forall_mem_map, filters_eq, allBlank_flatMap]
  exact forall₂_congr h

/-- **A node shows no text just when all its filters are blank.** -/
theorem Node.compile_eq_empty_iff (s : Separators) (n : Node) :
    n.compile s = "" ↔ AllBlank n.filters := by
  induction n with
  | filter value => rw [compile, filters, AllBlank, List.forall_mem_singleton]
  | array branches ih =>
    rw [compile_array, enclose_eq_fill, Frame.fill_eq_empty_iff rfl, joinNonEmpty_eq_empty_iff,
      List.forall_mem_map, filters_array, allBlank_flatMap]
    exact forall₂_congr fun p hp => Pipeline.compile_eq_empty_iff_of_nodes (ih p hp)
  | object entries ih =>
    rw [compile_object, enclose_eq_fill, Frame.fill_eq_empty_iff rfl, joinNonEmpty_eq_empty_iff,
      List.forall_mem_map, filters_object, allBlank_flatMap]
    exact forall₂_congr fun e he =>
      entryText_eq_empty_iff.trans (Pipeline.compile_eq_empty_iff_of_nodes (ih e he))

theorem Pipeline.compile_eq_empty_iff (s : Separators) (p : Pipeline) :
    compile s p = "" ↔ AllBlank (filters p) :=
  compile_eq_empty_iff_of_nodes fun n _ => n.compile_eq_empty_iff s

theorem Node.entryText_eq_empty_iff_allBlank (s : Separators) (e : String × Pipeline) :
    entryText s e = "" ↔ AllBlank (entryFilters e) :=
  entryText_eq_empty_iff.trans (Pipeline.compile_eq_empty_iff s e.2)

theorem shown_eq_worded {α : Type} {text : α → String} {texts : α → List String}
    (h : ∀ a, text a = "" ↔ AllBlank (texts a)) (parts : List α) :
    shown text parts = worded texts parts := by
  simp only [shown, worded, ne_eq, h]

theorem Node.dropBlank_elides (s : Separators) : Elides s dropBlank Pipeline.dropBlank where
  filter _ := rfl
  pipeline p := by rw [Pipeline.dropBlank_eq, shown_eq_worded (compile_eq_empty_iff s)]
  array branches := by
    rw [dropBlank_array, shown_eq_worded (Pipeline.compile_eq_empty_iff s)]
  object entries := by
    rw [dropBlank_object, shown_eq_worded (entryText_eq_empty_iff_allBlank s)]

/-- **What is left out is what is empty.**  A pipeline has no text just when every filter in it, at
whatever depth, is blank, and no separators change that.  What is blank throughout can be taken
away, at every level, and the text stays. -/
theorem Pipeline.elision_is_emptiness (s : Separators) (p : Pipeline) :
    (compile s p = "" ↔ ∀ text ∈ filters p, Text.trim text = "") ∧
      (∀ s', compile s p = "" ↔ compile s' p = "") ∧
      compile s (dropBlank p) = compile s p :=
  ⟨compile_eq_empty_iff s p,
    fun s' => (compile_eq_empty_iff s p).trans (compile_eq_empty_iff s' p).symm,
    (Node.dropBlank_elides s).compile_pipeline p⟩

/-- A filter with text below blank ones, an empty array and an object of blank entries. -/
example :
    Pipeline.dropBlank [.filter " ", .array [[], [.object [("k", [.filter "\t"]), ("l", [])]],
      [.filter " .a ", .array []]], .object []] = [.array [[.filter " .a "]]] := by
  decide +kernel

end FilterEditor
