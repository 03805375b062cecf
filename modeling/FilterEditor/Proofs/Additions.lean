import FilterEditor.Proofs.Fits
import FilterEditor.Proofs.Preview
import FilterEditor.Proofs.PreviewText
import FilterEditor.Proofs.Selection
import FilterEditor.Proofs.Tidy

/-!
# What is added shows no text

A new node is blank, a new branch is empty or holds a blank node, and so does a new entry.  None of
them gives any text, and what gives no text leaves no trace in the text around it: no separator, no
key, no brackets.  So a mutation that only adds keeps the text of its container
(`Acts.compile_of_adds`), and with it the text of the tree (`compile_of_adds`).

The same holds of the preview.  A place that is selected is still there after an addition, and the
keys on the way to it are the same.  Where the addition is inside the place, the text of the place is
the same as well (`preview?_of_adds`).
-/

namespace FilterEditor

/-! ## Parts without text -/

section Lists

variable {α : Type} {text : α → String} {a : α}

theorem filter_insertIdx_of_neg {p : α → Bool} (h : p a = false) (i : Nat) (l : List α) :
    (l.insertIdx i a).filter p = l.filter p := by
  induction l generalizing i with
  | nil => cases i <;> simp [h]
  | cons b rest ih =>
    cases i with
    | zero => simp [h]
    | succ i => rw [List.insertIdx_succ_cons, List.filter_cons, List.filter_cons, ih]

theorem shown_insertAfter (h : text a = "") (i : Nat) (l : List α) :
    shown text (insertAfter i a l) = shown text l :=
  filter_insertIdx_of_neg (by simp [h]) _ l

theorem shown_concat (h : text a = "") (l : List α) : shown text (l ++ [a]) = shown text l := by
  simp [shown, h]

end Lists

variable {s : Separators}

theorem Kind.compile_blankNode (s : Separators) (kind : Kind) : kind.blankNode.compile s = "" := by
  cases kind <;> rfl

theorem Pipeline.compile_congr {p q : Pipeline}
    (h : shown (Node.compile s) p = shown (Node.compile s) q) :
    Pipeline.compile s p = Pipeline.compile s q := by
  rw [compile_eq, compile_eq, joinNonEmpty_map, joinNonEmpty_map, h]

theorem Node.compile_array_congr {branches branches' : List Pipeline}
    (h : shown (Pipeline.compile s) branches = shown (Pipeline.compile s) branches') :
    (Node.array branches).compile s = (Node.array branches').compile s := by
  rw [compile_array, compile_array, joinNonEmpty_map, joinNonEmpty_map, h]

theorem Node.compile_object_congr {entries entries' : Entries Pipeline}
    (h : shown (Node.entryText s) entries = shown (Node.entryText s) entries') :
    (Node.object entries).compile s = (Node.object entries').compile s := by
  rw [compile_object, compile_object, joinNonEmpty_map, joinNonEmpty_map, h]

theorem Node.compile_put_of_not_mem {key : String} {branch : Pipeline} {entries : Entries Pipeline}
    (hkey : key ∉ Entries.keys entries) (h : Pipeline.compile s branch = "") :
    (Node.object (Entries.put key branch entries)).compile s = (Node.object entries).compile s := by
  rw [Entries.put_of_not_mem hkey]
  exact compile_object_congr (shown_concat (entryText_eq_empty_iff.mpr h) entries)

/-! ## Additions -/

namespace Mutation

variable {stem : String} {m : Mutation} {root root' : Pipeline} {path : Path}

/-- The mutation adds something to a tree and takes nothing away. -/
def Adds (m : Mutation) (root : Pipeline) : Prop :=
  match m with
  | insertSibling .. | appendBranch _ => True
  | addProperty path key => root.resolve? (path ++ [.key key]) = none
  | setFilterValue .. | removeNode _ | removeBranch _ | renameProperty .. => False

instance (m : Mutation) (root : Pipeline) : Decidable (m.Adds root) :=
  match m with
  | insertSibling .. | appendBranch _ => isTrue trivial
  | addProperty path key => inferInstanceAs (Decidable (root.resolve? (path ++ [.key key]) = none))
  | setFilterValue .. | removeNode _ | removeBranch _ | renameProperty .. => isFalse not_false

/-- **An addition keeps the text of its container.** -/
theorem Acts.compile_of_adds {u u' : Target} (h : m.Acts stem u u') (hadds : m.Adds root)
    (hu : root.resolve? m.container = some u) : u'.compile s = u.compile s := by
  have hblank : ∀ kind : Kind, Pipeline.compile s [kind.blankNode] = "" := by
    intro kind
    rw [Pipeline.compile_singleton, kind.compile_blankNode]
  cases h with
  | setFilterValue => cases hadds
  | @insertFront kind p =>
    refine Pipeline.compile_congr ?_
    rw [shown_cons, if_pos (kind.compile_blankNode s)]
  | @insertNode path kind i p _ =>
    exact Pipeline.compile_congr (shown_insertAfter (kind.compile_blankNode s) i p)
  | @insertBranch path kind b branches _ =>
    exact Node.compile_array_congr (shown_insertAfter (hblank kind) b branches)
  | @insertEntry path kind k entries _ =>
    exact Node.compile_put_of_not_mem (Entries.freshKey_not_mem entries stem) (hblank kind)
  | @appendBranch path branches => exact Node.compile_array_congr (shown_concat rfl branches)
  | removeNode => cases hadds
  | removeItem => cases hadds
  | removeEntry => cases hadds
  | addProperty =>
    exact Node.compile_put_of_not_mem (not_mem_keys_of_resolve?_eq_none hu hadds) (hblank .filter)
  | renameProperty => cases hadds

end Mutation

namespace Mutation

variable {stem : String} {m : Mutation} {root root' : Pipeline} {path : Path}

/-- **An addition keeps the text of the tree.** -/
theorem compile_of_adds (happly : m.applyWith stem root = .ok root') (hadds : m.Adds root) :
    Pipeline.compile s root' = Pipeline.compile s root := by
  obtain ⟨u, u', hu, hacts, hw⟩ := applyWith_eq_ok_iff.mp happly
  have hcontainer : u'.compile s = u.compile s := hacts.compile_of_adds hadds hu
  have htext := Target.compile_write hu hacts.isNode_eq hcontainer
  rw [hw] at htext
  exact htext

theorem exists_rebase_of_adds (hadds : m.Adds root) (hres : (root.resolve? path).isSome) :
    ∃ p, m.rebase path = some p ∧ p.collapse = path.collapse := by
  have hnames : ¬ m.Renames path := by
    intro hnames
    cases m with
    | renameProperty => cases hadds
    | _ => cases hnames
  have hsome : ∃ p, m.rebase path = some p := by
    cases m with
    | setFilterValue => cases hadds
    | insertSibling target kind =>
      rw [rebase]
      cases target.split? with
      | none => exact ⟨_, rfl⟩
      | some split => exact ⟨_, rfl⟩
    | appendBranch target => exact ⟨path, rfl⟩
    | removeNode => cases hadds
    | removeBranch => cases hadds
    | addProperty target key =>
      refine ⟨path, if_neg ?_⟩
      rintro ⟨rest, rfl⟩
      rw [Adds, Pipeline.resolve?] at hadds
      rw [Pipeline.resolve?, Target.walk?_append, hadds] at hres
      cases hres
    | renameProperty => cases hadds
  obtain ⟨p, hp⟩ := hsome
  exact ⟨p, hp, collapse_rebase hp hnames⟩

/-- **An addition keeps the preview of every place.** -/
theorem preview?_of_adds (happly : m.applyWith stem root = .ok root') (hadds : m.Adds root)
    (hne : path ≠ []) (hres : (root.resolve? path).isSome) :
    ∃ p, m.rebase path = some p ∧ root'.preview? p = root.preview? path := by
  obtain ⟨p, hp, hcollapse⟩ := exists_rebase_of_adds hadds hres
  obtain ⟨t, ht⟩ := Option.isSome_iff_exists.mp hres
  obtain ⟨u, u', hu, hacts, hw⟩ := applyWith_eq_ok_iff.mp happly
  have hplace : ∃ t', root'.resolve? p = some t' ∧ t'.compile .spaced = t.compile .spaced := by
    rw [Pipeline.resolve?] at hu ht
    rw [Pipeline.resolve?, ← hw]
    rcases hacts.walk?_rebase hu ht hp with ⟨-, hwalk⟩ | ⟨q, hq, hbelow, hwalk⟩
    · exact ⟨t, hwalk, rfl⟩
    · refine ⟨t.write q u', hwalk, Target.compile_write hbelow hacts.isNode_eq ?_⟩
      exact hacts.compile_of_adds hadds hu
  obtain ⟨t', ht', htext⟩ := hplace
  refine ⟨p, hp, ?_⟩
  rw [Pipeline.preview?_eq hne ht, Pipeline.preview?_eq (rebase_ne_nil hp hne) ht', htext,
    ← Path.foldr_wrap_collapse, hcollapse, Path.foldr_wrap_collapse]

end Mutation

/-! ## Sessions -/

namespace Session

/-- **An addition changes nothing of what is evaluated.**  Whatever has been done with a session, the
expression of the tree, the preview of the selected place and the expression that is evaluated are
the same texts before and after a mutation that adds a node, a branch or an entry under a new key. -/
theorem addition_keeps_expressions (id : String) (document : Document) (config : Config)
    (cs : List Command) (m : Mutation) :
    let s := run cs (ofConfig id document config)
    m.Adds s.document.root → (s.apply m).1.isApplied →
      (s.apply m).2.fullExpression = s.fullExpression ∧
        (s.apply m).2.selectedExpression? = s.selectedExpression? ∧
        (s.apply m).2.activeExpression = s.activeExpression := by
  intro s hadds happlied
  have hvalid : s.view.Valid := valid_run (View.Valid.of_none rfl) cs
  cases hm : m.applyWith s.document.freshKeyPrefix s.document.root with
  | error e =>
    rw [apply_of_error hm] at happlied
    cases happlied
  | ok root =>
    obtain ⟨-, hview, -⟩ := apply_of_ok hm
    have hfull : (s.apply m).2.fullExpression = s.fullExpression := by
      have hroot : (s.apply m).2.document.root = root := congrArg View.root hview
      show Pipeline.compile .spaced (s.apply m).2.document.root = _
      rw [hroot]
      exact Mutation.compile_of_adds hm hadds
    have hselected : (s.apply m).2.selectedExpression? = s.selectedExpression? := by
      show (s.apply m).2.view.selected?.bind (s.apply m).2.view.root.preview? =
        s.view.selected?.bind s.view.root.preview?
      rw [hview, hvalid.selected?_follow hm]
      cases hsel : s.view.selected? with
      | none => rfl
      | some path =>
        obtain ⟨hne, hres⟩ := hvalid path hsel
        obtain ⟨p, hp, hpreview⟩ := Mutation.preview?_of_adds hm hadds hne hres
        rw [Option.bind_some, hp]
        exact hpreview
    refine ⟨hfull, hselected, ?_⟩
    rw [activeExpression, activeExpression, hselected, hfull]

/-- A branch is put before the one that holds the selected node, and an entry into the selected
branch of an object. -/
theorem addition_keeps_expressions_around_selection :
    let root : Pipeline := [.filter ".", .array [[.filter ".x"], [.object [("k", [.filter ".y"])]]]]
    let selection : Path := [.index 1, .branch 1]
    let s := run [.toggleSelection selection] (ofConfig "" (.ofRoot root) .standard)
    let before : Mutation := .insertSibling [.index 1, .branch 0] .object
    let inside : Mutation := .addProperty [.index 1, .branch 1, .index 0] "j"
    s.activeExpression = "[\x7bk: .y\x7d]" ∧
      (s.apply before).2.selectedPath? = some [.index 1, .branch 2] ∧
      (s.apply before).2.activeExpression = s.activeExpression ∧
      (s.apply inside).2.activeExpression = s.activeExpression := by
  intro root selection s before inside
  have htext : s.activeExpression = "[\x7bk: .y\x7d]" := by decide +kernel
  have hmoved : (s.apply before).2.selectedPath? = some [.index 1, .branch 2] := by decide
  obtain ⟨-, -, hbefore⟩ := addition_keeps_expressions "" (.ofRoot root) .standard
    [.toggleSelection selection] before trivial (by decide)
  obtain ⟨-, -, hinside⟩ := addition_keeps_expressions "" (.ofRoot root) .standard
    [.toggleSelection selection] inside (by decide) (by decide)
  exact ⟨htext, hmoved, hbefore, hinside⟩

end Session

end FilterEditor
