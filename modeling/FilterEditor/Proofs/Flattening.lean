import FilterEditor.Proofs.Framing
import FilterEditor.Proofs.Tidy

/-!
# A part may be flattened to its text

A filter shows its text without the blanks at the ends.  So a node can only be exchanged for the
filter that holds its text if the text has no blanks there, and that is so for every node whatever
the separators and the keys are: a separator stands between two parts, and a key inside of braces
(`Node.trimmed_compile`).  What a joined text begins and ends with are its first and its last part
that show something (`Trimmed.append`).

Framing does the rest: around a node the text of the tree goes by the text of the node alone.
-/

namespace FilterEditor

namespace Text

/-- No blank stands at an end of the text. -/
structure Trimmed (text : String) : Prop where
  head : ∀ c ∈ text.toList.head?, isBlank c = false
  last : ∀ c ∈ text.toList.getLast?, isBlank c = false

theorem trimBlanks_eq_self_iff {cs : List Char} : trimBlanks cs = cs ↔
    cs.dropWhile isBlank = cs ∧ cs.rdropWhile isBlank = cs := by
  have htrim : trimBlanks cs = (cs.dropWhile isBlank).rdropWhile isBlank := rfl
  rw [htrim]
  constructor
  · intro h
    -- Nothing is lost in the end, so nothing is lost at the beginning.
    have hle := (List.rdropWhile_prefix isBlank (cs.dropWhile isBlank)).length_le
    rw [h] at hle
    have hsuffix : cs.dropWhile isBlank <:+ cs := List.dropWhile_suffix isBlank
    have hdrop : cs.dropWhile isBlank = cs :=
      hsuffix.eq_of_length (Nat.le_antisymm hsuffix.length_le hle)
    rw [hdrop] at h
    exact ⟨hdrop, h⟩
  · rintro ⟨hdrop, hrdrop⟩
    rw [hdrop, hrdrop]

theorem dropWhile_isBlank_eq_self_iff {cs : List Char} :
    cs.dropWhile isBlank = cs ↔ ∀ c ∈ cs.head?, isBlank c = false := by
  rw [List.dropWhile_eq_self_iff]
  cases cs <;> simp

theorem rdropWhile_isBlank_eq_self_iff {cs : List Char} :
    cs.rdropWhile isBlank = cs ↔ ∀ c ∈ cs.getLast?, isBlank c = false := by
  rw [List.rdropWhile_eq_self_iff]
  rcases cs.eq_nil_or_concat with rfl | ⟨before, c, rfl⟩ <;> simp

theorem trimmed_iff {text : String} : Trimmed text ↔ trim text = text := by
  have htrim : trim text = text ↔ trimBlanks text.toList = text.toList := by
    rw [← String.toList_inj, trim, String.toList_ofList]
  rw [htrim, trimBlanks_eq_self_iff, dropWhile_isBlank_eq_self_iff, rdropWhile_isBlank_eq_self_iff]
  exact ⟨fun h => ⟨h.head, h.last⟩, fun h => ⟨h.1, h.2⟩⟩

instance (text : String) : Decidable (Trimmed text) :=
  decidable_of_iff _ trimmed_iff.symm

theorem trimmed_trim (text : String) : Trimmed (trim text) :=
  trimmed_iff.mpr (trim_trim text)

theorem trimmed_empty : Trimmed "" :=
  ⟨nofun, nofun⟩

theorem toList_ne_nil {text : String} (h : text ≠ "") : text.toList ≠ [] := by
  simpa using h

/-- What stands between two texts is at neither end. -/
theorem Trimmed.append {first last : String} (hfirst : Trimmed first) (hlast : Trimmed last)
    (hne : first ≠ "") (hne' : last ≠ "") (between : String) :
    Trimmed (first ++ between ++ last) := by
  constructor
  · rw [String.toList_append, String.toList_append, List.append_assoc,
      List.head?_append_of_ne_nil _ (toList_ne_nil hne)]
    exact hfirst.head
  · rw [String.toList_append, List.getLast?_append_of_ne_nil _ (toList_ne_nil hne')]
    exact hlast.last

end Text

open Text (Trimmed)

/-! ## Joining and enclosing -/

theorem intercalate_ne_empty {separator text : String} {rest : List String} (h : text ≠ "") :
    separator.intercalate (text :: rest) ≠ "" := by
  rw [intercalate_cons]
  intro hempty
  exact h (String.append_eq_empty_iff.mp hempty).1

theorem trimmed_intercalate {separator : String} {parts : List String}
    (h : ∀ text ∈ parts, Trimmed text ∧ text ≠ "") : Trimmed (separator.intercalate parts) := by
  induction parts with
  | nil => exact Text.trimmed_empty
  | cons first rest ih =>
    obtain ⟨⟨hfirst, hne⟩, hrest⟩ := List.forall_mem_cons.mp h
    cases rest with
    | nil => exact hfirst
    | cons next rest =>
      rw [String.intercalate_cons_cons]
      exact hfirst.append (ih hrest) hne (intercalate_ne_empty (hrest next List.mem_cons_self).2) _

theorem trimmed_joinNonEmpty {α : Type} (separator : String) {text : α → String} {parts : List α}
    (h : ∀ a ∈ parts, Trimmed (text a)) : Trimmed (joinNonEmpty separator (parts.map text)) := by
  rw [joinNonEmpty_map]
  refine trimmed_intercalate (List.forall_mem_map.mpr fun a ha => ?_)
  obtain ⟨hmem, hne⟩ := mem_shown.mp ha
  exact ⟨h a hmem, hne⟩

theorem trimmed_enclose {opening closing : String} (hopening : Trimmed opening)
    (hclosing : Trimmed closing) (hne : opening ≠ "") (hne' : closing ≠ "") (inner : String) :
    Trimmed (enclose opening closing inner) := by
  rw [enclose]
  split
  · exact Text.trimmed_empty
  · exact hopening.append hclosing hne hne' inner

/-! ## Nodes and trees -/

/-- **No blank stands at an end of the text of a node.** -/
theorem Node.trimmed_compile (s : Separators) (n : Node) : Trimmed (n.compile s) := by
  cases n with
  | filter value => exact Text.trimmed_trim value
  | array branches =>
    rw [compile_array]
    exact trimmed_enclose (by decide) (by decide) (by decide) (by decide) _
  | object entries =>
    rw [compile_object]
    exact trimmed_enclose (by decide) (by decide) (by decide) (by decide) _

theorem Pipeline.trimmed_compile (s : Separators) (p : Pipeline) : Trimmed (compile s p) := by
  rw [compile_eq]
  exact trimmed_joinNonEmpty s.pipe fun n _ => n.trimmed_compile s

/-- The filter that holds the text of a node shows this text. -/
theorem Node.compile_flat (s : Separators) (n : Node) :
    (filter (n.compile s)).compile s = n.compile s :=
  Text.trimmed_iff.mp (n.trimmed_compile s)

namespace Pipeline

/-- **A part may be flattened to its text.**  No node and no pipeline has a blank at an end of its
text, whatever the separators and the keys.  So the filter that holds the text of a node can take
the place of the node, and the text of the tree stays. -/
theorem flattening_is_invisible (s : Separators) :
    (∀ n : Node, Trimmed (n.compile s)) ∧ (∀ p : Pipeline, Trimmed (compile s p)) ∧
      ∀ (root : Pipeline) (path : Path) (n : Node), root.node? path = some n →
        ∃ flat, root.withNode? path (.filter (n.compile s)) = some flat ∧
          compile s flat = compile s root := by
  refine ⟨Node.trimmed_compile s, trimmed_compile s, fun root path n hnode => ?_⟩
  have hwalk := walk?_of_node? hnode
  obtain ⟨flat, hflat, hwrite⟩ := exists_withNode? hnode (.filter (n.compile s))
  refine ⟨flat, hflat, ?_⟩
  have hkept := Target.compile_write (s := s) (v := .node (.filter (n.compile s))) hwalk rfl
    (n.compile_flat s)
  rw [hwrite] at hkept
  exact hkept

/-- The separators are blanks, and so are the keys around the node. -/
theorem flattening_is_invisible_blanks :
    let s : Separators := ⟨" ", "\n", "\t"⟩
    let inner : Node :=
      .object [(" ", [.filter " .a ", .filter "\u3000", .array [[], [.filter "."]]])]
    let root : Pipeline := [.filter " ", .object [("\t", [.filter ".b", inner, .filter ""])]]
    let path : Path := [.index 1, .key "\t", .index 1]
    root.node? path = some inner ∧
      ∃ flat, root.withNode? path (.filter (inner.compile s)) = some flat ∧
        compile s flat = compile s root := by
  intro s inner root path
  have hnode : root.node? path = some inner := by decide +kernel
  exact ⟨hnode, (flattening_is_invisible s).2.2 root path inner hnode⟩

end Pipeline

end FilterEditor
