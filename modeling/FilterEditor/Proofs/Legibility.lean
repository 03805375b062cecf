import FilterEditor.Proofs.Framing
import FilterEditor.Proofs.Tidy

/-!
# A text shows its tree

When no filter and no key has a blank or a mark of the syntax in it, the text of a tree tells all
that tidying leaves of the tree.

The road is that of a prefix code.  `Legible` says of a part that its text ends by itself: in a
longer text that begins with it and goes on at a *stop*, no other part could have been meant, and
nothing of what follows belongs to it.  A plain text ends at any mark (`append_inj_of_stopsAt`).
Joining, keying and enclosing keep parts legible (`Legible.joined`, `Node.legible_entry`,
`Legible.enclosed`), where the first character of a separator stops the parts that it separates and
no longer what is joined from them.  So all nodes are legible, from the filters up (`Node.legible`),
since the first character already tells the kind of a node.

`Pipeline.text_determines_tree` is this for whole trees and the two kinds of separators in use.
-/

namespace FilterEditor

/-! ## Plain trees -/

namespace Text

/-- The blanks and the marks of the syntax. -/
def isMark (c : Char) : Bool :=
  isBlank c || ['|', ',', ':', '[', ']', '{', '}'].contains c

/-- Whether a text has no blank and no mark in it. -/
def isPlain (text : String) : Bool :=
  text.toList.all fun c => !isMark c

theorem isPlain_iff {text : String} :
    isPlain text = true ↔ ∀ c ∈ text.toList, isMark c = false := by
  simp [isPlain]

end Text

mutual

/-- Whether every filter, trimmed, and every key is plain. -/
def Node.isPlain : Node → Bool
  | .filter value => Text.isPlain (Text.trim value)
  | .array branches => Node.branchesPlain branches
  | .object entries => Node.entriesPlain entries

def Pipeline.isPlain : List Node → Bool
  | [] => true
  | n :: rest => n.isPlain && Pipeline.isPlain rest

def Node.branchesPlain : List (List Node) → Bool
  | [] => true
  | branch :: rest => Pipeline.isPlain branch && Node.branchesPlain rest

def Node.entriesPlain : List (String × List Node) → Bool
  | [] => true
  | (key, branch) :: rest =>
    Text.isPlain key && Pipeline.isPlain branch && Node.entriesPlain rest

end

theorem Pipeline.isPlain_iff {p : Pipeline} : isPlain p = true ↔ ∀ n ∈ p, n.isPlain = true := by
  induction p with
  | nil => simp [isPlain]
  | cons n rest ih => simp [isPlain, ih]

theorem Node.isPlain_array_iff {branches : List Pipeline} :
    (array branches).isPlain = true ↔ ∀ p ∈ branches, Pipeline.isPlain p = true := by
  rw [isPlain]
  induction branches with
  | nil => simp [branchesPlain]
  | cons p rest ih => simp [branchesPlain, ih]

def Node.entryPlain (entry : String × Pipeline) : Bool :=
  Text.isPlain entry.1 && Pipeline.isPlain entry.2

theorem Node.isPlain_object_iff {entries : Entries Pipeline} :
    (object entries).isPlain = true ↔ ∀ e ∈ entries, entryPlain e = true := by
  rw [isPlain]
  induction entries with
  | nil => simp [entriesPlain]
  | cons e rest ih => simp [entriesPlain, entryPlain, ih]

/-! ## Legible parts -/

/-- A rest in which nothing more belongs to the part before it: it is empty or begins at a stop. -/
def StopsAt (stop : Char → Bool) (rest : List Char) : Prop :=
  ∀ c ∈ rest.head?, stop c = true

/-- Another part whose text is met at the same place has the same view and the same rest. -/
def Legible {α β : Type} (good : α → Bool) (text : α → String) (view : α → β)
    (stop : Char → Bool) (a : α) : Prop :=
  good a = true → text a ≠ "" → ∀ b, good b = true → text b ≠ "" → ∀ rest rest',
    StopsAt stop rest → StopsAt stop rest' →
      (text a).toList ++ rest = (text b).toList ++ rest' → view a = view b ∧ rest = rest'

def stopsExcept (stop : Char → Bool) (c : Char) : Char → Bool :=
  fun d => stop d && d ≠ c

theorem StopsAt.of_except {stop : Char → Bool} {c : Char} {rest : List Char}
    (h : StopsAt (stopsExcept stop c) rest) : StopsAt stop rest := by
  intro d hd
  exact (Bool.and_eq_true_iff.mp (h d hd)).1

theorem stopsAt_append {stop : Char → Bool} {c : Char} {cs rest : List Char}
    (hhead : cs.head? = some c) (hc : stop c = true) : StopsAt stop (cs ++ rest) := by
  obtain ⟨tail, rfl⟩ := List.head?_eq_some_iff.mp hhead
  intro d hd
  cases hd
  exact hc

/-- Where a list of parts goes on, its rest begins with the separator and cannot be over. -/
theorem not_stopsAt_except {stop : Char → Bool} {c : Char} {cs rest : List Char} :
    ¬ StopsAt (stopsExcept stop c) (c :: cs ++ rest) := by
  intro h
  have hc := h c rfl
  simp [stopsExcept] at hc

/-- Texts without a stop in them end at the first stop. -/
theorem append_inj_of_stopsAt {stop : Char → Bool} {cs ds rest rest' : List Char}
    (hcs : ∀ c ∈ cs, stop c = false) (hds : ∀ c ∈ ds, stop c = false)
    (hrest : StopsAt stop rest) (hrest' : StopsAt stop rest')
    (h : cs ++ rest = ds ++ rest') : cs = ds ∧ rest = rest' := by
  induction cs generalizing ds with
  | nil =>
    cases ds with
    | nil => exact ⟨rfl, h⟩
    | cons d ds =>
      rw [List.nil_append] at h
      have hstop := hrest d (by rw [h]; rfl)
      rw [hds d List.mem_cons_self] at hstop
      cases hstop
  | cons c cs ih =>
    cases ds with
    | nil =>
      rw [List.nil_append] at h
      have hstop := hrest' c (by rw [← h]; rfl)
      rw [hcs c List.mem_cons_self] at hstop
      cases hstop
    | cons d ds =>
      obtain ⟨rfl, htail⟩ := List.cons.inj h
      obtain ⟨rfl, hrests⟩ := ih (fun c hc => hcs c (List.mem_cons_of_mem _ hc))
        (fun c hc => hds c (List.mem_cons_of_mem _ hc)) htail
      exact ⟨rfl, hrests⟩

section

variable {α β : Type} {good : α → Bool} {text : α → String} {view : α → β} {stop : Char → Bool}

/-- The texts of parts, each behind a separator. -/
def trail (separator : List Char) (text : α → String) (parts : List α) : List Char :=
  parts.flatMap fun a => separator ++ (text a).toList

theorem trail_cons_append (separator rest : List Char) (text : α → String) (a : α) (l : List α) :
    trail separator text (a :: l) ++ rest =
      separator ++ ((text a).toList ++ (trail separator text l ++ rest)) := by
  simp only [trail, List.flatMap_cons, List.append_assoc]

theorem trail_eq {separator : String} {parts : List α} (h : parts ≠ []) :
    separator.toList ++ (separator.intercalate (parts.map text)).toList =
      trail separator.toList text parts := by
  induction parts with
  | nil => exact absurd rfl h
  | cons a rest ih =>
    cases rest with
    | nil => simp [trail]
    | cons b rest =>
      have hrest := ih (by simp)
      rw [List.map_cons] at hrest
      rw [List.map_cons, List.map_cons, String.intercalate_cons_cons, String.toList_append,
        String.toList_append, List.append_assoc, hrest]
      simp [trail]

theorem stopsAt_trail {c : Char} {cs rest : List Char} (hc : stop c = true)
    (hrest : StopsAt (stopsExcept stop c) rest) (parts : List α) :
    StopsAt stop (trail (c :: cs) text parts ++ rest) := by
  cases parts with
  | nil => exact hrest.of_except
  | cons a parts =>
    rw [trail_cons_append]
    exact stopsAt_append rfl hc

theorem trail_inj {c : Char} {cs rest rest' : List Char} {l m : List α} (hc : stop c = true)
    (hl : ∀ a ∈ l, Legible good text view stop a ∧ good a = true ∧ text a ≠ "")
    (hm : ∀ b ∈ m, good b = true ∧ text b ≠ "")
    (hrest : StopsAt (stopsExcept stop c) rest) (hrest' : StopsAt (stopsExcept stop c) rest')
    (h : trail (c :: cs) text l ++ rest = trail (c :: cs) text m ++ rest') :
    l.map view = m.map view ∧ rest = rest' := by
  induction l generalizing m with
  | nil =>
    cases m with
    | nil => exact ⟨rfl, h⟩
    | cons b m =>
      have hmore : rest = trail (c :: cs) text (b :: m) ++ rest' := h
      rw [hmore, trail_cons_append] at hrest
      exact absurd hrest not_stopsAt_except
  | cons a l ih =>
    cases m with
    | nil =>
      have hmore : trail (c :: cs) text (a :: l) ++ rest = rest' := h
      rw [← hmore, trail_cons_append] at hrest'
      exact absurd hrest' not_stopsAt_except
    | cons b m =>
      obtain ⟨⟨hlegible, hgood, hshown⟩, hl⟩ := List.forall_mem_cons.mp hl
      obtain ⟨⟨hgood', hshown'⟩, hm⟩ := List.forall_mem_cons.mp hm
      rw [trail_cons_append, trail_cons_append] at h
      obtain ⟨hview, h⟩ := hlegible hgood hshown b hgood' hshown' _ _
        (stopsAt_trail hc hrest l) (stopsAt_trail hc hrest' m) (List.append_cancel_left h)
      obtain ⟨hviews, hrests⟩ := ih hl hm h
      exact ⟨by rw [List.map_cons, List.map_cons, hview, hviews], hrests⟩

/-- What is joined from legible parts is legible. -/
theorem Legible.joined {separator : String} {c : Char} {goodList : List α → Bool}
    {textList : List α → String} {viewList : List α → List β} (hc : stop c = true)
    (hseparator : separator.toList.head? = some c)
    (hgoodList : ∀ m, goodList m = true → ∀ b ∈ m, good b = true)
    (htextList : ∀ m, textList m = joinNonEmpty separator (m.map text))
    (hviewList : ∀ m, viewList m = (shown text m).map view) {l : List α}
    (hl : ∀ a ∈ l, Legible good text view stop a) :
    Legible goodList textList viewList (stopsExcept stop c) l := by
  intro hgood hshown m hgood' hshown' rest rest' hrest hrest' h
  obtain ⟨cs, hcs⟩ := List.head?_eq_some_iff.mp hseparator
  have hne : ∀ {m}, textList m ≠ "" → shown text m ≠ [] := by
    intro m hshown hnil
    rw [htextList, joinNonEmpty_map, hnil] at hshown
    exact hshown rfl
  rw [htextList, htextList, joinNonEmpty_map, joinNonEmpty_map] at h
  have htrail := congrArg (separator.toList ++ ·) h
  simp only [← List.append_assoc] at htrail
  rw [trail_eq (hne hshown), trail_eq (hne hshown'), hcs] at htrail
  rw [hviewList, hviewList]
  have hparts : ∀ a ∈ shown text l,
      Legible good text view stop a ∧ good a = true ∧ text a ≠ "" := by
    intro a ha
    obtain ⟨ha, hshown⟩ := mem_shown.mp ha
    exact ⟨hl a ha, hgoodList l hgood a ha, hshown⟩
  have hparts' : ∀ b ∈ shown text m, good b = true ∧ text b ≠ "" := by
    intro b hb
    obtain ⟨hb, hshown⟩ := mem_shown.mp hb
    exact ⟨hgoodList m hgood' b hb, hshown⟩
  exact trail_inj hc hparts hparts' hrest hrest' htrail

/-- A legible part is legible between brackets, whatever is behind them. -/
theorem Legible.enclosed {γ : Type} {opening closing : String} {c : Char} {wrap : β → γ}
    {textWrapped : α → String} {viewWrapped : α → γ} (hc : stop c = true)
    (hclosing : closing.toList.head? = some c)
    (htext : ∀ b, textWrapped b = enclose opening closing (text b))
    (hview : ∀ b, viewWrapped b = wrap (view b)) {a : α} (h : Legible good text view stop a)
    (stop' : Char → Bool) : Legible good textWrapped viewWrapped stop' a := by
  intro hgood hshown b hgood' hshown' rest rest' _ _ heq
  have hinner : ∀ {b}, textWrapped b ≠ "" → text b ≠ "" := by
    intro b hshown hempty
    rw [htext] at hshown
    exact hshown (if_pos hempty)
  rw [htext, htext, enclose, if_neg (hinner hshown), enclose, if_neg (hinner hshown')] at heq
  simp only [String.toList_append, List.append_assoc] at heq
  obtain ⟨hviews, hrests⟩ := h hgood (hinner hshown) b hgood' (hinner hshown') _ _
    (stopsAt_append hclosing hc) (stopsAt_append hclosing hc) (List.append_cancel_left heq)
  exact ⟨by rw [hview, hview, hviews], List.append_cancel_left hrests⟩

end

/-! ## Nodes -/

/-- The first characters of the separators, which tell the separators from each other and from what
they stand between. -/
structure Separators.Marked (s : Separators) (pipe item key : Char) : Prop where
  pipe_eq : s.pipe.toList.head? = some pipe
  item_eq : s.item.toList.head? = some item
  key_eq : s.key.toList.head? = some key
  pipe_mark : Text.isMark pipe = true
  key_mark : Text.isMark key = true
  item_stops : stopsExcept Text.isMark pipe item = true
  bracket_stops : stopsExcept (stopsExcept Text.isMark pipe) item ']' = true
  brace_stops : stopsExcept (stopsExcept Text.isMark pipe) item '}' = true

theorem Separators.spaced_marked : spaced.Marked ' ' ',' ':' := by
  constructor <;> decide

theorem Separators.compact_marked : compact.Marked '|' ',' ':' := by
  constructor <;> decide

def Kind.opens : Kind → Char → Bool
  | filter, c => !Text.isMark c
  | array, c => c = '['
  | object, c => c = '{'

theorem Kind.eq_of_opens {k k' : Kind} {c : Char} (h : k.opens c = true) (h' : k'.opens c = true) :
    k = k' := by
  have hopening : Text.isMark '[' = true ∧ Text.isMark '{' = true := by decide
  cases k <;> cases k' <;> simp_all [opens]

namespace Node

variable {s : Separators}

theorem opens_kind {n : Node} (hplain : n.isPlain = true) (hshown : n.compile s ≠ "") :
    ∃ c cs, (n.compile s).toList = c :: cs ∧ n.kind.opens c = true := by
  cases n with
  | filter value =>
    obtain ⟨c, cs, hcs⟩ := List.exists_cons_of_ne_nil (mt String.toList_eq_nil_iff.mp hshown)
    have hc := Text.isPlain_iff.mp hplain c (hcs ▸ List.mem_cons_self)
    exact ⟨c, cs, hcs, by rw [kind, Kind.opens, hc]; rfl⟩
  | array branches =>
    rw [compile_array, enclose] at hshown ⊢
    rw [if_neg fun h => hshown (if_pos h), String.append_assoc, String.toList_append]
    exact ⟨'[', _, rfl, rfl⟩
  | object entries =>
    rw [compile_object, enclose] at hshown ⊢
    rw [if_neg fun h => hshown (if_pos h), String.append_assoc, String.toList_append]
    exact ⟨'{', _, rfl, rfl⟩

/-- The first character tells the kind. -/
theorem kind_eq_of_append_eq {a b : Node} {rest rest' : List Char} (ha : a.isPlain = true)
    (hb : b.isPlain = true) (ha' : a.compile s ≠ "") (hb' : b.compile s ≠ "")
    (h : (a.compile s).toList ++ rest = (b.compile s).toList ++ rest') : a.kind = b.kind := by
  obtain ⟨c, cs, hcs, hc⟩ := opens_kind ha ha'
  obtain ⟨d, ds, hds, hd⟩ := opens_kind hb hb'
  rw [hcs, hds] at h
  obtain ⟨rfl, -⟩ := List.cons.inj h
  exact Kind.eq_of_opens hc hd

theorem legible_pipeline {pipe item key : Char} (hs : s.Marked pipe item key) {p : Pipeline}
    (h : ∀ n ∈ p, Legible isPlain (compile s) (tidy s) Text.isMark n) :
    Legible Pipeline.isPlain (Pipeline.compile s) (Pipeline.tidy s)
      (stopsExcept Text.isMark pipe) p :=
  .joined hs.pipe_mark hs.pipe_eq (fun _ => Pipeline.isPlain_iff.mp) (Pipeline.compile_eq s)
    (Pipeline.tidy_eq s) h

theorem legible_entry {pipe item key : Char} (hs : s.Marked pipe item key) {stop : Char → Bool}
    {e : String × Pipeline}
    (h : Legible Pipeline.isPlain (Pipeline.compile s) (Pipeline.tidy s) stop e.2) :
    Legible entryPlain (entryText s) (fun e => (e.1, Pipeline.tidy s e.2)) stop e := by
  intro hplain hshown e' hplain' hshown' rest rest' hrest hrest' heq
  obtain ⟨hkey, hplain⟩ := Bool.and_eq_true_iff.mp hplain
  obtain ⟨hkey', hplain'⟩ := Bool.and_eq_true_iff.mp hplain'
  have hbranch : ∀ {e : String × Pipeline}, entryText s e ≠ "" → Pipeline.compile s e.2 ≠ "" :=
    mt entryText_eq_empty_iff.mpr
  rw [entryText, keyed, if_neg (hbranch hshown), entryText, keyed, if_neg (hbranch hshown')] at heq
  simp only [String.toList_append, List.append_assoc] at heq
  obtain ⟨hkeys, heq⟩ := append_inj_of_stopsAt (Text.isPlain_iff.mp hkey)
    (Text.isPlain_iff.mp hkey') (stopsAt_append hs.key_eq hs.key_mark)
    (stopsAt_append hs.key_eq hs.key_mark) heq
  obtain ⟨hview, hrests⟩ := h hplain (hbranch hshown) e'.2 hplain' (hbranch hshown') rest rest'
    hrest hrest' (List.append_cancel_left heq)
  exact ⟨Prod.ext (String.toList_inj.mp hkeys) hview, hrests⟩

/-- **The text of a plain node tells the node**, as far as it shows. -/
theorem legible {pipe item key : Char} (hs : s.Marked pipe item key) (n : Node) :
    Legible isPlain (compile s) (tidy s) Text.isMark n := by
  induction n with
  | filter value =>
    intro hplain hshown b hplain' hshown' rest rest' hrest hrest' h
    have hkind := kind_eq_of_append_eq hplain hplain' hshown hshown' h
    cases b with
    | array branches => cases hkind
    | object entries => cases hkind
    | filter value' =>
      obtain ⟨htext, hrests⟩ := append_inj_of_stopsAt (Text.isPlain_iff.mp hplain)
        (Text.isPlain_iff.mp hplain') hrest hrest' h
      exact ⟨congrArg Node.filter (String.toList_inj.mp htext), hrests⟩
  | array branches ih =>
    intro hplain hshown b hplain' hshown' rest rest' hrest hrest' h
    have hkind := kind_eq_of_append_eq hplain hplain' hshown hshown' h
    have harray : Legible (fun l => (array l).isPlain) (fun l => (array l).compile s)
        (fun l => (array l).tidy s) Text.isMark branches :=
      .enclosed hs.bracket_stops rfl (compile_array s) (tidy_array s)
        (.joined hs.item_stops hs.item_eq (fun _ => isPlain_array_iff.mp) (fun _ => rfl)
          (fun _ => rfl) fun p hp => legible_pipeline hs (ih p hp)) _
    cases b with
    | filter value => cases hkind
    | object entries => cases hkind
    | array branches' => exact harray hplain hshown branches' hplain' hshown' _ _ hrest hrest' h
  | object entries ih =>
    intro hplain hshown b hplain' hshown' rest rest' hrest hrest' h
    have hkind := kind_eq_of_append_eq hplain hplain' hshown hshown' h
    have hobject : Legible (fun l => (object l).isPlain) (fun l => (object l).compile s)
        (fun l => (object l).tidy s) Text.isMark entries :=
      .enclosed hs.brace_stops rfl (compile_object s) (tidy_object s)
        (.joined hs.item_stops hs.item_eq (fun _ => isPlain_object_iff.mp) (fun _ => rfl)
          (fun _ => rfl) fun e he => legible_entry hs (legible_pipeline hs (ih e he))) _
    cases b with
    | filter value => cases hkind
    | array branches => cases hkind
    | object entries' => exact hobject hplain hshown entries' hplain' hshown' _ _ hrest hrest' h

end Node

/-! ## Pipelines -/

namespace Pipeline

variable {s : Separators} {p q : Pipeline}

theorem tidy_eq_nil_of_compile_eq_empty (h : compile s p = "") : tidy s p = [] := by
  rw [compile_eq, joinNonEmpty_eq_empty_iff, List.forall_mem_map] at h
  rw [tidy_eq, List.map_eq_nil_iff, shown, List.filter_eq_nil_iff]
  intro n hn
  simp [h n hn]

theorem tidy_eq_of_compile_eq {pipe item key : Char} (hs : s.Marked pipe item key)
    (hp : isPlain p = true) (hq : isPlain q = true) (h : compile s p = compile s q) :
    tidy s p = tidy s q := by
  by_cases hempty : compile s p = ""
  · rw [tidy_eq_nil_of_compile_eq_empty hempty, tidy_eq_nil_of_compile_eq_empty (h ▸ hempty)]
  · have hlegible := Node.legible_pipeline hs fun n (_ : n ∈ p) => Node.legible hs n
    exact (hlegible hp hempty q hq (h ▸ hempty) [] [] nofun nofun (by rw [h])).1

/-- **A text determines its tree.**  Two plain trees have the same text just when they are the same
after tidying, with the usual separators and without padding. -/
theorem text_determines_tree (hp : isPlain p = true) (hq : isPlain q = true) :
    (p.expression = q.expression ↔ tidy .spaced p = tidy .spaced q) ∧
      (compile .compact p = compile .compact q ↔ tidy .compact p = tidy .compact q) := by
  have hback : ∀ s, tidy s p = tidy s q → compile s p = compile s q := by
    intro s h
    rw [← compile_tidy, h, compile_tidy]
  exact ⟨⟨tidy_eq_of_compile_eq Separators.spaced_marked hp hq, hback .spaced⟩,
    ⟨tidy_eq_of_compile_eq Separators.compact_marked hp hq, hback .compact⟩⟩

/-- Two trees of the text `.a | [{k: .b}]`.  The blanks and the empty parts in which they differ are
gone once they are tidied. -/
theorem text_determines_tree_untidy :
    let p : Pipeline := [.filter " .a ", .array [[], [.object [("k", [.filter ".b"])]]]]
    let q : Pipeline :=
      [.filter ".a", .object [], .array [[.object [("l", []), ("k", [.filter ".b"])], .filter ""]]]
    isPlain p = true ∧ isPlain q = true ∧ p ≠ q ∧
      p.expression = ".a | [\x7bk: .b\x7d]" ∧ q.expression = ".a | [\x7bk: .b\x7d]" ∧
      tidy .spaced p = tidy .spaced q ∧
      compile .compact p = compile .compact q ∧ tidy .compact p = tidy .compact q := by
  intro p q
  have hp : isPlain p = true := by decide +kernel
  have hq : isPlain q = true := by decide +kernel
  have hpText : p.expression = ".a | [\x7bk: .b\x7d]" := by decide +kernel
  have hqText : q.expression = ".a | [\x7bk: .b\x7d]" := by decide +kernel
  have hcompact : compile .compact p = compile .compact q := by decide +kernel
  obtain ⟨hspaced, hunpadded⟩ := text_determines_tree hp hq
  exact ⟨hp, hq, by decide +kernel, hpText, hqText, hspaced.mp (hpText.trans hqText.symm), hcompact,
    hunpadded.mp hcompact⟩

end Pipeline

end FilterEditor
