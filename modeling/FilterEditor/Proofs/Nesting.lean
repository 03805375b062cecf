import FilterEditor.Proofs.JsonText

/-!
# The nesting of a written text

How deep a text nests can be told from its characters: count the brackets and braces outside of
quotes that are open at once.  `nesting` counts them, and knows nothing of JSON but where quotes
begin and end.  For a text that was written it is the depth of the tree (`nesting_ofList_write`), so
the limit of the reader is a limit on the text.
-/

namespace FilterEditor.Json

/-- The greatest number of brackets and braces that are open at once in a text, when `opened` are
open in front of it.  What stands in quotes does not count, and a backslash there takes the next
character with it. -/
def nestingFrom : (quoted : Bool) → (opened : Nat) → List Char → Nat
  | _, opened, [] => opened
  | true, opened, '\\' :: _ :: rest => nestingFrom true opened rest
  | true, opened, c :: rest => nestingFrom (c ≠ '"') opened rest
  | false, opened, c :: rest =>
    if c = '"' then nestingFrom true opened rest
    else if c = '[' ∨ c = '\x7b' then nestingFrom false (opened + 1) rest
    else if c = ']' ∨ c = '\x7d' then max opened (nestingFrom false (opened - 1) rest)
    else nestingFrom false opened rest

def nesting (text : String) : Nat :=
  nestingFrom false 0 text.toList

example : nesting "[\x7b\"a]\\\"]\":[1,[]]\x7d,[[]]]" = 4 := by decide

/-! ## Characters that open and close nothing -/

variable {opened : Nat}

theorem le_nestingFrom (quoted : Bool) (opened : Nat) (cs : List Char) :
    opened ≤ nestingFrom quoted opened cs := by
  fun_induction nestingFrom quoted opened cs <;> omega

/-- The character opens and closes neither quotes nor an array nor an object. -/
def Plain (c : Char) : Prop :=
  c ∉ ['"', '[', ']', '\x7b', '\x7d']

instance (c : Char) : Decidable (Plain c) :=
  inferInstanceAs (Decidable (c ∉ _))

theorem plain_of_isGap {c : Char} (h : isGap c = true) : Plain c := by
  simp only [isGap, Bool.or_eq_true, decide_eq_true_eq] at h
  rcases h with ((rfl | rfl) | rfl) | rfl <;> decide

theorem plain_of_isDigit {c : Char} (h : c.isDigit = true) : Plain c := by
  intro hc
  simp only [List.mem_cons, List.not_mem_nil, or_false] at hc
  rcases hc with rfl | rfl | rfl | rfl | rfl <;> exact absurd h (by decide)

theorem nestingFrom_cons_plain {c : Char} (h : Plain c) (rest : List Char) :
    nestingFrom false opened (c :: rest) = nestingFrom false opened rest := by
  simp only [Plain, List.mem_cons, List.not_mem_nil, or_false, not_or] at h
  simp [nestingFrom, h]

theorem nestingFrom_plain {cs : List Char} (h : ∀ c ∈ cs, Plain c) (rest : List Char) :
    nestingFrom false opened (cs ++ rest) = nestingFrom false opened rest := by
  induction cs with
  | nil => rfl
  | cons c cs ih =>
    rw [List.cons_append, nestingFrom_cons_plain (h c List.mem_cons_self),
      ih fun c hc => h c (List.mem_cons_of_mem _ hc)]

theorem nestingFrom_escape (c : Char) (rest : List Char) :
    nestingFrom true opened (escape c ++ rest) = nestingFrom true opened rest := by
  rcases escape_cases c with ⟨e, -, heq⟩ | ⟨hlow, heq⟩ | ⟨-, hquote, hslash, heq⟩
  · rw [heq]
    rfl
  · have hdigit : ∀ d < 32, Nat.digitChar d ≠ '"' ∧ Nat.digitChar d ≠ '\\' := by decide
    have hhigh := hdigit (c.toNat / 16) (by omega)
    have hlow := hdigit (c.toNat % 16) (by omega)
    simp [heq, nestingFrom, hhigh, hlow]
  · rw [heq, List.singleton_append, nestingFrom]
    all_goals simp [hquote, hslash]

theorem nestingFrom_writeString (s : String) (rest : List Char) :
    nestingFrom false opened (writeString s ++ rest) = nestingFrom false opened rest := by
  have hinside : ∀ cs : List Char, nestingFrom true opened (cs.flatMap escape ++ '"' :: rest) =
      nestingFrom false opened rest := by
    intro cs
    induction cs with
    | nil => rfl
    | cons c cs ih => rw [List.flatMap_cons, List.append_assoc, nestingFrom_escape, ih]
  rw [writeString, List.cons_append, List.append_assoc, List.singleton_append, nestingFrom,
    if_pos rfl, hinside]

theorem plain_of_mem_writeNumeral {n : Numeral} {c : Char} (h : c ∈ writeNumeral n) : Plain c := by
  have hdigits : ∀ k, c ∈ Nat.toDigits 10 k → Plain c := fun k hk =>
    plain_of_isDigit (Nat.isDigit_of_mem_toDigits (by decide) (by decide) hk)
  simp only [writeNumeral, List.mem_append] at h
  rcases h with ((h | h) | h) | h
  · split at h
    · rw [List.mem_singleton.mp h]
      decide
    · cases h
  · exact hdigits _ h
  · split at h
    · cases h
    · rcases List.mem_cons.mp h with rfl | h
      · decide
      · obtain ⟨d, -, rfl⟩ := List.mem_map.mp h
        exact plain_of_isDigit (isDigit_digitChar d)
  · cases he : n.exponent with
    | none => rw [he] at h; cases h
    | some e =>
      rw [he, Option.map_some, Option.getD_some, writeExponent] at h
      rcases List.mem_cons.mp h with rfl | h
      · decide
      · rcases List.mem_cons.mp h with rfl | h
        · split <;> decide
        · exact hdigits _ h

/-! ## The nesting of a tree -/

variable {l : Layout}

theorem nestingFrom_open {c : Char} (h : c = '[' ∨ c = '\x7b') (rest : List Char) :
    nestingFrom false opened (c :: rest) = nestingFrom false (opened + 1) rest := by
  rcases h with rfl | rfl <;> simp [nestingFrom]

theorem nestingFrom_close {c : Char} (h : c = ']' ∨ c = '\x7d') (rest : List Char) :
    nestingFrom false (opened + 1) (c :: rest) =
      max (opened + 1) (nestingFrom false opened rest) := by
  rcases h with rfl | rfl <;> simp [nestingFrom]

theorem nestingFrom_lineBreak (hl : l.Blank) (level : Nat) (rest : List Char) :
    nestingFrom false opened (l.lineBreak level ++ rest) = nestingFrom false opened rest :=
  nestingFrom_plain (fun c hc => plain_of_isGap (hl.lineBreak level c hc)) rest

theorem nestingFrom_name (hl : l.Blank) (name : String) (rest : List Char) :
    nestingFrom false opened (writeString name ++ ':' :: (l.afterColon ++ rest)) =
      nestingFrom false opened rest := by
  rw [nestingFrom_writeString, nestingFrom_cons_plain (by decide),
    nestingFrom_plain fun c hc => plain_of_isGap (hl.afterColon c hc)]

/-- The text of the tree nests as deep as the tree, wherever it stands. -/
def NestsAsDeep (l : Layout) (j : Json) : Prop :=
  ∀ level opened rest, nestingFrom false opened (write l level j ++ rest) =
    max (opened + j.depth) (nestingFrom false opened rest)

theorem nestingFrom_writeItems (hl : l.Blank) {items : List Json}
    (h : ∀ j ∈ items, NestsAsDeep l j) (level opened : Nat) (rest : List Char) :
    nestingFrom false opened (writeItems l level items ++ rest) =
      max (opened + depthOfItems items) (nestingFrom false opened rest) := by
  induction items with
  | nil =>
    have hle := le_nestingFrom false opened rest
    rw [writeItems, List.nil_append, depthOfItems]
    omega
  | cons item items ih =>
    have hitems := ih fun j hj => h j (List.mem_cons_of_mem _ hj)
    simp only [writeItems, List.cons_append, List.append_assoc]
    rw [nestingFrom_cons_plain (by decide), nestingFrom_lineBreak hl,
      h item List.mem_cons_self level, hitems, depthOfItems]
    omega

theorem nestingFrom_writeMembers (hl : l.Blank) {members : List (String × Json)}
    (h : ∀ m ∈ members, NestsAsDeep l m.2) (level opened : Nat) (rest : List Char) :
    nestingFrom false opened (writeMembers l level members ++ rest) =
      max (opened + depthOfMembers members) (nestingFrom false opened rest) := by
  induction members with
  | nil =>
    have hle := le_nestingFrom false opened rest
    rw [writeMembers, List.nil_append, depthOfMembers]
    omega
  | cons m members ih =>
    have hmembers := ih fun m' hm => h m' (List.mem_cons_of_mem _ hm)
    simp only [writeMembers, List.cons_append, List.append_assoc]
    rw [nestingFrom_cons_plain (by decide), nestingFrom_lineBreak hl, nestingFrom_name hl,
      h m List.mem_cons_self level, hmembers, depthOfMembers]
    omega

theorem nestsAsDeep (hl : l.Blank) (j : Json) : NestsAsDeep l j := by
  -- A scalar opens nothing that it does not close in quotes.
  have hscalar : ∀ {j : Json} {cs : List Char} {opened rest}, j.depth = 0 →
      nestingFrom false opened (cs ++ rest) = nestingFrom false opened rest →
      nestingFrom false opened (cs ++ rest) =
        max (opened + j.depth) (nestingFrom false opened rest) := by
    intro j cs opened rest hdepth hcs
    have hle := le_nestingFrom false opened rest
    omega
  induction j with
  | null => exact fun _ _ rest => hscalar rfl (nestingFrom_plain (by simp [write, Plain]) rest)
  | bool b =>
    cases b <;>
      exact fun _ _ rest => hscalar rfl (nestingFrom_plain (by simp [write, Plain]) rest)
  | number n =>
    exact fun _ _ rest => hscalar rfl (nestingFrom_plain (fun _ => plain_of_mem_writeNumeral) rest)
  | string s => exact fun _ _ rest => hscalar rfl (nestingFrom_writeString s rest)
  | array items ih =>
    intro level opened rest
    cases items with
    | nil =>
      simp only [write, List.cons_append, List.nil_append, depth, depthOfItems]
      rw [nestingFrom_open (.inl rfl), nestingFrom_close (.inl rfl)]
    | cons item items =>
      have hitem := ih item List.mem_cons_self
      have hitems := nestingFrom_writeItems hl fun j hj => ih j (List.mem_cons_of_mem _ hj)
      simp only [write, List.cons_append, List.append_assoc, List.nil_append, depth, depthOfItems]
      rw [nestingFrom_open (.inl rfl), nestingFrom_lineBreak hl, hitem, hitems,
        nestingFrom_lineBreak hl, nestingFrom_close (.inl rfl)]
      omega
  | object members ih =>
    intro level opened rest
    cases members with
    | nil =>
      simp only [write, List.cons_append, List.nil_append, depth, depthOfMembers]
      rw [nestingFrom_open (.inr rfl), nestingFrom_close (.inr rfl)]
    | cons m members =>
      have hvalue := ih m List.mem_cons_self
      have hmembers := nestingFrom_writeMembers hl fun m' hm => ih m' (List.mem_cons_of_mem _ hm)
      simp only [write, List.cons_append, List.append_assoc, List.nil_append, depth, depthOfMembers]
      rw [nestingFrom_open (.inr rfl), nestingFrom_lineBreak hl, nestingFrom_name hl, hvalue,
        hmembers, nestingFrom_lineBreak hl, nestingFrom_close (.inr rfl)]
      omega

/-- **A written text nests as deep as its tree.** -/
theorem nesting_ofList_write (hl : l.Blank) (j : Json) :
    nesting (String.ofList (j.write l 0)) = j.depth := by
  have h := nestsAsDeep hl j 0 0 []
  rw [List.append_nil] at h
  simp [nesting, h, nestingFrom]

theorem nesting_compact (j : Json) : nesting j.compact = j.depth :=
  nesting_ofList_write Layout.blank_compact j

end FilterEditor.Json
