import FilterEditor.Path
import FilterEditor.Proofs.JsonText
import FilterEditor.Proofs.Legibility

/-!
# A path is known by its text

No two paths are shown by one text, whatever the selectors are and in whatever order, and whatever
characters the keys are made of (`Path.display_inj`).

The text of a path is a list of words behind dots (`Path.toList_display`), but for the dot that an index
in front does without.  Each word ends by itself: a number at the next dot or at its bracket
(`Text.toDigits_append_inj`), a key at its quote.  For a key to imitate what stands around it, it
would have to close its quotes, and between quotes a quote has a backslash in front.  That a key is
read off its quoted text goes character by character, where the backslash tells an escape and the
brace its end (`Text.quoteChar_append_inj`).
-/

namespace FilterEditor

namespace Text

/-! ## Digits -/

theorem exists_digitChar_of_mem_toDigits {b n : Nat} {c : Char} (hb : 1 < b)
    (h : c ∈ Nat.toDigits b n) : ∃ d < b, Nat.digitChar d = c := by
  induction n using Nat.strongRecOn with
  | ind n ih =>
    rcases Nat.lt_or_ge n b with hn | hn
    · rw [Nat.toDigits_of_lt_base hn, List.mem_singleton] at h
      exact ⟨n, hn, h.symm⟩
    · rw [Nat.toDigits_of_base_le hb hn, List.mem_append, List.mem_singleton] at h
      rcases h with hlead | rfl
      · exact ih (n / b) (Nat.div_lt_self (by omega) hb) hlead
      · exact ⟨n % b, Nat.mod_lt n (by omega), rfl⟩

theorem toDigits_inj {b m n : Nat} (hb : 1 < b) (hb' : b ≤ 16)
    (h : Nat.toDigits b m = Nat.toDigits b n) : m = n := by
  have hdigit : ∀ d < 16, ∀ e < 16, Nat.digitChar d = Nat.digitChar e → d = e := by decide
  have hlonger : ∀ k (c c' : Char), Nat.toDigits b k ++ [c] ≠ [c'] := by
    intro k c c' heq
    have hlength := congrArg List.length heq
    have hpos := Nat.length_toDigits_pos (b := b) (n := k)
    rw [List.length_append, List.length_singleton, List.length_singleton] at hlength
    omega
  induction m using Nat.strongRecOn generalizing n with
  | ind m ih =>
    rcases Nat.lt_or_ge m b with hm | hm <;> rcases Nat.lt_or_ge n b with hn | hn
    · rw [Nat.toDigits_of_lt_base hm, Nat.toDigits_of_lt_base hn, List.singleton_inj] at h
      exact hdigit m (by omega) n (by omega) h
    · rw [Nat.toDigits_of_lt_base hm, Nat.toDigits_of_base_le hb hn] at h
      exact absurd h.symm (hlonger _ _ _)
    · rw [Nat.toDigits_of_base_le hb hm, Nat.toDigits_of_lt_base hn] at h
      exact absurd h (hlonger _ _ _)
    · rw [Nat.toDigits_of_base_le hb hm, Nat.toDigits_of_base_le hb hn] at h
      obtain ⟨hlead, hlast⟩ := List.append_inj' h rfl
      have hquot : m / b = n / b := ih (m / b) (Nat.div_lt_self (by omega) hb) hlead
      have hm' := Nat.mod_lt m (Nat.lt_of_succ_lt hb)
      have hn' := Nat.mod_lt n (Nat.lt_of_succ_lt hb)
      have hrem : m % b = n % b :=
        hdigit _ (by omega) _ (by omega) (List.singleton_inj.mp hlast)
      rw [← Nat.div_add_mod m b, ← Nat.div_add_mod n b, hquot, hrem]

/-- A number ends at the first character that is no digit. -/
theorem toDigits_append_inj {b m n : Nat} {stop : Char → Bool} {rest rest' : List Char}
    (hb : 1 < b) (hb' : b ≤ 16) (hstop : ∀ d < b, stop (Nat.digitChar d) = false)
    (hrest : StopsAt stop rest) (hrest' : StopsAt stop rest')
    (h : Nat.toDigits b m ++ rest = Nat.toDigits b n ++ rest') : m = n ∧ rest = rest' := by
  have hdigits : ∀ k, ∀ c ∈ Nat.toDigits b k, stop c = false := by
    intro k c hc
    obtain ⟨d, hd, rfl⟩ := exists_digitChar_of_mem_toDigits hb hc
    exact hstop d hd
  obtain ⟨hdigits, hrests⟩ := append_inj_of_stopsAt (hdigits m) (hdigits n) hrest hrest' h
  exact ⟨toDigits_inj hb hb' hdigits, hrests⟩

theorem toDigits_append_ne {n : Nat} {c : Char} {rest rest' : List Char} (hc : c.isDigit = false) :
    Nat.toDigits 10 n ++ rest ≠ c :: rest' := by
  intro h
  obtain ⟨d, ds, hds, hd⟩ := Json.head_toDigits n
  rw [hds] at h
  rw [(List.cons.inj h).1, hc] at hd
  cases hd

theorem stopsAt_cons {stop : Char → Bool} {c : Char} (hc : stop c = true) (cs : List Char) :
    StopsAt stop (c :: cs) := by
  rintro _ ⟨⟩
  exact hc

/-! ## Text between quotes -/

def unquoteLetter? (c : Char) : Option Char :=
  match c with
  | '0' => some '\x00'
  | 't' => some '\t'
  | 'n' => some '\n'
  | 'r' => some '\x0d'
  | '"' => some '"'
  | '\\' => some '\\'
  | _ => none

/-- A character stands between quotes as a letter behind a backslash, as a number, or as it is. -/
theorem quoteChar_cases (c : Char) :
    (∃ e, unquoteLetter? e = some c ∧ quoteChar c = ['\\', e]) ∨
      quoteChar c = '\\' :: 'u' :: '{' :: (Nat.toDigits 16 c.toNat ++ ['}']) ∨
      (c ≠ '"' ∧ c ≠ '\\' ∧ quoteChar c = [c]) := by
  unfold quoteChar
  split
  case h_7 hquote hslash =>
    split
    · exact Or.inr (Or.inl rfl)
    · exact Or.inr (Or.inr ⟨hquote, hslash, rfl⟩)
  all_goals exact Or.inl ⟨_, rfl, rfl⟩

/-- No character looks like the closing quote. -/
theorem quoteChar_append_ne (c : Char) (rest rest' : List Char) :
    quoteChar c ++ rest ≠ '"' :: rest' := by
  intro h
  rcases quoteChar_cases c with ⟨e, -, heq⟩ | heq | ⟨hquote, -, heq⟩
  · rw [heq] at h
    exact absurd (List.cons.inj h).1 (by decide)
  · rw [heq] at h
    exact absurd (List.cons.inj h).1 (by decide)
  · rw [heq] at h
    exact hquote (List.cons.inj h).1

/-- **A character ends by itself between quotes.** -/
theorem quoteChar_append_inj {c d : Char} {rest rest' : List Char}
    (h : quoteChar c ++ rest = quoteChar d ++ rest') : c = d ∧ rest = rest' := by
  have hnumber : unquoteLetter? 'u' = none := rfl
  rcases quoteChar_cases c with ⟨e, he, hc⟩ | hc | ⟨-, hslash, hc⟩ <;>
    rcases quoteChar_cases d with ⟨e', he', hd⟩ | hd | ⟨-, hslash', hd⟩ <;>
    rw [hc, hd] at h
  · simp only [List.cons_append, List.nil_append, List.cons.injEq, true_and] at h
    obtain ⟨rfl, hrests⟩ := h
    exact ⟨Option.some.inj (he.symm.trans he'), hrests⟩
  · simp only [List.cons_append, List.nil_append, List.cons.injEq, true_and] at h
    rw [h.1, hnumber] at he
    cases he
  · exact absurd (List.cons.inj h).1.symm hslash'
  · simp only [List.cons_append, List.nil_append, List.cons.injEq, true_and] at h
    rw [← h.1, hnumber] at he'
    cases he'
  · simp only [List.cons_append, List.append_assoc, List.cons.injEq, true_and] at h
    have hbrace : ∀ cs, StopsAt (· == '}') ('}' :: cs) := stopsAt_cons rfl
    obtain ⟨hnumbers, hrests⟩ := toDigits_append_inj (by decide) (Nat.le_refl 16) (by decide)
      (hbrace _) (hbrace _) h
    exact ⟨Char.toNat_inj.mp hnumbers, (List.cons.inj hrests).2⟩
  · exact absurd (List.cons.inj h).1.symm hslash'
  · exact absurd (List.cons.inj h).1 hslash
  · exact absurd (List.cons.inj h).1 hslash
  · exact List.cons.inj h

theorem toList_quote (s : String) :
    (quote s).toList = '"' :: (s.toList.flatMap quoteChar ++ ['"']) := by
  rw [quote, String.toList_ofList]

/-- A quoted text ends at its closing quote and tells what is quoted. -/
theorem quote_append_inj {s t : String} {rest rest' : List Char}
    (h : (quote s).toList ++ rest = (quote t).toList ++ rest') : s = t ∧ rest = rest' := by
  have hinside : ∀ cs ds : List Char,
      cs.flatMap quoteChar ++ '"' :: rest = ds.flatMap quoteChar ++ '"' :: rest' →
        cs = ds ∧ rest = rest' := by
    intro cs
    induction cs with
    | nil =>
      intro ds h
      cases ds with
      | nil => exact ⟨rfl, (List.cons.inj h).2⟩
      | cons d ds =>
        rw [List.flatMap_cons, List.append_assoc] at h
        exact absurd h.symm (quoteChar_append_ne d _ rest)
    | cons c cs ih =>
      intro ds h
      cases ds with
      | nil =>
        rw [List.flatMap_cons, List.append_assoc] at h
        exact absurd h (quoteChar_append_ne c _ rest')
      | cons d ds =>
        rw [List.flatMap_cons, List.flatMap_cons, List.append_assoc, List.append_assoc] at h
        obtain ⟨rfl, htail⟩ := quoteChar_append_inj h
        obtain ⟨rfl, hrests⟩ := ih ds htail
        exact ⟨rfl, hrests⟩
  simp only [toList_quote, List.cons_append, List.append_assoc, List.cons.injEq,
    true_and] at h
  obtain ⟨htext, hrests⟩ := hinside _ _ h
  exact ⟨String.toList_inj.mp htext, hrests⟩

end Text

/-! ## Selectors -/

namespace Selector

/-- What stands for a selector behind a dot. -/
def word : Selector → String
  | index n => toString n
  | branch n => "items[" ++ toString n ++ "]"
  | key k => "items[" ++ Text.quote k ++ "]"

theorem toList_display (first : Bool) (s : Selector) :
    (s.display first).toList = (if first && !s.isBranch then [] else ['.']) ++ s.word.toList := by
  cases s <;> cases first <;> simp [display, word, isBranch]

theorem toList_word_index (n : Nat) : (index n).word.toList = Nat.toDigits 10 n := by
  rw [word, Nat.toString_eq_repr, Nat.toList_repr]

theorem toList_word_branch (n : Nat) :
    (branch n).word.toList = "items[".toList ++ (Nat.toDigits 10 n ++ [']']) := by
  rw [word, String.toList_append, String.toList_append, List.append_assoc, Nat.toString_eq_repr,
    Nat.toList_repr]
  rfl

theorem toList_word_key (k : String) :
    (key k).word.toList = "items[".toList ++ ((Text.quote k).toList ++ [']']) := by
  rw [word, String.toList_append, String.toList_append, List.append_assoc]
  rfl

theorem word_ne_empty (s : Selector) : s.word ≠ "" := by
  refine mt String.toList_eq_nil_iff.mpr ?_
  cases s with
  | index n => rw [toList_word_index]; exact Nat.toDigits_ne_nil
  | branch n => rw [toList_word_branch]; exact nofun
  | key k => rw [toList_word_key]; exact nofun

/-- **The word of a selector ends at the next dot and tells the selector.** -/
theorem legible_word (s : Selector) : Legible (fun _ => true) word id (· == '.') s := by
  intro _ _ t _ _ rest rest' hrest hrest' h
  -- no number begins like the word of a branch or of a key, and none is between quotes
  have hletter : 'i'.isDigit = false := rfl
  have hquote : '"'.isDigit = false := rfl
  cases s with
  | index n =>
    rw [toList_word_index] at h
    cases t with
    | index m =>
      rw [toList_word_index] at h
      obtain ⟨rfl, hrests⟩ :=
        Text.toDigits_append_inj (by decide) (by decide) (by decide) hrest hrest' h
      exact ⟨rfl, hrests⟩
    | branch m =>
      rw [toList_word_branch] at h
      exact absurd h (Text.toDigits_append_ne hletter)
    | key k =>
      rw [toList_word_key] at h
      exact absurd h (Text.toDigits_append_ne hletter)
  | branch n =>
    rw [toList_word_branch] at h
    cases t with
    | index m =>
      rw [toList_word_index] at h
      exact absurd h.symm (Text.toDigits_append_ne hletter)
    | branch m =>
      rw [toList_word_branch] at h
      simp only [List.append_assoc, List.append_cancel_left_eq, List.singleton_append] at h
      have hbracket : ∀ cs, StopsAt (· == ']') (']' :: cs) := Text.stopsAt_cons rfl
      obtain ⟨rfl, hrests⟩ := Text.toDigits_append_inj (by decide) (by decide) (by decide)
        (hbracket _) (hbracket _) h
      exact ⟨rfl, (List.cons.inj hrests).2⟩
    | key k =>
      rw [toList_word_key, Text.toList_quote] at h
      simp only [List.append_assoc, List.append_cancel_left_eq, List.cons_append] at h
      exact absurd h (Text.toDigits_append_ne hquote)
  | key k =>
    rw [toList_word_key] at h
    cases t with
    | index m =>
      rw [toList_word_index] at h
      exact absurd h.symm (Text.toDigits_append_ne hletter)
    | branch m =>
      rw [toList_word_branch, Text.toList_quote] at h
      simp only [List.append_assoc, List.append_cancel_left_eq, List.cons_append] at h
      exact absurd h.symm (Text.toDigits_append_ne hquote)
    | key l =>
      rw [toList_word_key] at h
      simp only [List.append_assoc, List.append_cancel_left_eq] at h
      obtain ⟨rfl, hrests⟩ := Text.quote_append_inj h
      exact ⟨rfl, (List.cons.inj hrests).2⟩

end Selector

/-! ## Paths -/

namespace Path

theorem toList_display (s : Selector) (rest : Path) :
    (display (s :: rest)).toList =
      (if s.isBranch then ['.'] else []) ++ (s.word.toList ++ trail ['.'] Selector.word rest) := by
  have hrest : (String.join (rest.map (Selector.display false))).toList =
      trail ['.'] Selector.word rest := by
    rw [String.toList_join, List.flatMap_map]
    simp only [trail, Selector.toList_display, Bool.false_and, Bool.false_eq_true, if_false]
  rw [display, String.toList_append, hrest, Selector.toList_display, List.append_assoc,
    Bool.true_and]
  cases s.isBranch <;> rfl

/-- The first character is a digit just when an index is in front, and no path but the root begins
with a bracket. -/
theorem head_display (s : Selector) (rest : Path) :
    ∃ c cs, (display (s :: rest)).toList = c :: cs ∧ c.isDigit = !s.isBranch ∧ c ≠ '<' := by
  rw [toList_display]
  cases s with
  | index n =>
    obtain ⟨d, ds, hds, hd⟩ := Json.head_toDigits n
    rw [Selector.toList_word_index, hds]
    refine ⟨d, _, rfl, hd, ?_⟩
    rintro rfl
    exact absurd hd (by decide)
  | branch n => exact ⟨'.', _, rfl, rfl, by decide⟩
  | key k => exact ⟨'.', _, rfl, rfl, by decide⟩

theorem display_ne_root (s : Selector) (rest : Path) : display (s :: rest) ≠ display [] := by
  intro h
  have hroot : ∃ ds, (display []).toList = '<' :: ds := ⟨"root>".toList, rfl⟩
  obtain ⟨ds, hds⟩ := hroot
  obtain ⟨c, cs, hcs, -, hc⟩ := head_display s rest
  rw [h, hds] at hcs
  exact hc (List.cons.inj hcs).1.symm

theorem isBranch_eq_of_display_eq {s t : Selector} {p q : Path}
    (h : display (s :: p) = display (t :: q)) : s.isBranch = t.isBranch := by
  obtain ⟨c, cs, hcs, hc, -⟩ := head_display s p
  obtain ⟨d, ds, hds, hd, -⟩ := head_display t q
  rw [h, hds] at hcs
  rw [(List.cons.inj hcs).1, hc] at hd
  exact Bool.not_inj hd

/-- **A path is known by its text.** -/
theorem display_inj {p q : Path} : p.display = q.display ↔ p = q := by
  refine ⟨fun h => ?_, congrArg display⟩
  cases p with
  | nil =>
    cases q with
    | nil => rfl
    | cons t q => exact absurd h.symm (display_ne_root t q)
  | cons s p =>
    cases q with
    | nil => exact absurd h (display_ne_root s p)
    | cons t q =>
      have htext := congrArg String.toList h
      rw [toList_display, toList_display, isBranch_eq_of_display_eq h,
        List.append_cancel_left_eq] at htext
      have htrail : trail ['.'] Selector.word (s :: p) ++ [] =
          trail ['.'] Selector.word (t :: q) ++ [] :=
        congrArg (fun cs => ('.' :: cs) ++ []) htext
      have hover : StopsAt (stopsExcept (· == '.') '.') [] := nofun
      have hwords := (trail_inj rfl (fun a _ => ⟨a.legible_word, rfl, a.word_ne_empty⟩)
        (fun b _ => ⟨rfl, b.word_ne_empty⟩) hover hover htrail).1
      rwa [List.map_id, List.map_id] at hwords

/-- A key that spells the end of a key and the beginning of a number. -/
example : display [.key "a\"].0"] = ".items[\"a\\\"].0\"]" ∧
    display [.key "a", .index 0] = ".items[\"a\"].0" := by
  decide +kernel

end Path

end FilterEditor
