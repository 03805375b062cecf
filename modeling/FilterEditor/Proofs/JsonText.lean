import FilterEditor.Json.Parser
import FilterEditor.Json.Printer

/-!
# What is written is read back

A JSON tree of any shape is read back from its text, whatever blanks the layout puts between the
tokens (`parse?_ofList_write`).  The parts come first: quoted text character by character
(`readQuoted_escape`), then numerals digit by digit (`readNumeral_write`), then values by induction
over the tree.  A reader stops at the first character that is not its own, so each statement holds
with any text behind; only a numeral needs that the text behind does not go on with it
(`EndsNumber`).
-/

namespace FilterEditor.Json

/-! ## Blanks -/

/-- The blanks of a layout may stand between tokens. -/
structure Layout.Blank (l : Layout) : Prop where
  lineBreak : ∀ level, ∀ c ∈ l.lineBreak level, isGap c = true
  afterColon : ∀ c ∈ l.afterColon, isGap c = true

theorem Layout.blank_compact : Layout.compact.Blank :=
  ⟨nofun, nofun⟩

theorem skipGap_append {gap : List Char} (h : ∀ c ∈ gap, isGap c = true) (cs : List Char) :
    skipGap (gap ++ cs) = skipGap cs :=
  List.dropWhile_append_of_pos h

theorem skipGap_cons {c : Char} (h : isGap c = false) (cs : List Char) :
    skipGap (c :: cs) = c :: cs :=
  List.dropWhile_cons_of_neg (by simp [h])

/-! ## Text in quotes -/

theorem hexValue?_digitChar : ∀ d < 16, hexValue? (Nat.digitChar d) = some d := by
  decide

/-- A character is escaped by a letter or by its number, or stands for itself. -/
theorem escape_cases (c : Char) :
    (∃ e, shortEscape? c = some e ∧ escape c = ['\\', e]) ∨
      (c.toNat < 0x20 ∧ escape c =
        ['\\', 'u', '0', '0', Nat.digitChar (c.toNat / 16), Nat.digitChar (c.toNat % 16)]) ∨
      (0x20 ≤ c.toNat ∧ c ≠ '"' ∧ c ≠ '\\' ∧ escape c = [c]) := by
  rw [escape]
  cases hshort : shortEscape? c with
  | some e => exact Or.inl ⟨e, rfl, rfl⟩
  | none =>
    have hquote : c ≠ '"' := by rintro rfl; cases hshort
    have hslash : c ≠ '\\' := by rintro rfl; cases hshort
    by_cases hlow : c.toNat < 0x20
    · exact Or.inr (Or.inl ⟨hlow, if_pos hlow⟩)
    · exact Or.inr (Or.inr ⟨Nat.le_of_not_lt hlow, hquote, hslash, if_neg hlow⟩)

theorem unescape?_of_shortEscape? {c e : Char} (h : shortEscape? c = some e) :
    unescape? e = some c := by
  unfold shortEscape? at h
  split at h <;> cases h <;> rfl

theorem readQuoted_escape (c : Char) (rest : List Char) :
    readQuoted (escape c ++ rest) = (readQuoted rest).map fun r => (c :: r.1, r.2) := by
  rcases escape_cases c with ⟨e, he, heq⟩ | ⟨hlow, heq⟩ | ⟨hlow, hquote, hslash, heq⟩
  · have hback := unescape?_of_shortEscape? he
    have hletter : e ≠ 'u' := by rintro rfl; cases hback
    rw [heq, List.cons_append, List.singleton_append, readQuoted, hback]
    all_goals simp [hletter]
  · have hunit : codeUnit? '0' '0' (Nat.digitChar (c.toNat / 16)) (Nat.digitChar (c.toNat % 16)) =
        some c.toNat := by
      have hzero : hexValue? '0' = some 0 := rfl
      rw [codeUnit?, hzero, hexValue?_digitChar _ (by omega), hexValue?_digitChar _ (by omega)]
      simp only [Option.bind_eq_bind, Option.bind_some, Option.pure_def, Option.some.injEq]
      omega
    have hsmall : isLowSurrogate c.toNat = false ∧ isHighSurrogate c.toNat = false := by
      simp [isLowSurrogate, isHighSurrogate]
      omega
    simp [heq, readQuoted, hunit, hsmall]
  · rw [heq, List.singleton_append, readQuoted, if_neg (by simp [hslash, hlow])]
    all_goals simp [hquote, hslash]

theorem readQuoted_write (cs rest : List Char) :
    readQuoted (cs.flatMap escape ++ '"' :: rest) = some (cs, rest) := by
  induction cs with
  | nil => simp [readQuoted]
  | cons c cs ih => rw [List.flatMap_cons, List.append_assoc, readQuoted_escape, ih]; rfl

/-! ## Numerals -/

/-- The text does not go on with a run of digits. -/
def EndsDigits (cs : List Char) : Prop :=
  ∀ c ∈ cs.head?, c.isDigit = false

def EndsNumber (cs : List Char) : Prop :=
  ∀ c ∈ cs.head?, c.isDigit = false ∧ c ≠ '.' ∧ c ≠ 'e' ∧ c ≠ 'E'

theorem EndsNumber.endsDigits {cs : List Char} (h : EndsNumber cs) : EndsDigits cs :=
  fun c hc => (h c hc).1

theorem readDigits_append {ds rest : List Char} (hne : ds ≠ []) (hds : ∀ c ∈ ds, c.isDigit = true)
    (hrest : EndsDigits rest) : readDigits (ds ++ rest) = some (ds, rest) := by
  have hstop : rest.takeWhile Char.isDigit = [] ∧ rest.dropWhile Char.isDigit = rest := by
    cases rest with
    | nil => exact ⟨rfl, rfl⟩
    | cons c rest =>
      have hc : c.isDigit = false := hrest c rfl
      simp [hc]
  rw [readDigits, List.takeWhile_append_of_pos hds, List.dropWhile_append_of_pos hds, hstop.1,
    hstop.2, List.append_nil]
  cases ds with
  | nil => exact absurd rfl hne
  | cons => rfl

theorem readDigits_toDigits (n : Nat) {rest : List Char} (hrest : EndsDigits rest) :
    readDigits (Nat.toDigits 10 n ++ rest) = some (Nat.toDigits 10 n, rest) :=
  readDigits_append Nat.toDigits_ne_nil
    (fun _ => Nat.isDigit_of_mem_toDigits (by decide) (by decide)) hrest

theorem head_toDigits (n : Nat) :
    ∃ d ds, Nat.toDigits 10 n = d :: ds ∧ d.isDigit = true := by
  cases hds : Nat.toDigits 10 n with
  | nil => exact absurd hds Nat.toDigits_ne_nil
  | cons d ds =>
    have hmem : d ∈ Nat.toDigits 10 n := hds ▸ List.mem_cons_self
    exact ⟨d, ds, rfl, Nat.isDigit_of_mem_toDigits (by decide) (by decide) hmem⟩

theorem head_toDigits_ne_zero {n : Nat} (h : 0 < n) :
    (Nat.toDigits 10 n).head? ≠ some '0' := by
  induction n using Nat.strongRecOn with
  | ind n ih =>
    rcases Nat.lt_or_ge n 10 with hn | hn
    · have hdigit : ∀ d < 10, 0 < d → Nat.digitChar d ≠ '0' := by decide
      rw [Nat.toDigits_of_lt_base hn]
      simpa using hdigit n hn h
    · have hlead := ih (n / 10) (by omega) (by omega)
      rw [Nat.toDigits_of_base_le (by decide) hn]
      obtain ⟨d, ds, hds, -⟩ := head_toDigits (n / 10)
      rwa [hds] at hlead ⊢

theorem readWhole_toDigits (n : Nat) {rest : List Char} (hrest : EndsDigits rest) :
    readWhole (Nat.toDigits 10 n ++ rest) = some (n, rest) := by
  rw [readWhole, readDigits_toDigits n hrest]
  split
  next hdigits =>
    -- Two digits and a zero in front: not the digits of zero, and not those of another number.
    exfalso
    simp only [Option.some.injEq, Prod.mk.injEq] at hdigits
    rcases Nat.eq_zero_or_pos n with rfl | hn
    · simp at hdigits
    · exact head_toDigits_ne_zero hn (by rw [hdigits.1]; rfl)
  next ds rest' _ hdigits =>
    simp only [Option.some.injEq, Prod.mk.injEq] at hdigits
    rw [← hdigits.1, ← hdigits.2, Nat.ofDigitChars_ten_toDigits]
  next hdigits => cases hdigits

theorem digitOf_digitChar : ∀ d : Digit, digitOf (digitChar d) = d := by
  decide

theorem isDigit_digitChar : ∀ d : Digit, (digitChar d).isDigit = true := by
  decide

def writeFraction (ds : List Digit) : List Char :=
  if ds = [] then [] else '.' :: ds.map digitChar

theorem readFraction_write (ds : List Digit) {rest : List Char} (hrest : EndsDigits rest)
    (hpoint : '.' ∉ rest.head?) : readFraction (writeFraction ds ++ rest) = some (ds, rest) := by
  rw [writeFraction]
  split
  next hds =>
    subst hds
    rw [List.nil_append, readFraction]
    rintro rest' rfl
    exact hpoint rfl
  next hds =>
    have hdigits : ∀ c ∈ ds.map digitChar, c.isDigit = true := by
      intro c hc
      obtain ⟨d, -, rfl⟩ := List.mem_map.mp hc
      exact isDigit_digitChar d
    have hback : (ds.map digitChar).map digitOf = ds := by
      simp [Function.comp_def, digitOf_digitChar]
    rw [List.cons_append, readFraction, readDigits_append (by simpa using hds) hdigits hrest,
      Option.map_some, hback]

theorem readExponent_write (e : Option Int) {rest : List Char} (hrest : EndsNumber rest) :
    readExponent ((e.map writeExponent).getD [] ++ rest) = some (e, rest) := by
  cases e with
  | none =>
    change readExponent rest = some (none, rest)
    rw [readExponent]
    · rintro rest' rfl
      exact (hrest 'e' rfl).2.2.1 rfl
    · rintro rest' rfl
      exact (hrest 'E' rfl).2.2.2 rfl
  | some e =>
    have hdigits := readDigits_toDigits e.natAbs hrest.endsDigits
    simp only [Option.map_some, Option.getD_some, writeExponent, List.cons_append, readExponent]
    split
    next he =>
      have hback : -Int.ofNat e.natAbs = e := by rw [Int.ofNat_eq_natCast]; omega
      simp only [readPower, hdigits, Option.map_some, Nat.ofDigitChars_ten_toDigits, hback]
    next he =>
      have hback : Int.ofNat e.natAbs = e := by rw [Int.ofNat_eq_natCast]; omega
      simp only [readPower, hdigits, Option.map_some, Nat.ofDigitChars_ten_toDigits, hback]

theorem readUnsigned_write (n : Numeral) {rest : List Char} (hrest : EndsNumber rest) :
    readUnsigned n.negative (Nat.toDigits 10 n.whole ++ (writeFraction n.fraction ++
      ((n.exponent.map writeExponent).getD [] ++ rest))) = some (n, rest) := by
  -- Behind the digits before the point stand a point, an `e` or the text behind the numeral.
  have hexponent : ∀ c ∈ ((n.exponent.map writeExponent).getD [] ++ rest).head?,
      c.isDigit = false ∧ c ≠ '.' := by
    cases n.exponent with
    | none => exact fun c hc => ⟨(hrest c hc).1, (hrest c hc).2.1⟩
    | some e => rintro c ⟨⟩; decide
  have hfraction : EndsDigits (writeFraction n.fraction ++
      ((n.exponent.map writeExponent).getD [] ++ rest)) := by
    rw [writeFraction]
    split
    · exact fun c hc => (hexponent c hc).1
    · rintro c ⟨⟩; rfl
  rw [readUnsigned, readWhole_toDigits n.whole hfraction]
  simp only [Option.bind_eq_bind, Option.bind_some]
  rw [readFraction_write n.fraction (fun c hc => (hexponent c hc).1)
    (fun hc => (hexponent _ hc).2 rfl)]
  simp only [Option.bind_some]
  rw [readExponent_write n.exponent hrest]
  rfl

theorem readNumeral_write (n : Numeral) {rest : List Char} (hrest : EndsNumber rest) :
    readNumeral (writeNumeral n ++ rest) = some (n, rest) := by
  have hunsigned := readUnsigned_write n hrest
  simp only [writeNumeral, List.append_assoc]
  rw [← writeFraction]
  cases hneg : n.negative with
  | true =>
    rw [hneg] at hunsigned
    exact hunsigned
  | false =>
    rw [hneg] at hunsigned
    have hsign : ∀ rest', Nat.toDigits 10 n.whole ++ (writeFraction n.fraction ++
        ((n.exponent.map writeExponent).getD [] ++ rest)) ≠ '-' :: rest' := by
      intro rest' h
      obtain ⟨d, ds, hds, hd⟩ := head_toDigits n.whole
      rw [hds, List.cons_append, List.cons.injEq] at h
      rw [h.1] at hd
      cases hd
    rw [if_neg (by decide), List.nil_append, readNumeral]
    · exact hunsigned
    · exact hsign

/-! ## Values -/

variable {l : Layout} {gap : List Char}

theorem endsNumber_nil : EndsNumber [] :=
  nofun

theorem endsNumber_cons {c : Char} (cs : List Char)
    (h : c.isDigit = false ∧ c ≠ '.' ∧ c ≠ 'e' ∧ c ≠ 'E') : EndsNumber (c :: cs) := by
  rintro _ ⟨⟩
  exact h

theorem EndsNumber.gap_append {cs : List Char} (h : EndsNumber cs)
    (hgap : ∀ c ∈ gap, isGap c = true) : EndsNumber (gap ++ cs) := by
  cases gap with
  | nil => exact h
  | cons c gap =>
    have hc := hgap c List.mem_cons_self
    simp only [isGap, Bool.or_eq_true, decide_eq_true_eq] at hc
    refine endsNumber_cons _ ?_
    rcases hc with ((rfl | rfl) | rfl) | rfl <;> decide

theorem readValue_gap (hgap : ∀ c ∈ gap, isGap c = true) (fuel : Nat) (cs : List Char) :
    readValue fuel (gap ++ cs) = readValue fuel cs := by
  cases fuel with
  | zero => rfl
  | succ fuel => rw [readValue, readValue, skipGap_append hgap]

theorem readItems_gap (hgap : ∀ c ∈ gap, isGap c = true) (fuel : Nat) (cs : List Char) :
    readItems fuel (gap ++ cs) = readItems fuel cs := by
  cases fuel with
  | zero => rfl
  | succ fuel => rw [readItems, readItems, readValue_gap hgap]

theorem readMembers_gap (hgap : ∀ c ∈ gap, isGap c = true) (fuel : Nat) (cs : List Char) :
    readMembers fuel (gap ++ cs) = readMembers fuel cs := by
  cases fuel with
  | zero => rfl
  | succ fuel => rw [readMembers, readMembers, readName, readName, skipGap_append hgap]

theorem head_writeNumeral (n : Numeral) :
    ∃ c cs, writeNumeral n = c :: cs ∧ (c = '-' ∨ c.isDigit = true) := by
  rw [writeNumeral]
  cases n.negative with
  | true => exact ⟨'-', _, rfl, .inl rfl⟩
  | false =>
    obtain ⟨d, ds, hds, hd⟩ := head_toDigits n.whole
    rw [hds]
    exact ⟨d, _, rfl, .inr hd⟩

theorem not_gap_of_head_numeral {c : Char} (h : c = '-' ∨ c.isDigit = true) :
    isGap c = false := by
  rw [Bool.eq_false_iff]
  intro hc
  simp only [isGap, Bool.or_eq_true, decide_eq_true_eq] at hc
  rcases hc with ((rfl | rfl) | rfl) | rfl <;> revert h <;> decide

theorem head_write (l : Layout) (level : Nat) (j : Json) :
    ∃ c cs, write l level j = c :: cs ∧ isGap c = false ∧ c ≠ ']' := by
  cases j with
  | null => exact ⟨'n', _, rfl, rfl, by decide⟩
  | bool b => cases b <;> exact ⟨_, _, rfl, rfl, by decide⟩
  | number n =>
    obtain ⟨c, cs, hwrite, hc⟩ := head_writeNumeral n
    refine ⟨c, cs, hwrite, not_gap_of_head_numeral hc, ?_⟩
    rintro rfl
    revert hc
    decide
  | string s => exact ⟨'"', _, rfl, rfl, by decide⟩
  | array items => cases items <;> exact ⟨'[', _, rfl, rfl, by decide⟩
  | object members => cases members <;> exact ⟨'{', _, rfl, rfl, by decide⟩

theorem readValue_numeral (n : Numeral) (fuel : Nat) {rest : List Char} (hrest : EndsNumber rest) :
    readValue (fuel + 1) (writeNumeral n ++ rest) = some (.number n, rest) := by
  have hread := readNumeral_write n hrest
  obtain ⟨c, cs, hwrite, hc⟩ := head_writeNumeral n
  rw [hwrite, List.cons_append] at hread ⊢
  rw [readValue, skipGap_cons (not_gap_of_head_numeral hc)]
  -- The characters that begin another value are no sign and no digit.
  split
  case h_7 => rw [hread]; rfl
  all_goals
    obtain ⟨rfl, -⟩ := List.cons.inj ‹_›
    exact absurd hc (by decide)

theorem readValue_string (s : String) (fuel : Nat) (rest : List Char) :
    readValue (fuel + 1) (writeString s ++ rest) = some (.string s, rest) := by
  rw [writeString, List.cons_append, List.append_assoc, List.singleton_append, readValue,
    skipGap_cons rfl]
  simp [readQuoted_write]

/-- An array that is not empty is read item by item. -/
theorem readValue_array (hgap : ∀ c ∈ gap, isGap c = true) {c : Char} (hc : isGap c = false)
    (hclose : c ≠ ']') (fuel : Nat) (cs : List Char) :
    readValue (fuel + 1) ('[' :: (gap ++ c :: cs)) =
      (readItems fuel (c :: cs)).map fun r => (.array r.1, r.2) := by
  rw [readValue, skipGap_cons rfl]
  simp only [skipGap_append hgap, skipGap_cons hc]
  split
  next h => exact absurd (List.cons.inj h).1 hclose
  next => rfl

theorem readValue_object (hgap : ∀ c ∈ gap, isGap c = true) (fuel : Nat) (cs : List Char) :
    readValue (fuel + 1) ('\x7b' :: (gap ++ '"' :: cs)) =
      (readMembers fuel ('"' :: cs)).map fun r => (.object r.1, r.2) := by
  have hquote : skipGap ('"' :: cs) = '"' :: cs := skipGap_cons rfl cs
  rw [readValue, skipGap_cons rfl]
  simp [skipGap_append hgap, hquote]

theorem readName_write (name : String) (rest : List Char) :
    readName (writeString name ++ ':' :: rest) = some (name, rest) := by
  have hcolon : skipGap (':' :: rest) = ':' :: rest := skipGap_cons rfl rest
  rw [writeString, List.cons_append, List.append_assoc, List.singleton_append, readName,
    skipGap_cons rfl]
  simp [readQuoted_write, hcolon]

/-- The tree is read back from its text, with any text behind that ends a number. -/
def ReadBack (l : Layout) (j : Json) : Prop :=
  ∀ level fuel rest, (write l level j).length ≤ fuel → EndsNumber rest →
    readValue (fuel + 1) (write l level j ++ rest) = some (j, rest)

theorem readItems_close {fuel : Nat} {cs rest : List Char} {item : Json}
    (hgap : ∀ c ∈ gap, isGap c = true)
    (hitem : readValue fuel cs = some (item, gap ++ ']' :: rest)) :
    readItems (fuel + 1) cs = some ([item], rest) := by
  have hclose : skipGap (']' :: rest) = ']' :: rest := skipGap_cons rfl rest
  simp [readItems, hitem, skipGap_append hgap, hclose]

theorem readItems_comma {fuel : Nat} {cs rest : List Char} {item : Json}
    (hgap : ∀ c ∈ gap, isGap c = true)
    (hitem : readValue fuel cs = some (item, ',' :: (gap ++ rest))) :
    readItems (fuel + 1) cs = (readItems fuel rest).map fun r => (item :: r.1, r.2) := by
  have hcomma : ∀ cs, skipGap (',' :: cs) = ',' :: cs := skipGap_cons rfl
  simp [readItems, hitem, hcomma, readItems_gap hgap]

theorem readItems_write (hl : l.Blank) (level outer fuel : Nat) {item : Json} {items : List Json}
    (h : ∀ j ∈ item :: items, ReadBack l j)
    (hfuel : (write l level item).length + (writeItems l level items).length ≤ fuel)
    (rest : List Char) :
    readItems (fuel + 2) (write l level item ++
      (writeItems l level items ++ (l.lineBreak outer ++ ']' :: rest))) =
      some (item :: items, rest) := by
  induction items generalizing item fuel with
  | nil =>
    have hends : EndsNumber (l.lineBreak outer ++ ']' :: rest) :=
      (endsNumber_cons rest (by decide)).gap_append (hl.lineBreak outer)
    exact readItems_close (hl.lineBreak outer)
      (h item List.mem_cons_self level fuel _ (by omega) hends)
  | cons next items ih =>
    simp only [writeItems, List.length_cons, List.length_append] at hfuel
    simp only [writeItems, List.cons_append, List.append_assoc]
    have hitem := fun cs => h item List.mem_cons_self level fuel (',' :: cs) (by omega)
      (endsNumber_cons cs (by decide))
    obtain ⟨fuel, rfl⟩ : ∃ f, fuel = f + 1 := ⟨fuel - 1, by omega⟩
    rw [readItems_comma (hl.lineBreak level) (hitem _),
      ih fuel (fun j hj => h j (List.mem_cons_of_mem _ hj)) (by omega)]
    rfl

theorem readMembers_close {fuel : Nat} {cs rest space : List Char} {name : String} {value : Json}
    (hgap : ∀ c ∈ gap, isGap c = true) (hspace : ∀ c ∈ space, isGap c = true)
    (hvalue : readValue fuel cs = some (value, gap ++ '\x7d' :: rest)) :
    readMembers (fuel + 1) (writeString name ++ ':' :: (space ++ cs)) =
      some ([(name, value)], rest) := by
  have hclose : skipGap ('\x7d' :: rest) = '\x7d' :: rest := skipGap_cons rfl rest
  simp [readMembers, readName_write, readValue_gap hspace, hvalue, skipGap_append hgap, hclose]

theorem readMembers_comma {fuel : Nat} {cs rest space : List Char} {name : String} {value : Json}
    (hgap : ∀ c ∈ gap, isGap c = true) (hspace : ∀ c ∈ space, isGap c = true)
    (hvalue : readValue fuel cs = some (value, ',' :: (gap ++ rest))) :
    readMembers (fuel + 1) (writeString name ++ ':' :: (space ++ cs)) =
      (readMembers fuel rest).map fun r => ((name, value) :: r.1, r.2) := by
  have hcomma : ∀ cs, skipGap (',' :: cs) = ',' :: cs := skipGap_cons rfl
  simp [readMembers, readName_write, readValue_gap hspace, hvalue, hcomma, readMembers_gap hgap]

theorem readMembers_write (hl : l.Blank) (level outer fuel : Nat) {m : String × Json}
    {members : List (String × Json)} (h : ∀ m' ∈ m :: members, ReadBack l m'.2)
    (hfuel : (write l level m.2).length + (writeMembers l level members).length ≤ fuel)
    (rest : List Char) :
    readMembers (fuel + 2) (writeString m.1 ++ ':' :: (l.afterColon ++ (write l level m.2 ++
      (writeMembers l level members ++ (l.lineBreak outer ++ '\x7d' :: rest))))) =
      some (m :: members, rest) := by
  induction members generalizing m fuel with
  | nil =>
    have hends : EndsNumber (l.lineBreak outer ++ '\x7d' :: rest) :=
      (endsNumber_cons rest (by decide)).gap_append (hl.lineBreak outer)
    exact readMembers_close (hl.lineBreak outer) hl.afterColon
      (h m List.mem_cons_self level fuel _ (by omega) hends)
  | cons next members ih =>
    simp only [writeMembers, List.length_cons, List.length_append] at hfuel
    simp only [writeMembers, List.cons_append, List.append_assoc]
    have hvalue := fun cs => h m List.mem_cons_self level fuel (',' :: cs) (by omega)
      (endsNumber_cons cs (by decide))
    obtain ⟨fuel, rfl⟩ : ∃ f, fuel = f + 1 := ⟨fuel - 1, by omega⟩
    rw [readMembers_comma (hl.lineBreak level) hl.afterColon (hvalue _),
      ih fuel (fun m' hm => h m' (List.mem_cons_of_mem _ hm)) (by omega)]
    rfl

/-- **What is written is read back.** -/
theorem readBack (hl : l.Blank) (j : Json) : ReadBack l j := by
  induction j with
  | null => exact fun _ _ _ _ _ => rfl
  | bool b => cases b <;> exact fun _ _ _ _ _ => rfl
  | number n => exact fun _ fuel _ _ hrest => readValue_numeral n fuel hrest
  | string s => exact fun _ fuel rest _ _ => readValue_string s fuel rest
  | array items ih =>
    intro level fuel rest hfuel _
    cases items with
    | nil => rfl
    | cons item items =>
      simp only [write, List.length_cons, List.length_append] at hfuel
      simp only [write, List.cons_append, List.append_assoc, List.nil_append]
      obtain ⟨c, cs, hhead, hc, hclose⟩ := head_write l (level + 1) item
      obtain ⟨fuel, rfl⟩ : ∃ f, fuel = f + 2 := ⟨fuel - 2, by omega⟩
      have hitems := readItems_write hl (level + 1) level fuel ih (by omega) rest
      rw [hhead, List.cons_append] at hitems ⊢
      rw [readValue_array (hl.lineBreak _) hc hclose, hitems]
      rfl
  | object members ih =>
    intro level fuel rest hfuel _
    cases members with
    | nil => rfl
    | cons m members =>
      simp only [write, List.length_cons, List.length_append] at hfuel
      simp only [write, List.cons_append, List.append_assoc, List.nil_append]
      obtain ⟨fuel, rfl⟩ : ∃ f, fuel = f + 2 := ⟨fuel - 2, by omega⟩
      have hmembers := readMembers_write hl (level + 1) level fuel ih (by omega) rest
      rw [writeString, List.cons_append] at hmembers ⊢
      rw [readValue_object (hl.lineBreak _), hmembers]
      rfl

theorem parse?_ofList_write (hl : l.Blank) (j : Json) :
    parse? (String.ofList (j.write l 0)) = some j := by
  have hread := readBack hl j 0 (2 * (j.write l 0).length + 1) [] (by omega) endsNumber_nil
  rw [List.append_nil] at hread
  simp [parse?, hread, skipGap]

theorem parse?_compact (j : Json) : parse? j.compact = some j :=
  parse?_ofList_write Layout.blank_compact j

end FilterEditor.Json
