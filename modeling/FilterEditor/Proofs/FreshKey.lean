import FilterEditor.Tree.Entries
import Mathlib.Order.Bounds.Defs

/-!
# Fresh keys are fresh

The search for a fresh key has no bound of its own in sight; `firstFree` gives it one step for each
entry.  That is enough: the keys it tries are all different (`numbered_injective`), so if every step
met a taken one, the keys of the entries would be used up (`freshKey_not_mem`).

`Search` is the search without the bound: it goes on to the next number as long as it meets taken
keys, and says nothing of whether it ever stops.  It does, after at most one try more than there are
entries, and the number that it stops at is the one of `firstFree` (`freshKey_search`).
-/

namespace FilterEditor.Entries

variable {α : Type}

theorem numbered_injective {stem : String} {m n : Nat} (h : numbered stem m = numbered stem n) :
    m = n := by
  have hrepr : m.repr = n.repr := (String.append_right_inj stem).mp h
  have hdigits : Nat.toDigits 10 m = Nat.toDigits 10 n := by
    rw [← Nat.toList_repr, ← Nat.toList_repr, hrepr]
  rw [← Nat.ofDigitChars_ten_toDigits (n := m), hdigits, Nat.ofDigitChars_ten_toDigits]

theorem firstFree_le (entries : Entries α) (stem : String) (fuel n : Nat) :
    firstFree entries stem fuel n ≤ n + fuel := by
  induction fuel generalizing n with
  | zero => exact Nat.le_refl n
  | succ fuel ih =>
    rw [firstFree]
    split
    · have hnext := ih (n + 1)
      omega
    · omega

/-- Every number that the search passes over belongs to a taken key. -/
theorem mem_of_lt_firstFree {entries : Entries α} {stem : String} {fuel n i : Nat} (hn : n ≤ i)
    (hi : i < firstFree entries stem fuel n) : numbered stem i ∈ keys entries := by
  induction fuel generalizing n with
  | zero =>
    rw [firstFree] at hi
    omega
  | succ fuel ih =>
    rw [firstFree] at hi
    split at hi
    next htaken =>
      rcases Nat.eq_or_lt_of_le hn with rfl | hlt
      · exact htaken
      · exact ih hlt hi
    next => omega

/-- A search that ends before its last step has found a free key. -/
theorem not_mem_of_firstFree_lt {entries : Entries α} {stem : String} {fuel n : Nat}
    (h : firstFree entries stem fuel n < n + fuel) :
    numbered stem (firstFree entries stem fuel n) ∉ keys entries := by
  induction fuel generalizing n with
  | zero =>
    rw [firstFree] at h
    omega
  | succ fuel ih =>
    rw [firstFree] at h ⊢
    split at h
    next htaken =>
      rw [if_pos htaken]
      exact ih (by omega)
    next hfree =>
      rw [if_neg hfree]
      exact hfree

/-- **A fresh key is not taken.** -/
theorem freshKey_not_mem (entries : Entries α) (stem : String) :
    freshKey entries stem ∉ keys entries := by
  intro hmem
  rcases Nat.lt_or_eq_of_le (firstFree_le entries stem entries.length (entries.length + 1))
    with hlt | heq
  · exact not_mem_of_firstFree_lt hlt hmem
  · -- all steps met taken keys, and the last key is taken too: one more than there are entries
    have hsub : (List.range' (entries.length + 1) (entries.length + 1)).map (numbered stem) ⊆
        keys entries := by
      intro k hk
      obtain ⟨i, hi, rfl⟩ := List.mem_map.mp hk
      rw [List.mem_range'_1] at hi
      by_cases hlast : i = entries.length + 1 + entries.length
      · rw [freshKey, heq] at hmem
        rw [hlast]
        exact hmem
      · exact mem_of_lt_firstFree hi.1 (by rw [heq]; omega)
    have hnodup : ((List.range' (entries.length + 1) (entries.length + 1)).map
        (numbered stem)).Nodup :=
      List.pairwise_map.mpr ((List.nodup_range' 1).imp fun hne h => hne (numbered_injective h))
    have hlen := hnodup.length_le_of_subset hsub
    rw [List.length_map, List.length_range', keys, List.length_map] at hlen
    omega

/-! ## The search without a bound -/

/-- The search from a number on, with the numbers that it tries one after the other and the number
at which it stops. -/
inductive Search (entries : Entries α) (stem : String) : Nat → List Nat → Nat → Prop
  | free {n : Nat} : numbered stem n ∉ keys entries → Search entries stem n [n] n
  | taken {n m : Nat} {tried : List Nat} : numbered stem n ∈ keys entries →
      Search entries stem (n + 1) tried m → Search entries stem n (n :: tried) m

variable {entries : Entries α} {stem : String}

theorem Search.unique {n m m' : Nat} {tried tried' : List Nat}
    (h : Search entries stem n tried m) (h' : Search entries stem n tried' m') :
    tried' = tried ∧ m' = m := by
  induction h generalizing tried' m' with
  | free hfree =>
    cases h' with
    | free => exact ⟨rfl, rfl⟩
    | taken htaken => exact absurd htaken hfree
  | taken htaken hnext ih =>
    cases h' with
    | free hfree => exact absurd htaken hfree
    | taken _ hnext' =>
      obtain ⟨rfl, rfl⟩ := ih hnext'
      exact ⟨rfl, rfl⟩

/-- A search that has nothing but taken keys in front of a free one stops there. -/
theorem search_range' {n k : Nat} (htaken : ∀ i, n ≤ i → i < n + k → numbered stem i ∈ keys entries)
    (hfree : numbered stem (n + k) ∉ keys entries) :
    Search entries stem n (List.range' n (k + 1)) (n + k) := by
  induction k generalizing n with
  | zero => exact .free hfree
  | succ k ih =>
    have hnext : n + (k + 1) = n + 1 + k := by omega
    rw [hnext] at htaken hfree
    rw [List.range'_succ, hnext]
    exact .taken (htaken n (Nat.le_refl n) (by omega))
      (ih (fun i hi => htaken i (by omega)) hfree)

theorem le_firstFree (entries : Entries α) (stem : String) (fuel n : Nat) :
    n ≤ firstFree entries stem fuel n := by
  induction fuel generalizing n with
  | zero => exact Nat.le_refl n
  | succ fuel ih =>
    rw [firstFree]
    split
    · have hnext := ih (n + 1)
      omega
    · exact Nat.le_refl n

/-- **The search for a fresh key ends, and ends as early as it can.**  Of `n` entries it begins with
the number `n + 1`, tries at most `n + 1` numbers and stops at the least one that is free, which
makes the fresh key; no number that it comes to is above `2 * n + 1`. -/
theorem freshKey_search (entries : Entries α) (stem : String) :
    ∃ m tried,
      (∀ tried' m', Search entries stem (entries.length + 1) tried' m' ↔
        tried' = tried ∧ m' = m) ∧
      tried.length ≤ entries.length + 1 ∧
      (∀ i ∈ tried, i ≤ m) ∧
      IsLeast {i | entries.length + 1 ≤ i ∧ numbered stem i ∉ keys entries} m ∧
      m ≤ 2 * entries.length + 1 ∧
      freshKey entries stem = stem ++ toString m := by
  have hfree := freshKey_not_mem entries stem
  rw [freshKey] at hfree
  obtain ⟨k, hk⟩ := Nat.exists_eq_add_of_le
    (le_firstFree entries stem entries.length (entries.length + 1))
  have hbound := firstFree_le entries stem entries.length (entries.length + 1)
  have htaken : ∀ i, entries.length + 1 ≤ i → i < entries.length + 1 + k →
      numbered stem i ∈ keys entries := by
    rw [← hk]
    exact fun i hn hi => mem_of_lt_firstFree hn hi
  rw [hk] at hfree hbound
  have hsearch := search_range' htaken hfree
  refine ⟨entries.length + 1 + k, _, fun tried' m' => ⟨hsearch.unique, ?_⟩, ?_, fun i hi => ?_,
    ⟨⟨Nat.le_add_right _ k, hfree⟩, fun i hi => ?_⟩, by omega, ?_⟩
  · rintro ⟨rfl, rfl⟩
    exact hsearch
  · rw [List.length_range']
    omega
  · rw [List.mem_range'_1] at hi
    omega
  · exact Nat.le_of_not_lt fun hlt => hi.2 (htaken i hi.1 hlt)
  · rw [freshKey, hk, numbered]

/-- Keys that look like a prefix with a number: behind `k1` the number `4` is free, behind `k` it is
taken and so is `5`. -/
example : freshKey [("k4", ()), ("k5", ()), ("k15", ())] "k1" = "k14" ∧
    freshKey [("k4", ()), ("k5", ()), ("k7", ())] "k" = "k6" := by
  decide

end FilterEditor.Entries
