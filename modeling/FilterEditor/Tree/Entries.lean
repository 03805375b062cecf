/-!
# Entries in order

An object construction holds branches under keys.  The order of the entries shows in the written
expression, so they form a list and not a map: a new key goes to the end, a known key keeps its
place, and taking an entry out leaves the others in their order.

`keys_put`, `keys_erase` and `keys_rename` say this of the keys alone; `get?_put` and
`get?_erase_of_ne` say what is found afterwards.

An entry that is put in without a name gets one: a given text and a number behind it (`freshKey`).
-/

namespace FilterEditor

/-- Values under keys, in the order in which the keys came. -/
abbrev Entries (α : Type) := List (String × α)

namespace Entries

variable {α : Type}

def keys (entries : Entries α) : List String :=
  entries.map Prod.fst

def get? (key : String) : Entries α → Option α
  | [] => none
  | (k, v) :: rest => if k = key then some v else get? key rest

/-- Put `value` under `key`: over the old value if there is one, else as a new last entry. -/
def put (key : String) (value : α) : Entries α → Entries α
  | [] => [(key, value)]
  | (k, v) :: rest => if k = key then (k, value) :: rest else (k, v) :: put key value rest

def erase (key : String) : Entries α → Entries α
  | [] => []
  | (k, v) :: rest => if k = key then rest else (k, v) :: erase key rest

def find? (key : String) : Entries α → Option (Nat × α)
  | [] => none
  | (k, v) :: rest =>
    if k = key then some (0, v) else (find? key rest).map fun entry => (entry.1 + 1, entry.2)

/-- Call the entry under `key` by another name, in the same place. -/
def rename (key newKey : String) : Entries α → Entries α
  | [] => []
  | (k, v) :: rest => if k = key then (newKey, v) :: rest else (k, v) :: rename key newKey rest

/-- The entries of a list in which keys may repeat: the first place and the last value count. -/
def ofList (pairs : List (String × α)) : Entries α :=
  pairs.foldl (fun entries pair => entries.put pair.1 pair.2) []

@[simp] theorem keys_nil : keys ([] : Entries α) = [] := rfl

@[simp] theorem keys_cons (k : String) (v : α) (rest : Entries α) :
    keys ((k, v) :: rest) = k :: keys rest := rfl

theorem get?_isSome_iff {key : String} {entries : Entries α} :
    (get? key entries).isSome ↔ key ∈ keys entries := by
  induction entries with
  | nil => simp [get?]
  | cons entry rest ih =>
    obtain ⟨k, v⟩ := entry
    by_cases h : k = key
    · simp [get?, h]
    · simp [get?, h, ih, Ne.symm h]

theorem mem_keys_of_get? {key : String} {value : α} {entries : Entries α}
    (h : get? key entries = some value) : key ∈ keys entries := by
  rw [← get?_isSome_iff, h]
  rfl

theorem get?_eq_none_iff {key : String} {entries : Entries α} :
    get? key entries = none ↔ key ∉ keys entries := by
  rw [← get?_isSome_iff]
  cases get? key entries <;> simp

/-- A put shows under its own key and under no other. -/
theorem get?_put (key k : String) (value : α) (entries : Entries α) :
    get? k (put key value entries) = if key = k then some value else get? k entries := by
  induction entries with
  | nil => rfl
  | cons entry rest ih =>
    obtain ⟨l, v⟩ := entry
    by_cases hl : l = key
    · subst hl
      by_cases hk : l = k <;> simp [put, get?, hk]
    · rw [put, if_neg hl, get?, get?, ih]
      by_cases hk : l = k
      · have hne : key ≠ k := fun h => hl (hk.trans h.symm)
        simp [hk, hne]
      · simp [hk]

theorem put_of_get? {key : String} {value : α} {entries : Entries α}
    (h : get? key entries = some value) : put key value entries = entries := by
  induction entries with
  | nil => simp [get?] at h
  | cons entry rest ih =>
    obtain ⟨l, v⟩ := entry
    by_cases hl : l = key
    · simp only [get?, if_pos hl, Option.some.injEq] at h
      simp [put, hl, h]
    · simp only [get?, if_neg hl] at h
      simp [put, hl, ih h]

theorem put_put (key : String) (value value' : α) (entries : Entries α) :
    put key value' (put key value entries) = put key value' entries := by
  induction entries with
  | nil => simp [put]
  | cons entry rest ih =>
    obtain ⟨k, v⟩ := entry
    by_cases h : k = key
    · simp [put, h]
    · simp [put, h, ih]

/-- Puts under two keys commute when one of them is there already. -/
theorem put_comm {key k : String} {entries : Entries α} (hne : key ≠ k) (h : key ∈ keys entries)
    (value value' : α) :
    put k value' (put key value entries) = put key value (put k value' entries) := by
  induction entries with
  | nil => cases h
  | cons entry rest ih =>
    obtain ⟨l, v⟩ := entry
    by_cases hl : l = key
    · subst hl
      simp [put, hne]
    · have hrest : key ∈ keys rest := by
        rcases List.mem_cons.mp h with heq | hmem
        · exact absurd heq.symm hl
        · exact hmem
      by_cases hk : l = k
      · simp [put, hk, Ne.symm hne]
      · simp [put, hl, hk, ih hrest]

theorem put_of_not_mem {key : String} {entries : Entries α} (h : key ∉ keys entries) (value : α) :
    put key value entries = entries ++ [(key, value)] := by
  induction entries with
  | nil => rfl
  | cons entry rest ih =>
    obtain ⟨k, v⟩ := entry
    rw [keys_cons, List.mem_cons, not_or] at h
    rw [put, if_neg (Ne.symm h.1), ih h.2, List.cons_append]

theorem get?_erase_of_ne {key k : String} (h : key ≠ k) (entries : Entries α) :
    get? k (erase key entries) = get? k entries := by
  induction entries with
  | nil => rfl
  | cons entry rest ih =>
    obtain ⟨l, v⟩ := entry
    by_cases hl : l = key
    · subst hl
      simp [erase, get?, h]
    · rw [erase, if_neg hl, get?, get?, ih]

/-- The keys after a put: nothing new for a known key, one more at the end for a new one. -/
theorem keys_put (key : String) (value : α) (entries : Entries α) :
    keys (put key value entries) =
      if key ∈ keys entries then keys entries else keys entries ++ [key] := by
  induction entries with
  | nil => simp [put]
  | cons entry rest ih =>
    obtain ⟨k, v⟩ := entry
    by_cases h : k = key
    · simp [put, h]
    · simp only [put, if_neg h, keys_cons, ih, List.mem_cons, Ne.symm h, false_or]
      split <;> simp

theorem keys_erase (key : String) (entries : Entries α) :
    keys (erase key entries) = (keys entries).erase key := by
  induction entries with
  | nil => rfl
  | cons entry rest ih =>
    obtain ⟨k, v⟩ := entry
    by_cases h : k = key
    · simp [erase, h]
    · simp [erase, h, ih]

theorem keys_rename (key newKey : String) (entries : Entries α) :
    keys (rename key newKey entries) = (keys entries).replace key newKey := by
  induction entries with
  | nil => rfl
  | cons entry rest ih =>
    obtain ⟨k, v⟩ := entry
    by_cases h : k = key
    · simp [rename, h]
    · have hne : (key == k) = false := by simp [Ne.symm h]
      simp [rename, h, ih, List.replace_cons, hne]

/-! ## Before and behind an entry -/

/-- The first entry under a key, with what stands before it and behind it. -/
structure Splits (entries : Entries α) (key : String) (before : Entries α) (value : α)
    (behind : Entries α) : Prop where
  eq : entries = before ++ (key, value) :: behind
  first : key ∉ keys before

theorem exists_splits {key : String} {entries : Entries α} (h : key ∈ keys entries) :
    ∃ before value behind, Splits entries key before value behind := by
  induction entries with
  | nil => cases h
  | cons entry rest ih =>
    obtain ⟨k, v⟩ := entry
    by_cases hk : key = k
    · exact ⟨[], v, rest, by rw [hk, List.nil_append], List.not_mem_nil⟩
    · obtain ⟨before, value, behind, rfl, hfirst⟩ := ih ((List.mem_cons.mp h).resolve_left hk)
      refine ⟨(k, v) :: before, value, behind, rfl, ?_⟩
      rw [keys_cons, List.mem_cons, not_or]
      exact ⟨hk, hfirst⟩

namespace Splits

variable {key : String} {entries before behind : Entries α} {value : α}

theorem put_eq (h : Splits entries key before value behind) (value' : α) :
    put key value' entries = before ++ (key, value') :: behind := by
  obtain ⟨rfl, hfirst⟩ := h
  induction before with
  | nil => exact if_pos rfl
  | cons entry rest ih =>
    rw [keys_cons, List.mem_cons, not_or] at hfirst
    rw [List.cons_append, put, if_neg (Ne.symm hfirst.1), ih hfirst.2, List.cons_append]

theorem erase_eq (h : Splits entries key before value behind) :
    erase key entries = before ++ behind := by
  obtain ⟨rfl, hfirst⟩ := h
  induction before with
  | nil => exact if_pos rfl
  | cons entry rest ih =>
    rw [keys_cons, List.mem_cons, not_or] at hfirst
    rw [List.cons_append, erase, if_neg (Ne.symm hfirst.1), ih hfirst.2, List.cons_append]

theorem rename_eq (h : Splits entries key before value behind) (newKey : String) :
    rename key newKey entries = before ++ (newKey, value) :: behind := by
  obtain ⟨rfl, hfirst⟩ := h
  induction before with
  | nil => exact if_pos rfl
  | cons entry rest ih =>
    rw [keys_cons, List.mem_cons, not_or] at hfirst
    rw [List.cons_append, rename, if_neg (Ne.symm hfirst.1), ih hfirst.2, List.cons_append]

end Splits

/-! ## What is among the entries -/

theorem exists_mem_of_get? {key : String} {value : α} {entries : Entries α}
    (h : get? key entries = some value) : ∃ entry ∈ entries, entry.2 = value := by
  induction entries with
  | nil => cases h
  | cons first rest ih =>
    obtain ⟨k, v⟩ := first
    by_cases hk : k = key
    · rw [get?, if_pos hk] at h
      exact ⟨(k, v), List.mem_cons_self, Option.some.inj h⟩
    · rw [get?, if_neg hk] at h
      obtain ⟨entry, hentry, hvalue⟩ := ih h
      exact ⟨entry, List.mem_cons_of_mem _ hentry, hvalue⟩

theorem mem_put {key : String} {value : α} {entries : Entries α} {entry : String × α}
    (h : entry ∈ put key value entries) : entry ∈ entries ∨ entry = (key, value) := by
  induction entries with
  | nil => exact Or.inr (List.mem_singleton.mp h)
  | cons first rest ih =>
    obtain ⟨k, v⟩ := first
    by_cases hk : k = key
    · subst hk
      rw [put, if_pos rfl, List.mem_cons] at h
      exact h.symm.imp_left (List.mem_cons_of_mem _)
    · rw [put, if_neg hk, List.mem_cons] at h
      rcases h with rfl | h
      · exact Or.inl List.mem_cons_self
      · exact (ih h).imp_left (List.mem_cons_of_mem _)

theorem mem_erase {key : String} {entries : Entries α} {entry : String × α}
    (h : entry ∈ erase key entries) : entry ∈ entries := by
  induction entries with
  | nil => exact h
  | cons first rest ih =>
    obtain ⟨k, v⟩ := first
    by_cases hk : k = key
    · rw [erase, if_pos hk] at h
      exact List.mem_cons_of_mem _ h
    · rw [erase, if_neg hk, List.mem_cons] at h
      rcases h with rfl | h
      · exact List.mem_cons_self
      · exact List.mem_cons_of_mem _ (ih h)

theorem map_snd_rename (key newKey : String) (entries : Entries α) :
    (rename key newKey entries).map Prod.snd = entries.map Prod.snd := by
  induction entries with
  | nil => rfl
  | cons first rest ih =>
    obtain ⟨k, v⟩ := first
    by_cases hk : k = key <;> simp [rename, hk, ih]

/-! ## Entries of a list with repeated keys -/

theorem mem_ofList {pairs : List (String × α)} {entry : String × α} (h : entry ∈ ofList pairs) :
    entry ∈ pairs := by
  have hfold : ∀ before : Entries α,
      entry ∈ pairs.foldl (fun entries pair => entries.put pair.1 pair.2) before →
        entry ∈ before ∨ entry ∈ pairs := by
    clear h
    induction pairs with
    | nil => exact fun before h => Or.inl h
    | cons pair rest ih =>
      intro before h
      rcases ih _ h with hput | hrest
      · rcases mem_put hput with hbefore | heq
        · exact Or.inl hbefore
        · exact Or.inr (heq ▸ List.mem_cons_self)
      · exact Or.inr (List.mem_cons_of_mem _ hrest)
  rcases hfold [] h with hnil | hmem
  · cases hnil
  · exact hmem

theorem nodup_keys_put {entries : Entries α} (h : (keys entries).Nodup) (key : String) (value : α) :
    (keys (put key value entries)).Nodup := by
  rw [keys_put]
  split
  next => exact h
  next hnew =>
    rw [List.nodup_append]
    refine ⟨h, List.pairwise_singleton _ key, fun k hk l hl heq => ?_⟩
    rw [List.mem_singleton.mp hl] at heq
    exact hnew (heq ▸ hk)

/-- Keys that repeat are taken together. -/
theorem nodup_keys_ofList (pairs : List (String × α)) : (keys (ofList pairs)).Nodup := by
  have hfold : ∀ before : Entries α, (keys before).Nodup →
      (keys (pairs.foldl (fun entries pair => entries.put pair.1 pair.2) before)).Nodup := by
    induction pairs with
    | nil => exact fun before h => h
    | cons pair rest ih => exact fun before h => ih _ (nodup_keys_put h pair.1 pair.2)
  exact hfold [] List.nodup_nil

/-- Entries without repeated keys stay as they are. -/
theorem ofList_of_nodup {entries : Entries α} (h : (keys entries).Nodup) :
    ofList entries = entries := by
  have hfold : ∀ rest before : Entries α, (keys (before ++ rest)).Nodup →
      rest.foldl (fun entries pair => entries.put pair.1 pair.2) before = before ++ rest := by
    intro rest
    induction rest with
    | nil => exact fun before h => (List.append_nil before).symm
    | cons pair rest ih =>
      intro before hnodup
      have hnew : pair.1 ∉ keys before := by
        intro hmem
        rw [keys, List.map_append, List.nodup_append] at hnodup
        exact hnodup.2.2 pair.1 hmem pair.1 List.mem_cons_self rfl
      rw [List.foldl_cons, put_of_not_mem hnew, ih _ (by rwa [List.append_assoc]),
        List.append_assoc]
      rfl
  exact hfold entries [] h

/-! ## Fresh keys

The first number tried is one more than the number of entries, and taken names are passed over.  Of
`n` entries at most `n` can stand in the way, so `n` steps of search are enough.
-/

def numbered (stem : String) (n : Nat) : String :=
  stem ++ toString n

/-- The first number from `n` on whose key is not taken, passing over at most `fuel` of them. -/
def firstFree (entries : Entries α) (stem : String) : Nat → Nat → Nat
  | 0, n => n
  | fuel + 1, n =>
    if numbered stem n ∈ keys entries then firstFree entries stem fuel (n + 1) else n

/-- A key that no entry has. -/
def freshKey (entries : Entries α) (stem : String) : String :=
  numbered stem (firstFree entries stem entries.length (entries.length + 1))

end Entries

/-- The key used in front of the number when nothing else is asked for. -/
def defaultFreshKeyPrefix : String := "newProperty"

end FilterEditor
