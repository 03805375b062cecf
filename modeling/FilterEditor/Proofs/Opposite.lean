import FilterEditor.Proofs.Addresses
import FilterEditor.Proofs.Commute
import FilterEditor.Proofs.Fits

/-!
# Opposite mutations

What a mutation adds can be taken away again, a renamed entry gets its old key back, and a text its
old wording.  `Mutation.Opposite` names the mutation that does it: where the new element stands, under
which key, with which text.  `opposite_takes_back` says that the tree is then the one before, with
every entry in its place.

In the container this is one equation for each rule, of a list or of the entries.  From there to the
tree it is the same for all of them: the opposite looks at the same container, and of two writes at
one place the later counts.

There is one renaming without an opposite.  An object that was read can have an entry under the empty
key, and no renaming leads back to it: an empty key is refused.
-/

namespace FilterEditor

theorem eraseIdx_insertAfter {α : Type} (i : Nat) (a : α) (l : List α) :
    (insertAfter i a l).eraseIdx (insertionPoint i l.length) = l :=
  List.eraseIdx_insertIdx_self a

theorem insertionPoint_lt_length_insertAfter {α : Type} (i : Nat) (a : α) (l : List α) :
    insertionPoint i l.length < (insertAfter i a l).length :=
  (List.getElem?_eq_some_iff.mp (getElem?_insertAfter_self i a l)).1

namespace Entries

variable {α : Type} {entries : Entries α} {key newKey : String}

theorem mem_keys_put (key : String) (value : α) (entries : Entries α) :
    key ∈ keys (put key value entries) :=
  mem_keys_of_get? ((get?_put key key value entries).trans (if_pos rfl))

theorem erase_put_of_not_mem (h : key ∉ keys entries) (value : α) :
    erase key (put key value entries) = entries := by
  have hsplits : Splits (put key value entries) key entries value [] :=
    ⟨put_of_not_mem h value, h⟩
  rw [hsplits.erase_eq, List.append_nil]

theorem mem_keys_rename (hk : key ∈ keys entries) (hnew : key = newKey ∨ newKey ∉ keys entries) :
    newKey ∈ keys (rename key newKey entries) := by
  rw [← get?_isSome_iff, get?_rename_self hnew, get?_isSome_iff]
  exact hk

theorem eq_or_not_mem_keys_rename (hkeys : (keys entries).Nodup) :
    newKey = key ∨ key ∉ keys (rename key newKey entries) := by
  by_cases heq : newKey = key
  · exact Or.inl heq
  · refine Or.inr fun hmem => ?_
    obtain ⟨value, hvalue⟩ := Option.isSome_iff_exists.mp (get?_isSome_iff.mpr hmem)
    exact ne_of_get?_rename hkeys (Ne.symm heq) hvalue rfl

/-- A renamed entry stands where it stood, so it gets its old key back in its old place. -/
theorem rename_rename (hk : key ∈ keys entries) (hnew : key = newKey ∨ newKey ∉ keys entries) :
    rename newKey key (rename key newKey entries) = entries := by
  obtain ⟨before, value, behind, hsplits⟩ := exists_splits hk
  have hfirst : newKey ∉ keys before := by
    rcases hnew with rfl | hfree
    · exact hsplits.first
    · intro hmem
      rw [hsplits.eq, keys, List.map_append, List.mem_append] at hfree
      exact hfree (Or.inl hmem)
  have hback : Splits (rename key newKey entries) newKey before value behind :=
    ⟨hsplits.rename_eq newKey, hfirst⟩
  rw [hback.rename_eq, ← hsplits.eq]

end Entries

namespace Mutation

variable {stem : String} {m m' : Mutation} {root root' : Pipeline} {u u' : Target}

/-- The second mutation is meant to take back the first, made on the given tree. -/
inductive Opposite (stem : String) (root : Pipeline) : Mutation → Mutation → Prop
  | front {kind : Kind} : Opposite stem root (.insertSibling [] kind) (.removeNode [.index 0])
  | node {parent : Path} {i : Nat} {kind : Kind} {p : Pipeline} :
      root.resolve? parent = some (.pipeline p) →
      Opposite stem root (.insertSibling (parent ++ [.index i]) kind)
        (.removeNode (parent ++ [.index (min (i + 1) p.length)]))
  | item {parent : Path} {b : Nat} {kind : Kind} {branches : List Pipeline} :
      root.resolve? parent = some (.node (.array branches)) →
      Opposite stem root (.insertSibling (parent ++ [.branch b]) kind)
        (.removeBranch (parent ++ [.branch (min (b + 1) branches.length)]))
  | entry {parent : Path} {k : String} {kind : Kind} {entries : Entries Pipeline} :
      root.resolve? parent = some (.node (.object entries)) →
      Opposite stem root (.insertSibling (parent ++ [.key k]) kind)
        (.removeBranch (parent ++ [.key (Entries.freshKey entries stem)]))
  | append {path : Path} {branches : List Pipeline} :
      root.resolve? path = some (.node (.array branches)) →
      Opposite stem root (.appendBranch path) (.removeBranch (path ++ [.branch branches.length]))
  | property {path : Path} {key : String} :
      root.resolve? (path ++ [.key key]) = none →
      Opposite stem root (.addProperty path key) (.removeBranch (path ++ [.key key]))
  | rename {parent : Path} {key newKey : String} :
      key ≠ "" →
      Opposite stem root (.renameProperty (parent ++ [.key key]) newKey)
        (.renameProperty (parent ++ [.key newKey]) key)
  | text {path : Path} {value old : String} :
      root.resolve? path = some (.node (.filter old)) →
      Opposite stem root (.setFilterValue path value) (.setFilterValue path old)

/-- The mutation neither takes anything out nor overwrites an entry, and it renames no entry under
the empty key. -/
def Reversible (m : Mutation) (root : Pipeline) : Prop :=
  match m with
  | setFilterValue .. | insertSibling .. | appendBranch _ => True
  | addProperty path key => root.resolve? (path ++ [.key key]) = none
  | renameProperty path _ => path.getLast? ≠ some (.key "")
  | removeNode _ | removeBranch _ => False

theorem Acts.exists_opposite (h : m.Acts stem u u') (hu : root.resolve? m.container = some u)
    (hm : m.Reversible root) : ∃ m', Opposite stem root m m' := by
  cases h with
  | setFilterValue => exact ⟨_, .text hu⟩
  | insertFront => exact ⟨_, .front⟩
  | insertNode hl =>
    obtain ⟨parent, rfl, hparent⟩ := Path.exists_parent hl hu
    exact ⟨_, .node hparent⟩
  | insertBranch hl =>
    obtain ⟨parent, rfl, hparent⟩ := Path.exists_parent hl hu
    exact ⟨_, .item hparent⟩
  | insertEntry hl =>
    obtain ⟨parent, rfl, hparent⟩ := Path.exists_parent hl hu
    exact ⟨_, .entry hparent⟩
  | appendBranch => exact ⟨_, .append hu⟩
  | removeNode => cases hm
  | removeItem => cases hm
  | removeEntry => cases hm
  | addProperty => exact ⟨_, .property hm⟩
  | renameProperty hl =>
    obtain ⟨parent, rfl, -⟩ := Path.exists_parent hl hu
    refine ⟨_, .rename ?_⟩
    rintro rfl
    exact hm hl

theorem Opposite.container_eq (h : Opposite stem root m m') : m'.container = m.container := by
  cases h <;> simp only [container, List.dropLast_concat]
  rfl

/-- **In the container the opposite leaves what the mutation has found there.** -/
theorem Opposite.acts (h : Opposite stem root m m') (hu : root.resolve? m.container = some u)
    (hacts : m.Acts stem u u')
    (hkeys : ∀ entries, u = .node (.object entries) → (Entries.keys entries).Nodup)
    (stem' : String) : m'.Acts stem' u' u := by
  cases h with
  | @front kind =>
    cases hu
    rw [hacts.unique .insertFront]
    exact .removeNode (p := kind.blankNode :: root) rfl (Nat.zero_lt_succ root.length)
  | @node parent i kind p hparent =>
    rw [container, List.dropLast_concat] at hu
    obtain rfl := Option.some.inj (hparent.symm.trans hu)
    rw [hacts.unique (.insertNode List.getLast?_concat)]
    refine (Acts.removeNode List.getLast?_concat ?_).of_eq ?_
    · exact insertionPoint_lt_length_insertAfter i kind.blankNode p
    · exact congrArg Target.pipeline (eraseIdx_insertAfter i kind.blankNode p)
  | @item parent b kind branches hparent =>
    rw [container, List.dropLast_concat] at hu
    obtain rfl := Option.some.inj (hparent.symm.trans hu)
    rw [hacts.unique (.insertBranch List.getLast?_concat)]
    refine (Acts.removeItem List.getLast?_concat ?_).of_eq ?_
    · exact insertionPoint_lt_length_insertAfter b [kind.blankNode] branches
    · exact congrArg (Target.node ∘ Node.array) (eraseIdx_insertAfter b [kind.blankNode] branches)
  | @entry parent k kind entries hparent =>
    rw [container, List.dropLast_concat] at hu
    obtain rfl := Option.some.inj (hparent.symm.trans hu)
    rw [hacts.unique (.insertEntry List.getLast?_concat)]
    refine (Acts.removeEntry List.getLast?_concat (Entries.mem_keys_put _ _ entries)).of_eq ?_
    exact congrArg (Target.node ∘ Node.object)
      (Entries.erase_put_of_not_mem (Entries.freshKey_not_mem entries stem) _)
  | @append path branches hpath =>
    obtain rfl := Option.some.inj (hpath.symm.trans hu)
    rw [hacts.unique .appendBranch]
    refine (Acts.removeItem List.getLast?_concat ?_).of_eq (congrArg (Target.node ∘ Node.array) ?_)
    · rw [List.length_append]
      exact Nat.lt_succ_self branches.length
    · rw [List.eraseIdx_append_of_length_le (Nat.le_refl _), Nat.sub_self]
      exact List.append_nil branches
  | @property path key hnone =>
    cases hacts with
    | @addProperty _ _ entries hkey =>
      have hnew := not_mem_keys_of_resolve?_eq_none hu hnone
      refine (Acts.removeEntry List.getLast?_concat (Entries.mem_keys_put _ _ entries)).of_eq ?_
      exact congrArg (Target.node ∘ Node.object) (Entries.erase_put_of_not_mem hnew _)
  | @rename parent key newKey hkey =>
    cases hacts with
    | @renameProperty _ _ _ entries hl hne hnew hk =>
      obtain rfl := Selector.key.inj (Path.eq_of_getLast?_concat hl)
      refine (Acts.renameProperty List.getLast?_concat hkey
        (Entries.eq_or_not_mem_keys_rename (hkeys entries rfl))
        (Entries.mem_keys_rename hk hnew)).of_eq ?_
      exact congrArg (Target.node ∘ Node.object) (Entries.rename_rename hk hnew)
  | text hpath =>
    obtain rfl := Option.some.inj (hpath.symm.trans hu)
    rw [hacts.unique .setFilterValue]
    exact .setFilterValue

/-- **What a mutation adds or changes, its opposite takes back.**  A mutation that loses nothing has
an opposite, and this applies after it and leaves the tree as it was. -/
theorem opposite_takes_back (hkeys : root.KeysDistinct)
    (happly : m.applyWith stem root = .ok root') :
    (m.Reversible root → ∃ m', Opposite stem root m m') ∧
      ∀ m' stem', Opposite stem root m m' → m'.applyWith stem' root' = .ok root := by
  obtain ⟨u, u', hu, hacts, hw⟩ := applyWith_eq_ok_iff.mp happly
  refine ⟨hacts.exists_opposite hu, fun m' stem' h => ?_⟩
  have hdistinct : ∀ entries, u = .node (.object entries) → (Entries.keys entries).Nodup := by
    rintro entries rfl
    exact hkeys.nodup_keys hu
  refine applyWith_eq_ok_iff.mpr ⟨u', u, ?_, h.acts hu hacts hdistinct stem', ?_⟩
  · rw [h.container_eq, Pipeline.resolve?, ← hw]
    exact Target.walk?_write_self hu hacts.isNode_eq
  · rw [h.container_eq, ← hw, Target.write_write hu hacts.isNode_eq rfl, Target.write_self hu]

/-- A node inserted far behind the end of a branch, and the first of three entries renamed. -/
theorem opposite_takes_back_nested :
    let root : Pipeline :=
      [.object [("a", [.filter ".x"]), ("b", []), ("", [.array [[.filter ".y", .filter ".z"]]])]]
    let branch : Path := [.index 0, .key "", .index 0, .branch 0]
    let inserted : Pipeline :=
      [.object [("a", [.filter ".x"]), ("b", []),
        ("", [.array [[.filter ".y", .filter ".z", .array []]]])]]
    let renamed : Pipeline :=
      [.object [("c", [.filter ".x"]), ("b", []), ("", [.array [[.filter ".y", .filter ".z"]]])]]
    root.KeysDistinct ∧
      (insertSibling (branch ++ [.index 9]) .array).applyWith "" root = .ok inserted ∧
      (removeNode (branch ++ [.index 2])).applyWith "" inserted = .ok root ∧
      (renameProperty [.index 0, .key "a"] "c").applyWith "" root = .ok renamed ∧
      (renameProperty [.index 0, .key "c"] "a").applyWith "" renamed = .ok root := by
  intro root branch inserted renamed
  have hkeys : root.KeysDistinct := by decide
  have hinserted : (insertSibling (branch ++ [.index 9]) .array).applyWith "" root = .ok inserted :=
    rfl
  have hrenamed : (renameProperty [.index 0, .key "a"] "c").applyWith "" root = .ok renamed := rfl
  have hbranch : root.resolve? branch = some (.pipeline [.filter ".y", .filter ".z"]) := by decide
  obtain ⟨-, htaken⟩ := opposite_takes_back hkeys hinserted
  obtain ⟨-, hback⟩ := opposite_takes_back hkeys hrenamed
  exact ⟨hkeys, hinserted, htaken _ "" (.node hbranch), hrenamed,
    hback _ "" (@Opposite.rename "" root [.index 0] "a" "c" (by decide))⟩

/-- An entry under the empty key can be renamed, and the way back is refused. -/
theorem empty_key_not_taken_back :
    let root : Pipeline := [.object [("", [.filter ".x"])]]
    let renamed : Pipeline := [.object [("a", [.filter ".x"])]]
    root.KeysDistinct ∧
      (renameProperty [.index 0, .key ""] "a").applyWith "" root = .ok renamed ∧
      (renameProperty [.index 0, .key "a"] "").applyWith "" renamed = .error .emptyKey := by
  intro root renamed
  exact ⟨by decide, rfl, rfl⟩

end Mutation

end FilterEditor
