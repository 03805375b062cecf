import FilterEditor.Mutation.Rebase
import FilterEditor.Proofs.Container
import FilterEditor.Proofs.FreshKey

/-!
# A rebased path still leads somewhere

`Mutation.rebase` never sees a tree.  It renumbers the selector right below the container of the
mutation (`rebase_below`) and leaves every other path alone (`rebase_apart`).  The rules of
`Mutation.Acts` move the children of the container in the same way (`Acts.step?_follow`), so the path
goes on to lead to what it led to before.

A place above the container or at it is another matter: the path stays, and the change shows inside
the place.  `Acts.walk?_rebase` says which of the two it is.  None of this asks anything of the tree,
not even that the keys of an object are distinct.
-/

namespace FilterEditor

namespace Path

variable {f : Selector → Selector} {c s : Path} {last : Selector}

/-- The path runs through a place, or it does not go on below it. -/
theorem below_or_apart (c s : Path) :
    (∃ x rest, s = c ++ x :: rest) ∨ ∀ x rest, s ≠ c ++ x :: rest := by
  by_cases h : ∃ x rest, s = c ++ x :: rest
  · exact Or.inl h
  · exact Or.inr fun x rest hs => h ⟨x, rest, hs⟩

theorem mapBelow_append (f : Selector → Selector) (c : Path) (x : Selector) (rest : Path) :
    mapBelow f c (c ++ x :: rest) = c ++ f x :: rest := by
  induction c with
  | nil => rfl
  | cons a c ih => rw [List.cons_append, mapBelow, if_pos rfl, ih]; rfl

theorem mapBelow_apart (h : ∀ x rest, s ≠ c ++ x :: rest) : mapBelow f c s = s := by
  induction c generalizing s with
  | nil =>
    cases s with
    | nil => rfl
    | cons x rest => exact absurd rfl (h x rest)
  | cons a c ih =>
    cases s with
    | nil => rfl
    | cons x rest =>
      rw [mapBelow]
      split
      next hax =>
        subst hax
        rw [ih fun y tail hs => h y tail (congrArg (a :: ·) hs)]
      next => rfl

theorem concat_prefix_append {x : Selector} {rest : Path} :
    c ++ [last] <+: c ++ x :: rest ↔ x = last := by
  rw [List.prefix_append_right_inj, List.cons_prefix_cons]
  exact ⟨fun h => h.1.symm, fun h => ⟨h.symm, List.nil_prefix⟩⟩

theorem not_prefix_of_apart (h : ∀ x rest, s ≠ c ++ x :: rest) (hway : ¬ s <+: c) : ¬ c <+: s := by
  rintro ⟨rest, rfl⟩
  cases rest with
  | nil =>
    rw [List.append_nil] at hway
    exact hway List.prefix_rfl
  | cons x rest => exact h x rest rfl

theorem not_concat_prefix (h : ∀ x rest, s ≠ c ++ x :: rest) : ¬ c ++ [last] <+: s := by
  rintro ⟨rest, hs⟩
  exact h last rest (by rw [← hs, List.append_assoc]; rfl)

end Path

namespace Mutation

/-! ## What rebase does -/

/-- Where the child of the container under a selector is afterwards, or nothing if it is gone. -/
def follow : Mutation → Selector → Option Selector
  | setFilterValue _ _, x | appendBranch _, x => some x
  | insertSibling path _, x =>
    match path.getLast? with
    | none => some x.next
    | some last => some (last.shiftUp x)
  | removeNode path, x | removeBranch path, x =>
    match path.getLast? with
    | none => some x
    | some last => if x = last then none else some (last.shiftDown x)
  | addProperty _ key, x => if x = .key key then none else some x
  | renameProperty path newKey, x =>
    match path.getLast? with
    | none => some x
    | some last => some (if x = last then .key newKey else x)

theorem rebase_removal_below (path : Path) (x : Selector) (rest : Path) :
    (removeNode path).rebase (path.dropLast ++ x :: rest) =
      ((removeNode path).follow x).map fun y => path.dropLast ++ y :: rest := by
  rcases path.eq_nil_or_concat with rfl | ⟨parent, last, rfl⟩
  · rfl
  · simp only [rebase, follow, Path.split?_concat, List.dropLast_concat, List.getLast?_concat,
      Path.mapBelow_append, Path.concat_prefix_append]
    split <;> rfl

theorem rebase_removal_apart {path s : Path} (h : ∀ x rest, s ≠ path.dropLast ++ x :: rest) :
    (removeNode path).rebase s = some s := by
  rcases path.eq_nil_or_concat with rfl | ⟨parent, last, rfl⟩
  · rfl
  · rw [List.dropLast_concat] at h
    simp only [rebase, Path.split?_concat, Path.mapBelow_apart h, if_neg (Path.not_concat_prefix h)]

theorem rebase_below (m : Mutation) (x : Selector) (rest : Path) :
    m.rebase (m.container ++ x :: rest) =
      (m.follow x).map fun y => m.container ++ y :: rest := by
  cases m with
  | setFilterValue path value => rfl
  | appendBranch path => rfl
  | addProperty path key =>
    simp only [rebase, container, follow, Path.concat_prefix_append]
    split <;> rfl
  | insertSibling path kind =>
    rcases path.eq_nil_or_concat with rfl | ⟨parent, last, rfl⟩
    · rfl
    · simp only [rebase, container, follow, Path.split?_concat, List.dropLast_concat,
        List.getLast?_concat, Path.mapBelow_append]
      rfl
  | removeNode path => exact rebase_removal_below path x rest
  | removeBranch path => exact rebase_removal_below path x rest
  | renameProperty path newKey =>
    rcases path.eq_nil_or_concat with rfl | ⟨parent, last, rfl⟩
    · rfl
    · simp only [rebase, container, follow, Path.split?_concat, List.dropLast_concat,
        List.getLast?_concat, Path.mapBelow_append, Path.concat_prefix_append]
      split <;> rfl

theorem rebase_apart {m : Mutation} {s : Path} (h : ∀ x rest, s ≠ m.container ++ x :: rest) :
    m.rebase s = some s := by
  cases m with
  | setFilterValue path value => rfl
  | appendBranch path => rfl
  | addProperty path key => exact if_neg (Path.not_concat_prefix h)
  | insertSibling path kind =>
    rcases path.eq_nil_or_concat with rfl | ⟨parent, last, rfl⟩
    · exact congrArg some (Path.mapBelow_apart h)
    · rw [container, List.dropLast_concat] at h
      simp only [rebase, Path.split?_concat, Path.mapBelow_apart h]
  | removeNode path => exact rebase_removal_apart h
  | removeBranch path => exact rebase_removal_apart h
  | renameProperty path newKey =>
    rcases path.eq_nil_or_concat with rfl | ⟨parent, last, rfl⟩
    · rfl
    · rw [container, List.dropLast_concat] at h
      simp only [rebase, Path.split?_concat, if_neg (Path.not_concat_prefix h)]

end Mutation

/-! ## What the rules do to the children -/

section Lists

variable {α : Type} {l : List α} {i j : Nat} {a v : α}

theorem getElem?_insertAfter (h : l[j]? = some v) :
    (insertAfter i a l)[if i < j then j + 1 else j]? = some v := by
  have hj : j < l.length := (List.getElem?_eq_some_iff.mp h).1
  rw [insertAfter, insertionPoint]
  split
  · rw [List.getElem?_insertIdx_of_gt (by omega), Nat.add_sub_cancel, h]
  · rw [List.getElem?_insertIdx_of_lt (by omega), h]

theorem getElem?_eraseIdx_of_ne (h : l[j]? = some v) (hne : j ≠ i) :
    (l.eraseIdx i)[if i < j then j - 1 else j]? = some v := by
  split
  · rw [List.getElem?_eraseIdx_of_ge (by omega), Nat.sub_add_cancel (by omega), h]
  · rw [List.getElem?_eraseIdx_of_lt (by omega), h]

end Lists

namespace Entries

variable {α : Type} {entries : Entries α} {key newKey k : String}

theorem get?_rename_self (hnew : key = newKey ∨ newKey ∉ keys entries) :
    get? newKey (rename key newKey entries) = get? key entries := by
  induction entries with
  | nil => rfl
  | cons entry rest ih =>
    obtain ⟨l, v⟩ := entry
    rw [rename]
    by_cases hl : l = key
    · rw [if_pos hl, get?, get?, if_pos rfl, if_pos hl]
    · rw [if_neg hl, get?, get?, if_neg hl]
      rcases hnew with rfl | hnew
      · rw [if_neg hl, ih (Or.inl rfl)]
      · rw [keys_cons, List.mem_cons, not_or] at hnew
        rw [if_neg fun heq => hnew.1 heq.symm, ih (Or.inr hnew.2)]

theorem get?_rename_of_ne (hk : k ≠ key) (hk' : k ≠ newKey) :
    get? k (rename key newKey entries) = get? k entries := by
  induction entries with
  | nil => rfl
  | cons entry rest ih =>
    obtain ⟨l, v⟩ := entry
    rw [rename]
    by_cases hl : l = key
    · rw [if_pos hl, get?, get?, if_neg (Ne.symm hk'), if_neg fun heq => hk (heq.symm.trans hl)]
    · rw [if_neg hl, get?, get?, ih]

end Entries

namespace Mutation

variable {stem : String} {m : Mutation} {u u' v : Target} {x y : Selector}

/-- **The rules move the children as `follow` says.** -/
theorem Acts.step?_follow (h : m.Acts stem u u') (hx : u.step? x = some v)
    (hy : m.follow x = some y) : u'.step? y = some v := by
  cases h with
  | setFilterValue => cases Target.step?_eq_some_iff.mp hx
  | insertFront =>
    cases Target.step?_eq_some_iff.mp hx with
    | index hn =>
      cases hy
      simp [Selector.next, Target.step?, hn]
  | insertNode hl =>
    cases Target.step?_eq_some_iff.mp hx with
    | index hn =>
      rw [follow, hl] at hy
      obtain rfl := Option.some.inj hy
      rw [Selector.shiftUp, ← apply_ite Selector.index]
      simp [Target.step?, getElem?_insertAfter hn]
  | insertBranch hl =>
    cases Target.step?_eq_some_iff.mp hx with
    | branch hq =>
      rw [follow, hl] at hy
      obtain rfl := Option.some.inj hy
      rw [Selector.shiftUp, ← apply_ite Selector.branch]
      simp [Target.step?, getElem?_insertAfter hq]
  | @insertEntry path kind k entries hl =>
    cases Target.step?_eq_some_iff.mp hx with
    | @key _ l q hq =>
      rw [follow, hl] at hy
      obtain rfl := Option.some.inj hy
      have hne : Entries.freshKey entries stem ≠ l := fun heq =>
        Entries.freshKey_not_mem entries stem (heq ▸ Entries.mem_keys_of_get? hq)
      simp [Selector.shiftUp, Target.step?, Entries.get?_put, hne, hq]
  | appendBranch =>
    cases Target.step?_eq_some_iff.mp hx with
    | branch hq =>
      cases hy
      have hb := (List.getElem?_eq_some_iff.mp hq).1
      simp [Target.step?, List.getElem?_append_left hb, hq]
  | removeNode hl =>
    cases Target.step?_eq_some_iff.mp hx with
    | index hn =>
      simp only [follow, hl] at hy
      split at hy
      next => cases hy
      next hne =>
        obtain rfl := Option.some.inj hy
        rw [Selector.shiftDown, ← apply_ite Selector.index]
        simp [Target.step?, getElem?_eraseIdx_of_ne hn fun heq => hne (congrArg _ heq)]
  | removeItem hl =>
    cases Target.step?_eq_some_iff.mp hx with
    | branch hq =>
      simp only [follow, hl] at hy
      split at hy
      next => cases hy
      next hne =>
        obtain rfl := Option.some.inj hy
        rw [Selector.shiftDown, ← apply_ite Selector.branch]
        simp [Target.step?, getElem?_eraseIdx_of_ne hq fun heq => hne (congrArg _ heq)]
  | @removeEntry path k entries hl =>
    cases Target.step?_eq_some_iff.mp hx with
    | @key _ l q hq =>
      simp only [follow, hl] at hy
      split at hy
      next => cases hy
      next hne =>
        obtain rfl := Option.some.inj hy
        have hkl : k ≠ l := fun heq => hne (congrArg Selector.key heq.symm)
        simp [Selector.shiftDown, Target.step?, Entries.get?_erase_of_ne hkl, hq]
  | @addProperty path key entries =>
    cases Target.step?_eq_some_iff.mp hx with
    | @key _ l q hq =>
      simp only [follow] at hy
      split at hy
      next => cases hy
      next hne =>
        obtain rfl := Option.some.inj hy
        have hkl : key ≠ l := fun heq => hne (congrArg Selector.key heq.symm)
        simp [Target.step?, Entries.get?_put, hkl, hq]
  | @renameProperty path key newKey entries hl hne hnew hk =>
    cases Target.step?_eq_some_iff.mp hx with
    | @key _ l q hq =>
      rw [follow, hl] at hy
      obtain rfl := Option.some.inj hy
      by_cases hlk : l = key
      · subst hlk
        simp [Target.step?, Entries.get?_rename_self hnew, hq]
      · have hlnew : l ≠ newKey := by
          rintro rfl
          exact hnew.elim (fun heq => hlk heq.symm) fun hfree =>
            hfree (Entries.mem_keys_of_get? hq)
        simp [Target.step?, Selector.key.injEq, hlk, Entries.get?_rename_of_ne hlk hlnew, hq]

/-! ## The rebased path -/

variable {s : Path} {t : Target}

theorem length_rebase {p : Path} (hp : m.rebase s = some p) : p.length = s.length := by
  rcases Path.below_or_apart m.container s with ⟨x, rest, rfl⟩ | hapart
  · rw [rebase_below] at hp
    obtain ⟨y, -, rfl⟩ := Option.map_eq_some_iff.mp hp
    simp
  · rw [rebase_apart hapart] at hp
    rw [Option.some.inj hp]

theorem rebase_ne_nil {p : Path} (hp : m.rebase s = some p) (hs : s ≠ []) : p ≠ [] := by
  have hlen := length_rebase hp
  rw [← List.length_pos_iff] at hs ⊢
  omega

/-- Where a rebased path leads: to the place itself or, when the place is on the way to the
container, to the place with the changed container in it. -/
theorem Acts.walk?_rebase {root : Target} {p : Path} (h : m.Acts stem u u')
    (hu : root.walk? m.container = some u) (ht : root.walk? s = some t)
    (hp : m.rebase s = some p) :
    (¬ s <+: m.container ∧ (root.write m.container u').walk? p = some t) ∨
      ∃ q, m.container = s ++ q ∧ t.walk? q = some u ∧
        (root.write m.container u').walk? p = some (t.write q u') := by
  rcases Path.below_or_apart m.container s with ⟨x, rest, rfl⟩ | hapart
  · -- below the container: the selector under it is followed
    rw [rebase_below] at hp
    obtain ⟨y, hy, rfl⟩ := Option.map_eq_some_iff.mp hp
    rw [Target.walk?_append, hu, Option.bind_some] at ht
    obtain ⟨v, hx, hrest⟩ := Target.walk?_cons_eq_some.mp ht
    refine Or.inl ⟨fun hway => ?_, ?_⟩
    · have hlen := hway.length_le
      rw [List.length_append, List.length_cons] at hlen
      omega
    · rw [Target.walk?_write_append hu h.isNode_eq, Target.walk?_cons, h.step?_follow hx hy]
      exact hrest
  · obtain rfl := Option.some.inj ((rebase_apart hapart).symm.trans hp)
    by_cases hway : s <+: m.container
    · -- on the way to the container: the change shows inside the place
      obtain ⟨q, hq⟩ := hway
      rw [← hq, Target.walk?_append, ht, Option.bind_some] at hu
      refine Or.inr ⟨q, hq.symm, hu, ?_⟩
      rw [← hq, Target.write_append ht]
      exact Target.walk?_write_self ht (Target.isNode_write hu h.isNode_eq)
    · -- off the way: nothing has changed there
      refine Or.inl ⟨hway, ?_⟩
      rw [Target.walk?_write_apart hu h.isNode_eq (Path.not_prefix_of_apart hapart hway) hway]
      exact ht

/-- After a mutation has applied, a rebased path still leads somewhere. -/
theorem resolve?_rebase_isSome {root root' : Pipeline} {p : Path}
    (happly : m.applyWith stem root = .ok root') (ht : (root.resolve? s).isSome)
    (hp : m.rebase s = some p) : (root'.resolve? p).isSome := by
  obtain ⟨u, u', hu, hacts, hw⟩ := applyWith_eq_ok_iff.mp happly
  obtain ⟨t, ht⟩ := Option.isSome_iff_exists.mp ht
  rw [Pipeline.resolve?] at hu ht
  rw [Pipeline.resolve?, ← hw]
  rcases hacts.walk?_rebase hu ht hp with ⟨-, hwalk⟩ | ⟨q, -, -, hwalk⟩
  · rw [hwalk]
    rfl
  · rw [hwalk]
    rfl

end Mutation

end FilterEditor
