import FilterEditor.Proofs.ObjectKeys
import FilterEditor.Proofs.Rebase

/-!
# Addresses before and after a mutation

The addresses of a tree are the paths of its places, the root left out.  A mutation takes the places
that stay to their places afterwards, and it must do so without loss: no two of them come to stand
at one address, and every address afterwards is that of such a place, or it is at or below the one
place that the mutation has created.

This is a matter of one container.  There `Mutation.follow` says where the children go and
`Mutation.newChild?` which child is new.  `follow` takes no two children to one
(`Acts.follow_injective`), the new child is none of those that it reaches, and all the others are
(`Acts.exists_follow_iff`).  Away from the container the addresses are the same.

That all the others are reached is where the keys of an object have to be distinct: of two entries
under one key, a removal would leave the second.
-/

namespace FilterEditor

/-! ## Positions and keys -/

section Lists

variable {α : Type} {l : List α} {i j : Nat} {a v : α}

/-- What stands in a list after an insertion has stood there before or has been inserted. -/
theorem getElem?_insertAfter_cases (h : (insertAfter i a l)[j]? = some v) :
    j = insertionPoint i l.length ∨
      ∃ k, l[k]? = some v ∧ (if i < k then k + 1 else k) = j := by
  have hpoint : insertionPoint i l.length = min (i + 1) l.length := rfl
  rw [insertAfter] at h
  rcases Nat.lt_trichotomy j (insertionPoint i l.length) with hlt | heq | hgt
  · rw [List.getElem?_insertIdx_of_lt hlt] at h
    exact Or.inr ⟨j, h, if_neg (by omega)⟩
  · exact Or.inl heq
  · rw [List.getElem?_insertIdx_of_gt hgt] at h
    have hlength := (List.getElem?_eq_some_iff.mp h).1
    refine Or.inr ⟨j - 1, h, ?_⟩
    rw [if_pos (by omega)]
    omega

theorem getElem?_insertAfter_self (i : Nat) (a : α) (l : List α) :
    (insertAfter i a l)[insertionPoint i l.length]? = some a := by
  have hle : insertionPoint i l.length ≤ l.length := Nat.min_le_right _ _
  rw [insertAfter, List.getElem?_insertIdx_self, if_pos hle]

theorem insertionPoint_ne {k length : Nat} (h : k < length) :
    insertionPoint i length ≠ if i < k then k + 1 else k := by
  rw [insertionPoint]
  split <;> omega

theorem getElem?_eraseIdx_cases (h : (l.eraseIdx i)[j]? = some v) :
    ∃ k, k ≠ i ∧ l[k]? = some v ∧ (if i < k then k - 1 else k) = j := by
  by_cases hj : j < i
  · rw [List.getElem?_eraseIdx_of_lt hj] at h
    exact ⟨j, by omega, h, if_neg (by omega)⟩
  · rw [List.getElem?_eraseIdx_of_ge (by omega)] at h
    refine ⟨j + 1, by omega, h, ?_⟩
    rw [if_pos (by omega)]
    omega

end Lists

namespace Selector

theorem next_injective {x y : Selector} (h : x.next = y.next) : x = y := by
  cases x <;> cases y <;> simp_all [next]

theorem shiftUp_injective {place x y : Selector} (h : place.shiftUp x = place.shiftUp y) :
    x = y := by
  cases x <;> cases y <;> cases place <;> grind [shiftUp]

theorem shiftDown_injective {place x y : Selector} (hx : x ≠ place) (hy : y ≠ place)
    (h : place.shiftDown x = place.shiftDown y) : x = y := by
  cases x <;> cases y <;> cases place <;> grind [shiftDown]

end Selector

namespace Entries

variable {α : Type} {entries : Entries α} {key newKey k : String} {value : α}

theorem ne_of_get?_erase (hkeys : (keys entries).Nodup)
    (h : get? k (erase key entries) = some value) : k ≠ key := by
  rintro rfl
  have hmem := mem_keys_of_get? h
  rw [keys_erase] at hmem
  exact hkeys.not_mem_erase hmem

theorem ne_of_get?_rename (hkeys : (keys entries).Nodup) (hne : key ≠ newKey)
    (h : get? k (rename key newKey entries) = some value) : k ≠ key := by
  rintro rfl
  induction entries with
  | nil => cases h
  | cons entry rest ih =>
    obtain ⟨l, v⟩ := entry
    obtain ⟨hl, hrest⟩ := List.nodup_cons.mp hkeys
    by_cases hlk : l = k
    · subst hlk
      rw [rename, if_pos rfl, get?, if_neg (Ne.symm hne)] at h
      exact hl (mem_keys_of_get? h)
    · rw [rename, if_neg hlk, get?, if_neg hlk] at h
      exact ih hrest h

end Entries

/-! ## The children of the container -/

namespace Mutation

variable {stem : String} {m : Mutation} {u u' v v' w : Target} {x x' y : Selector}

/-- The selector under which a mutation puts something new into its container. -/
def newChild? (stem : String) : Mutation → Target → Option Selector
  | insertSibling path _, u =>
    match path.getLast?, u with
    | none, _ => some (.index 0)
    | some (.index i), .pipeline p => some (.index (insertionPoint i p.length))
    | some (.branch b), .node (.array branches) =>
      some (.branch (insertionPoint b branches.length))
    | some (.key _), .node (.object entries) => some (.key (Entries.freshKey entries stem))
    | _, _ => none
  | appendBranch _, .node (.array branches) => some (.branch branches.length)
  | addProperty _ key, .node (.object _) => some (.key key)
  | appendBranch _, _ | addProperty .., _ => none
  | setFilterValue .., _ | removeNode _, _ | removeBranch _, _ | renameProperty .., _ => none

/-- No two children come to stand under one selector. -/
theorem Acts.follow_injective (h : m.Acts stem u u') (hx : u.Child x v) (hx' : u.Child x' v')
    (hy : m.follow x = some y) (hy' : m.follow x' = some y) : x = x' := by
  have hremoval : ∀ path, (Mutation.removeNode path).follow x = some y →
      (Mutation.removeNode path).follow x' = some y → x = x' := by
    intro path hy hy'
    rw [follow] at hy hy'
    cases hl : path.getLast? with
    | none =>
      rw [hl] at hy hy'
      exact Option.some.inj (hy.trans hy'.symm)
    | some last =>
      rw [hl] at hy hy'
      simp only [Option.ite_none_left_eq_some, Option.some.injEq] at hy hy'
      exact Selector.shiftDown_injective hy.1 hy'.1 (hy.2.trans hy'.2.symm)
  cases m with
  | setFilterValue path value => exact Option.some.inj (hy.trans hy'.symm)
  | appendBranch path => exact Option.some.inj (hy.trans hy'.symm)
  | insertSibling path kind =>
    rw [follow] at hy hy'
    cases hl : path.getLast? with
    | none =>
      rw [hl] at hy hy'
      exact Selector.next_injective (Option.some.inj (hy.trans hy'.symm))
    | some last =>
      rw [hl] at hy hy'
      exact Selector.shiftUp_injective (Option.some.inj (hy.trans hy'.symm))
  | removeNode path => exact hremoval path hy hy'
  | removeBranch path => exact hremoval path hy hy'
  | addProperty path key =>
    simp only [follow, Option.ite_none_left_eq_some, Option.some.injEq] at hy hy'
    exact hy.2.trans hy'.2.symm
  | renameProperty path newKey =>
    cases h with
    | @renameProperty _ key _ entries hl _ hnew _ =>
      -- only a child under the new key could be met, and there is none beside the renamed one
      have hfree : ∀ {z : Selector} {w : Target}, (Target.node (.object entries)).Child z w →
          z = .key newKey → z = .key key := by
        intro z w hz heq
        cases hz with
        | key hq =>
          obtain rfl := Selector.key.inj heq
          rcases hnew with hsame | hfree
          · rw [hsame]
          · exact absurd (Entries.mem_keys_of_get? hq) hfree
      rw [follow, hl] at hy hy'
      have hboth := Option.some.inj (hy.trans hy'.symm)
      by_cases hxk : x = .key key
      · by_cases hxk' : x' = .key key
        · rw [hxk, hxk']
        · rw [if_pos hxk, if_neg hxk'] at hboth
          exact absurd (hfree hx' hboth.symm) hxk'
      · by_cases hxk' : x' = .key key
        · rw [if_neg hxk, if_pos hxk'] at hboth
          exact absurd (hfree hx hboth) hxk
        · rw [if_neg hxk, if_neg hxk'] at hboth
          exact hboth

theorem Acts.newChild?_ne_follow (h : m.Acts stem u u') (hx : u.Child x v)
    (hy : m.follow x = some y) : m.newChild? stem u ≠ some y := by
  intro hnew
  cases h with
  | setFilterValue => cases hnew
  | insertFront =>
    cases hx with
    | index hn =>
      cases hy
      cases hnew
  | insertNode hl =>
    cases hx with
    | index hn =>
      simp only [follow, hl, Selector.shiftUp, ← apply_ite Selector.index] at hy
      simp only [newChild?, hl] at hnew
      have heq := Selector.index.inj (Option.some.inj (hy.trans hnew.symm))
      exact insertionPoint_ne (List.getElem?_eq_some_iff.mp hn).1 heq.symm
  | insertBranch hl =>
    cases hx with
    | branch hq =>
      simp only [follow, hl, Selector.shiftUp, ← apply_ite Selector.branch] at hy
      simp only [newChild?, hl] at hnew
      have heq := Selector.branch.inj (Option.some.inj (hy.trans hnew.symm))
      exact insertionPoint_ne (List.getElem?_eq_some_iff.mp hq).1 heq.symm
  | @insertEntry path kind k entries hl =>
    cases hx with
    | @key _ l q hq =>
      simp only [follow, hl, Option.some.injEq] at hy
      simp only [newChild?, hl] at hnew
      rw [← hy] at hnew
      have hfresh := Selector.key.inj (Option.some.inj hnew)
      exact Entries.freshKey_not_mem entries stem (hfresh ▸ Entries.mem_keys_of_get? hq)
  | appendBranch =>
    cases hx with
    | branch hq =>
      cases hy
      have hlength := (List.getElem?_eq_some_iff.mp hq).1
      have heq := Selector.branch.inj (Option.some.inj hnew)
      omega
  | removeNode => cases hnew
  | removeItem => cases hnew
  | removeEntry => cases hnew
  | addProperty =>
    simp only [follow, Option.ite_none_left_eq_some, Option.some.injEq] at hy
    exact hy.1 (hy.2.trans (Option.some.inj hnew).symm)
  | renameProperty => cases hnew

theorem Acts.newChild?_or_exists_follow (h : m.Acts stem u u')
    (hkeys : ∀ entries, u = .node (.object entries) → (Entries.keys entries).Nodup)
    (hy : u'.Child y w) :
    m.newChild? stem u = some y ∨ ∃ x v, u.Child x v ∧ m.follow x = some y := by
  cases h with
  | setFilterValue => cases hy
  | insertFront =>
    cases hy with
    | @index _ j n hn =>
      cases j with
      | zero => exact Or.inl rfl
      | succ j =>
        rw [List.getElem?_cons_succ] at hn
        exact Or.inr ⟨.index j, .node n, .index hn, rfl⟩
  | insertNode hl =>
    cases hy with
    | index hn =>
      rcases getElem?_insertAfter_cases hn with rfl | ⟨k, hk, rfl⟩
      · exact Or.inl (by simp only [newChild?, hl])
      · refine Or.inr ⟨.index k, _, .index hk, ?_⟩
        simp only [follow, hl, Selector.shiftUp, apply_ite Selector.index]
  | insertBranch hl =>
    cases hy with
    | branch hq =>
      rcases getElem?_insertAfter_cases hq with rfl | ⟨k, hk, rfl⟩
      · exact Or.inl (by simp only [newChild?, hl])
      · refine Or.inr ⟨.branch k, _, .branch hk, ?_⟩
        simp only [follow, hl, Selector.shiftUp, apply_ite Selector.branch]
  | @insertEntry path kind k entries hl =>
    cases hy with
    | @key _ l q hq =>
      rw [Entries.get?_put] at hq
      split at hq
      next heq => exact Or.inl (by simp only [newChild?, hl, heq])
      next => exact Or.inr ⟨.key l, _, .key hq, by rw [follow, hl]; rfl⟩
  | @appendBranch path branches =>
    cases hy with
    | @branch _ b q hq =>
      rcases Nat.lt_or_ge b branches.length with hlt | hge
      · rw [List.getElem?_append_left hlt] at hq
        exact Or.inr ⟨.branch b, _, .branch hq, rfl⟩
      · have hlength := (List.getElem?_eq_some_iff.mp hq).1
        rw [List.length_append, List.length_singleton] at hlength
        obtain rfl : b = branches.length := by omega
        exact Or.inl rfl
  | removeNode hl =>
    cases hy with
    | index hn =>
      obtain ⟨k, hne, hk, rfl⟩ := getElem?_eraseIdx_cases hn
      refine Or.inr ⟨.index k, _, .index hk, ?_⟩
      simp only [follow, hl, Selector.index.injEq, if_neg hne, Selector.shiftDown,
        apply_ite Selector.index]
  | removeItem hl =>
    cases hy with
    | branch hq =>
      obtain ⟨k, hne, hk, rfl⟩ := getElem?_eraseIdx_cases hq
      refine Or.inr ⟨.branch k, _, .branch hk, ?_⟩
      simp only [follow, hl, Selector.branch.injEq, if_neg hne, Selector.shiftDown,
        apply_ite Selector.branch]
  | @removeEntry path k entries hl =>
    cases hy with
    | @key _ l q hq =>
      have hne : l ≠ k := Entries.ne_of_get?_erase (hkeys entries rfl) hq
      rw [Entries.get?_erase_of_ne (Ne.symm hne)] at hq
      refine Or.inr ⟨.key l, _, .key hq, ?_⟩
      simp only [follow, hl, Selector.key.injEq, if_neg hne, Selector.shiftDown]
  | @addProperty path key entries =>
    cases hy with
    | @key _ l q hq =>
      rw [Entries.get?_put] at hq
      split at hq
      next heq => exact Or.inl (by rw [heq]; rfl)
      next hne =>
        refine Or.inr ⟨.key l, _, .key hq, if_neg ?_⟩
        exact fun heq => hne (Selector.key.inj heq).symm
  | @renameProperty path key newKey entries hl _ hnew hk =>
    cases hy with
    | @key _ l q hq =>
      by_cases hlnew : l = newKey
      · subst hlnew
        rw [Entries.get?_rename_self hnew] at hq
        exact Or.inr ⟨.key key, _, .key hq, by rw [follow, hl]; exact congrArg some (if_pos rfl)⟩
      · have hlk : l ≠ key := by
          by_cases hsame : key = newKey
          · rw [hsame]
            exact hlnew
          · exact Entries.ne_of_get?_rename (hkeys entries rfl) hsame hq
        rw [Entries.get?_rename_of_ne hlk hlnew] at hq
        refine Or.inr ⟨.key l, _, .key hq, ?_⟩
        simp only [follow, hl, Selector.key.injEq, if_neg hlk]

theorem Acts.exists_newChild (h : m.Acts stem u u') (hy : m.newChild? stem u = some y) :
    ∃ w, u'.Child y w := by
  cases h with
  | setFilterValue => cases hy
  | @insertFront kind p =>
    cases hy
    exact ⟨.node kind.blankNode, .index rfl⟩
  | @insertNode path kind i p hl =>
    simp only [newChild?, hl] at hy
    cases hy
    exact ⟨_, .index (getElem?_insertAfter_self i kind.blankNode p)⟩
  | @insertBranch path kind b branches hl =>
    simp only [newChild?, hl] at hy
    cases hy
    exact ⟨_, .branch (getElem?_insertAfter_self b [kind.blankNode] branches)⟩
  | @insertEntry path kind k entries hl =>
    simp only [newChild?, hl] at hy
    cases hy
    exact ⟨_, .key ((Entries.get?_put _ _ _ entries).trans (if_pos rfl))⟩
  | @appendBranch path branches =>
    cases hy
    exact ⟨_, .branch List.getElem?_concat_length⟩
  | removeNode => cases hy
  | removeItem => cases hy
  | removeEntry => cases hy
  | @addProperty path key entries =>
    cases hy
    exact ⟨_, .key ((Entries.get?_put _ _ _ entries).trans (if_pos rfl))⟩
  | renameProperty => cases hy

/-- **The children afterwards are the followed ones and the new one.** -/
theorem Acts.exists_follow_iff (h : m.Acts stem u u')
    (hkeys : ∀ entries, u = .node (.object entries) → (Entries.keys entries).Nodup)
    (hy : u'.Child y w) :
    (∃ x v, u.Child x v ∧ m.follow x = some y) ↔ m.newChild? stem u ≠ some y := by
  constructor
  · rintro ⟨x, v, hx, hfollow⟩
    exact h.newChild?_ne_follow hx hfollow
  · intro hold
    rcases h.newChild?_or_exists_follow hkeys hy with hnew | hchild
    · exact absurd hnew hold
    · exact hchild

end Mutation

/-! ## Addresses -/

/-- The path leads to a place that is not the whole tree. -/
def Pipeline.IsAddress (root : Pipeline) (path : Path) : Prop :=
  path ≠ [] ∧ (root.resolve? path).isSome

instance (root : Pipeline) (path : Path) : Decidable (root.IsAddress path) :=
  inferInstanceAs (Decidable (_ ∧ _))

theorem Pipeline.KeysDistinct.nodup_keys {root : Pipeline} {path : Path} {entries : Entries Pipeline}
    (h : root.KeysDistinct) (hpath : root.resolve? path = some (.node (.object entries))) :
    (Entries.keys entries).Nodup := by
  have htree : (Target.pipeline root).AllKeys List.Nodup := h
  exact (Target.allKeys_object.mp (htree.walk hpath)).1

theorem Target.exists_child_of_walk? {t u : Target} {c rest : Path} {x : Selector}
    (hu : t.walk? c = some u) (h : (t.walk? (c ++ x :: rest)).isSome) :
    ∃ v, u.Child x v ∧ (v.walk? rest).isSome := by
  rw [walk?_append, hu, Option.bind_some] at h
  obtain ⟨t', ht'⟩ := Option.isSome_iff_exists.mp h
  obtain ⟨v, hv, hrest⟩ := walk?_cons_eq_some.mp ht'
  refine ⟨v, step?_eq_some_iff.mp hv, ?_⟩
  rw [hrest]
  rfl

namespace Mutation

variable {stem : String} {m : Mutation} {u u' : Target} {root root' : Pipeline} {s s' p : Path}

/-- The place that a mutation creates in a tree, if it creates one. -/
def created? (stem : String) (m : Mutation) (root : Pipeline) : Option Path :=
  (root.resolve? m.container).bind fun u =>
    (m.newChild? stem u).map fun x => m.container ++ [x]

theorem created?_eq_some_iff (hu : root.resolve? m.container = some u) {c : Path} :
    m.created? stem root = some c ↔ ∃ x, m.newChild? stem u = some x ∧ m.container ++ [x] = c := by
  rw [created?, hu, Option.bind_some, Option.map_eq_some_iff]

theorem exists_follow_of_rebase {y : Selector} {rest : Path}
    (hp : m.rebase s = some (m.container ++ y :: rest)) :
    ∃ x, s = m.container ++ x :: rest ∧ m.follow x = some y := by
  rcases Path.below_or_apart m.container s with ⟨x, tail, rfl⟩ | hapart
  · rw [rebase_below] at hp
    obtain ⟨z, hz, heq⟩ := Option.map_eq_some_iff.mp hp
    obtain ⟨rfl, rfl⟩ := List.cons.inj (List.append_cancel_left heq)
    exact ⟨x, rfl, hz⟩
  · rw [rebase_apart hapart] at hp
    exact absurd (Option.some.inj hp) (hapart y rest)

theorem eq_of_rebase_apart (hapart : ∀ x rest, p ≠ m.container ++ x :: rest)
    (hp : m.rebase s = some p) : s = p := by
  rcases Path.below_or_apart m.container s with ⟨x, rest, rfl⟩ | hs
  · rw [rebase_below] at hp
    obtain ⟨y, -, heq⟩ := Option.map_eq_some_iff.mp hp
    exact absurd heq.symm (hapart y rest)
  · exact Option.some.inj ((rebase_apart hs).symm.trans hp)

/-- **No two places are followed to one address.** -/
theorem Acts.rebase_injective (h : m.Acts stem u u') (hu : root.resolve? m.container = some u)
    (hs : (root.resolve? s).isSome) (hs' : (root.resolve? s').isSome)
    (hp : m.rebase s = some p) (hp' : m.rebase s' = some p) : s = s' := by
  rcases Path.below_or_apart m.container p with ⟨y, rest, rfl⟩ | hapart
  · obtain ⟨x, rfl, hx⟩ := exists_follow_of_rebase hp
    obtain ⟨x', rfl, hx'⟩ := exists_follow_of_rebase hp'
    obtain ⟨v, hv, -⟩ := Target.exists_child_of_walk? hu hs
    obtain ⟨v', hv', -⟩ := Target.exists_child_of_walk? hu hs'
    rw [h.follow_injective hv hv' hx hx']
  · rw [eq_of_rebase_apart hapart hp, eq_of_rebase_apart hapart hp']

/-- Away from the container a mutation makes no addresses. -/
theorem Acts.resolve?_isSome_of_apart (h : m.Acts stem u u')
    (hu : root.resolve? m.container = some u)
    (hw : (Target.pipeline root).write m.container u' = .pipeline root')
    (hapart : ∀ x rest, p ≠ m.container ++ x :: rest) (hres : (root'.resolve? p).isSome) :
    (root.resolve? p).isSome := by
  rw [Pipeline.resolve?] at hu hres ⊢
  by_cases hway : p <+: m.container
  · obtain ⟨q, hq⟩ := hway
    rw [← hq, Target.walk?_append] at hu
    obtain ⟨t, ht, -⟩ := Option.bind_eq_some_iff.mp hu
    rw [ht]
    rfl
  · have hoff : ¬ m.container <+: p := Path.not_prefix_of_apart hapart hway
    rwa [← hw, Target.walk?_write_apart hu h.isNode_eq hoff hway] at hres

/-- **An address afterwards is one that a place is followed to, or it is at or below the place that
has been created.** -/
theorem Acts.exists_rebase_iff (h : m.Acts stem u u') (hu : root.resolve? m.container = some u)
    (hw : (Target.pipeline root).write m.container u' = .pipeline root')
    (hkeys : ∀ entries, u = .node (.object entries) → (Entries.keys entries).Nodup)
    (hres : (root'.resolve? p).isSome) :
    (∃ s, (root.resolve? s).isSome ∧ m.rebase s = some p) ↔
      ¬ ∃ c, m.created? stem root = some c ∧ c <+: p := by
  have hu' : root'.resolve? m.container = some u' := by
    rw [Pipeline.resolve?, ← hw]
    exact Target.walk?_write_self hu h.isNode_eq
  rcases Path.below_or_apart m.container p with ⟨y, rest, rfl⟩ | hapart
  · obtain ⟨w, hy, hrest⟩ := Target.exists_child_of_walk? hu' hres
    have hnew : (∃ c, m.created? stem root = some c ∧ c <+: m.container ++ y :: rest) ↔
        m.newChild? stem u = some y := by
      constructor
      · rintro ⟨c, hc, hprefix⟩
        obtain ⟨x, hx, rfl⟩ := (created?_eq_some_iff hu).mp hc
        rw [Path.concat_prefix_append.mp hprefix]
        exact hx
      · intro hy
        exact ⟨m.container ++ [y], (created?_eq_some_iff hu).mpr ⟨y, hy, rfl⟩,
          Path.concat_prefix_append.mpr rfl⟩
    rw [hnew, ← Ne, ← h.exists_follow_iff hkeys hy]
    constructor
    · rintro ⟨s, hs, hp⟩
      obtain ⟨x, rfl, hx⟩ := exists_follow_of_rebase hp
      obtain ⟨v, hv, -⟩ := Target.exists_child_of_walk? hu hs
      exact ⟨x, v, hv, hx⟩
    · rintro ⟨x, v, hv, hx⟩
      have hstep := Target.step?_eq_some_iff.mpr hv
      have hsame : v = w := by
        have hfollowed := h.step?_follow hstep hx
        rw [Target.step?_eq_some_iff.mpr hy] at hfollowed
        exact (Option.some.inj hfollowed).symm
      refine ⟨m.container ++ x :: rest, ?_, ?_⟩
      · rw [Pipeline.resolve?, Target.walk?_append, show (Target.pipeline root).walk? m.container =
          some u from hu, Option.bind_some, Target.walk?_cons, hstep, Option.bind_some, hsame]
        exact hrest
      · rw [rebase_below, hx]
        rfl
  · refine iff_of_true ⟨p, h.resolve?_isSome_of_apart hu hw hapart hres, rebase_apart hapart⟩ ?_
    rintro ⟨c, hc, hprefix⟩
    obtain ⟨x, -, rfl⟩ := (created?_eq_some_iff hu).mp hc
    exact Path.not_concat_prefix hapart hprefix

theorem Acts.isAddress_created (h : m.Acts stem u u') (hu : root.resolve? m.container = some u)
    (hw : (Target.pipeline root).write m.container u' = .pipeline root') {c : Path}
    (hc : m.created? stem root = some c) : root'.IsAddress c := by
  obtain ⟨x, hx, rfl⟩ := (created?_eq_some_iff hu).mp hc
  obtain ⟨w, hchild⟩ := h.exists_newChild hx
  refine ⟨by simp, ?_⟩
  rw [Pipeline.resolve?, ← hw, Target.walk?_write_append hu h.isNode_eq, Target.walk?_cons,
    Target.step?_eq_some_iff.mpr hchild]
  rfl

/-- **No address is lost or duplicated.**  A mutation that applies takes addresses to addresses and
no two to one.  An address afterwards is that of a place which has been there, or else it is at or
below the one place that has been created, which is there. -/
theorem addresses_correspond (hkeys : root.KeysDistinct)
    (happly : m.applyWith stem root = .ok root') :
    (∀ s p, root.IsAddress s → m.rebase s = some p → root'.IsAddress p) ∧
    (∀ s s' p, root.IsAddress s → root.IsAddress s' →
      m.rebase s = some p → m.rebase s' = some p → s = s') ∧
    (∀ p, root'.IsAddress p → ((∃ s, root.IsAddress s ∧ m.rebase s = some p) ↔
      ¬ ∃ c, m.created? stem root = some c ∧ c <+: p)) ∧
    ∀ c, m.created? stem root = some c → root'.IsAddress c := by
  obtain ⟨u, u', hu, hacts, hw⟩ := applyWith_eq_ok_iff.mp happly
  refine ⟨?_, ?_, ?_, fun c hc => hacts.isAddress_created hu hw hc⟩
  · rintro s p ⟨hne, hs⟩ hp
    exact ⟨rebase_ne_nil hp hne, resolve?_rebase_isSome happly hs hp⟩
  · rintro s s' p ⟨-, hs⟩ ⟨-, hs'⟩ hp hp'
    exact hacts.rebase_injective hu hs hs' hp hp'
  · rintro p ⟨hne, hres⟩
    have hdistinct : ∀ entries, u = .node (.object entries) → (Entries.keys entries).Nodup := by
      rintro entries rfl
      exact hkeys.nodup_keys hu
    rw [← hacts.exists_rebase_iff hu hw hdistinct hres]
    constructor
    · rintro ⟨s, ⟨-, hs⟩, hp⟩
      exact ⟨s, hs, hp⟩
    · rintro ⟨s, hs, hp⟩
      refine ⟨s, ⟨?_, hs⟩, hp⟩
      rintro rfl
      exact hne (List.eq_nil_of_length_eq_zero (length_rebase hp))

/-- An entry is put over another: what stands at its address is new, and nothing else is. -/
theorem addresses_correspond_overwritten :
    let root : Pipeline :=
      [.object [("a", [.filter ".x", .filter ".y"]), ("b", [.array [[], [.filter "."]]])]]
    let root' : Pipeline := [.object [("a", [.filter ""]), ("b", [.array [[], [.filter "."]]])]]
    let m : Mutation := .addProperty [.index 0] "a"
    root.KeysDistinct ∧ m.applyWith "" root = .ok root' ∧
      m.created? "" root = some [.index 0, .key "a"] ∧
      (¬ ∃ s, root.IsAddress s ∧ m.rebase s = some [.index 0, .key "a", .index 0]) ∧
      ∃ s, root.IsAddress s ∧ m.rebase s = some [.index 0, .key "b", .index 0, .branch 1] := by
  intro root root' m
  have hkeys : root.KeysDistinct := by decide
  have happly : m.applyWith "" root = .ok root' := by rfl
  have hcreated : m.created? "" root = some [.index 0, .key "a"] := by decide
  obtain ⟨-, -, hcorrespond, -⟩ := addresses_correspond hkeys happly
  refine ⟨hkeys, happly, hcreated, ?_, ?_⟩
  · intro hold
    exact (hcorrespond _ (by decide)).mp hold ⟨_, hcreated, by decide⟩
  · refine (hcorrespond _ (by decide)).mpr ?_
    rintro ⟨c, hc, hprefix⟩
    obtain rfl := Option.some.inj (hcreated.symm.trans hc)
    exact absurd hprefix (by decide)

end Mutation

end FilterEditor
