import FilterEditor.Proofs.Framing
import FilterEditor.Proofs.Rebase

/-!
# A mutation commutes with a change elsewhere

A text is typed into a filter while the tree around it is edited.  It must not matter which comes
first: once the place of the filter is rebased, the change lands where it was meant to land, and not
on something that merely stands at the old path.

`Acts.put_follow` is this inside one container.  A rule of `Mutation.Acts` moves the children of the
container without looking at them, so a child may be exchanged before or after.  From there
`Acts.write_rebase` goes to the whole tree, where the changed place stands below the container or
apart from it.  A place on the way to the container is left out, and a filter is none: nothing
stands below it, and only a new text changes it.
-/

namespace FilterEditor

/-! ## Exchanging an element of a list -/

section Lists

variable {α : Type} {l : List α} {i j : Nat}

theorem set_insertIdx_of_lt (h : j < i) (a b : α) :
    (l.insertIdx i a).set j b = (l.set j b).insertIdx i a := by
  induction l generalizing i j with
  | nil => cases i <;> simp at h ⊢
  | cons c rest ih =>
    cases i with
    | zero => omega
    | succ i =>
      cases j with
      | zero => rfl
      | succ j =>
        rw [List.insertIdx_succ_cons, List.set_cons_succ, List.set_cons_succ,
          List.insertIdx_succ_cons, ih (by omega)]

theorem set_insertIdx_of_le (h : i ≤ j) (a b : α) :
    (l.insertIdx i a).set (j + 1) b = (l.set j b).insertIdx i a := by
  induction l generalizing i j with
  | nil => cases i <;> simp
  | cons c rest ih =>
    cases i with
    | zero => rfl
    | succ i =>
      cases j with
      | zero => omega
      | succ j =>
        rw [List.insertIdx_succ_cons, List.set_cons_succ, List.set_cons_succ,
          List.insertIdx_succ_cons, ih (by omega)]

theorem set_insertAfter (h : j < l.length) (a b : α) :
    (insertAfter i a l).set (if i < j then j + 1 else j) b = insertAfter i a (l.set j b) := by
  rw [insertAfter, insertAfter, List.length_set, insertionPoint]
  split
  · exact set_insertIdx_of_le (by omega) a b
  · exact set_insertIdx_of_lt (by omega) a b

theorem set_eraseIdx (h : j ≠ i) (b : α) :
    (l.eraseIdx i).set (if i < j then j - 1 else j) b = (l.set j b).eraseIdx i := by
  split
  next hij => rw [List.eraseIdx_set_lt hij]
  next hij => rw [List.eraseIdx_set_gt (by omega)]

end Lists

/-! ## Exchanging the value of an entry -/

namespace Entries

variable {α : Type} {key newKey k : String} {entries : Entries α}

theorem keys_put_of_mem (h : k ∈ keys entries) (value : α) :
    keys (put k value entries) = keys entries := by
  rw [keys_put, if_pos h]

theorem freshKey_congr {entries' : Entries α} (h : keys entries' = keys entries) (stem : String) :
    freshKey entries' stem = freshKey entries stem := by
  have hlen : entries'.length = entries.length := by
    have hkeys := congrArg List.length h
    rwa [keys, keys, List.length_map, List.length_map] at hkeys
  have hfirst : ∀ fuel n, firstFree entries' stem fuel n = firstFree entries stem fuel n := by
    intro fuel
    induction fuel with
    | zero => exact fun n => rfl
    | succ fuel ih =>
      intro n
      rw [firstFree, firstFree, h, ih]
  rw [freshKey, freshKey, hfirst, hlen]

theorem erase_put_self (key : String) (value : α) (entries : Entries α) :
    erase key (put key value entries) = erase key entries := by
  induction entries with
  | nil => simp [put, erase]
  | cons entry rest ih =>
    obtain ⟨l, v⟩ := entry
    by_cases hl : l = key
    · simp [put, erase, hl]
    · simp [put, erase, hl, ih]

theorem erase_put_of_ne (hne : key ≠ k) (value : α) (entries : Entries α) :
    erase key (put k value entries) = put k value (erase key entries) := by
  induction entries with
  | nil => simp [put, erase, Ne.symm hne]
  | cons entry rest ih =>
    obtain ⟨l, v⟩ := entry
    by_cases hk : l = k
    · subst hk
      simp [put, erase, Ne.symm hne]
    · by_cases hl : l = key
      · simp [put, erase, hl, hne]
      · simp [put, erase, hl, hk, ih]

theorem rename_put_self (h : key ∈ keys entries) (hnew : key = newKey ∨ newKey ∉ keys entries)
    (value : α) :
    rename key newKey (put key value entries) = put newKey value (rename key newKey entries) := by
  induction entries with
  | nil => cases h
  | cons entry rest ih =>
    obtain ⟨l, v⟩ := entry
    by_cases hl : l = key
    · simp [put, rename, hl]
    · have hrest : key ∈ keys rest := by
        rcases List.mem_cons.mp h with heq | hmem
        · exact absurd heq.symm hl
        · exact hmem
      have hnew' : l ≠ newKey ∧ (key = newKey ∨ newKey ∉ keys rest) := by
        rcases hnew with rfl | hfree
        · exact ⟨hl, Or.inl rfl⟩
        · rw [keys_cons, List.mem_cons, not_or] at hfree
          exact ⟨Ne.symm hfree.1, Or.inr hfree.2⟩
      simp [put, rename, hl, hnew'.1, ih hrest hnew'.2]

theorem rename_put_of_ne (hk : k ≠ key) (hk' : k ≠ newKey) (value : α) (entries : Entries α) :
    rename key newKey (put k value entries) = put k value (rename key newKey entries) := by
  induction entries with
  | nil => simp [put, rename, hk]
  | cons entry rest ih =>
    obtain ⟨l, v⟩ := entry
    by_cases hlk : l = k
    · subst hlk
      simp [put, rename, hk]
    · by_cases hl : l = key
      · simp [put, rename, hl, Ne.symm hk, Ne.symm hk']
      · simp [put, rename, hl, hlk, ih]

end Entries

namespace Mutation

variable {stem : String} {m : Mutation} {u u' v w : Target} {x : Selector}

/-! ## Exchanging a child of the container -/

theorem Acts.of_eq {u'' : Target} (h : m.Acts stem u u') (heq : u' = u'') : m.Acts stem u u'' :=
  heq ▸ h

theorem Acts.exchanged_gone {a b : Target} (hx : m.follow x = none) (h : m.Acts stem a b) :
    (m.follow x = none → m.Acts stem a b) ∧
      ∀ y, m.follow x = some y → m.Acts stem a (b.put y w) := by
  refine ⟨fun _ => h, fun y hy => ?_⟩
  rw [hx] at hy
  cases hy

theorem Acts.exchanged_moved {a b : Target} {y : Selector} (hx : m.follow x = some y)
    (h : m.Acts stem a (b.put y w)) :
    (m.follow x = none → m.Acts stem a b) ∧
      ∀ y, m.follow x = some y → m.Acts stem a (b.put y w) := by
  refine ⟨fun hnone => ?_, fun y' hy => ?_⟩
  · rw [hx] at hnone
    cases hnone
  · obtain rfl : y = y' := Option.some.inj (hx.symm.trans hy)
    exact h

/-- **The rules do not look at the children that they move.**  A child may be exchanged before the
mutation or, where it is then, after it; a child that goes makes no difference. -/
theorem Acts.put_follow (h : m.Acts stem u u') (hx : u.step? x = some v)
    (hw : w.isNode = v.isNode) :
    (m.follow x = none → m.Acts stem (u.put x w) u') ∧
      ∀ y, m.follow x = some y → m.Acts stem (u.put x w) (u'.put y w) := by
  cases h with
  | setFilterValue => cases Target.step?_eq_some_iff.mp hx
  | insertFront =>
    cases Target.step?_eq_some_iff.mp hx with
    | index hn =>
      cases w with
      | pipeline q => cases hw
      | node n =>
        exact exchanged_moved rfl (Acts.insertFront.of_eq rfl)
  | insertNode hl =>
    cases Target.step?_eq_some_iff.mp hx with
    | index hn =>
      cases w with
      | pipeline q => cases hw
      | node n =>
        refine exchanged_moved (by rw [follow, hl]) ?_
        rw [Selector.shiftUp, ← apply_ite Selector.index]
        refine (Acts.insertNode hl).of_eq ?_
        exact congrArg Target.pipeline
          (set_insertAfter (List.getElem?_eq_some_iff.mp hn).1 _ n).symm
  | insertBranch hl =>
    cases Target.step?_eq_some_iff.mp hx with
    | branch hq =>
      cases w with
      | node n => cases hw
      | pipeline q =>
        refine exchanged_moved (by rw [follow, hl]) ?_
        rw [Selector.shiftUp, ← apply_ite Selector.branch]
        refine (Acts.insertBranch hl).of_eq ?_
        exact congrArg (Target.node ∘ Node.array)
          (set_insertAfter (List.getElem?_eq_some_iff.mp hq).1 _ q).symm
  | @insertEntry path kind k entries hl =>
    cases Target.step?_eq_some_iff.mp hx with
    | @key _ l q hq =>
      cases w with
      | node n => cases hw
      | pipeline r =>
        refine exchanged_moved (by rw [follow, hl]) ?_
        have hmem := Entries.mem_keys_of_get? hq
        have hkeys := Entries.keys_put_of_mem hmem r
        have hne : l ≠ Entries.freshKey entries stem := fun heq =>
          Entries.freshKey_not_mem entries stem (heq ▸ hmem)
        refine (Acts.insertEntry hl).of_eq (congrArg (Target.node ∘ Node.object) ?_)
        rw [Entries.freshKey_congr hkeys, Entries.put_comm hne hmem]
  | appendBranch =>
    cases Target.step?_eq_some_iff.mp hx with
    | branch hq =>
      cases w with
      | node n => cases hw
      | pipeline q =>
        refine exchanged_moved rfl (Acts.appendBranch.of_eq ?_)
        refine congrArg (Target.node ∘ Node.array) ?_
        rw [List.set_append_left _ _ (List.getElem?_eq_some_iff.mp hq).1]
  | @removeNode path i p hl hi =>
    cases Target.step?_eq_some_iff.mp hx with
    | @index _ j n hn =>
      cases w with
      | pipeline q => cases hw
      | node n' =>
        have hacts : Acts stem (.removeNode path) (.pipeline (p.set j n'))
            (.pipeline ((p.set j n').eraseIdx i)) :=
          .removeNode hl (by rw [List.length_set]; exact hi)
        by_cases hji : Selector.index j = .index i
        · obtain rfl := Selector.index.inj hji
          refine exchanged_gone (by rw [follow, hl]; exact if_pos rfl) (hacts.of_eq ?_)
          rw [List.eraseIdx_set_eq]
        · refine exchanged_moved (by rw [follow, hl]; exact if_neg hji) ?_
          rw [Selector.shiftDown, ← apply_ite Selector.index]
          refine hacts.of_eq (congrArg Target.pipeline ?_)
          exact (set_eraseIdx (fun heq => hji (congrArg _ heq)) n').symm
  | @removeItem path b branches hl hb =>
    cases Target.step?_eq_some_iff.mp hx with
    | @branch _ c q hq =>
      cases w with
      | node n => cases hw
      | pipeline q' =>
        have hacts : Acts stem (.removeBranch path) (.node (.array (branches.set c q')))
            (.node (.array ((branches.set c q').eraseIdx b))) :=
          .removeItem hl (by rw [List.length_set]; exact hb)
        by_cases hcb : Selector.branch c = .branch b
        · obtain rfl := Selector.branch.inj hcb
          refine exchanged_gone (by rw [follow, hl]; exact if_pos rfl) (hacts.of_eq ?_)
          rw [List.eraseIdx_set_eq]
        · refine exchanged_moved (by rw [follow, hl]; exact if_neg hcb) ?_
          rw [Selector.shiftDown, ← apply_ite Selector.branch]
          refine hacts.of_eq (congrArg (Target.node ∘ Node.array) ?_)
          exact (set_eraseIdx (fun heq => hcb (congrArg _ heq)) q').symm
  | @removeEntry path k entries hl hk =>
    cases Target.step?_eq_some_iff.mp hx with
    | @key _ l q hq =>
      cases w with
      | node n => cases hw
      | pipeline q' =>
        have hmem := Entries.mem_keys_of_get? hq
        have hacts : Acts stem (.removeBranch path) (.node (.object (Entries.put l q' entries)))
            (.node (.object (Entries.erase k (Entries.put l q' entries)))) :=
          .removeEntry hl (by rw [Entries.keys_put_of_mem hmem]; exact hk)
        by_cases hlk : Selector.key l = .key k
        · obtain rfl := Selector.key.inj hlk
          refine exchanged_gone (by rw [follow, hl]; exact if_pos rfl) (hacts.of_eq ?_)
          rw [Entries.erase_put_self]
        · refine exchanged_moved (by rw [follow, hl]; exact if_neg hlk) ?_
          have hne : k ≠ l := fun heq => hlk (congrArg Selector.key heq.symm)
          refine hacts.of_eq (congrArg (Target.node ∘ Node.object) ?_)
          exact Entries.erase_put_of_ne hne q' entries
  | @addProperty path key entries hkey =>
    cases Target.step?_eq_some_iff.mp hx with
    | @key _ l q hq =>
      cases w with
      | node n => cases hw
      | pipeline q' =>
        by_cases hlk : Selector.key l = .key key
        · obtain rfl := Selector.key.inj hlk
          refine exchanged_gone (if_pos rfl) ((Acts.addProperty hkey).of_eq ?_)
          rw [Entries.put_put]
        · refine exchanged_moved (if_neg hlk) ?_
          have hne : l ≠ key := fun heq => hlk (congrArg Selector.key heq)
          refine (Acts.addProperty hkey).of_eq (congrArg (Target.node ∘ Node.object) ?_)
          exact Entries.put_comm hne (Entries.mem_keys_of_get? hq) q' _
  | @renameProperty path key newKey entries hl hne hnew hk =>
    cases Target.step?_eq_some_iff.mp hx with
    | @key _ l q hq =>
      cases w with
      | node n => cases hw
      | pipeline q' =>
        have hmem := Entries.mem_keys_of_get? hq
        have hkeys := Entries.keys_put_of_mem hmem q'
        have hacts : Acts stem (.renameProperty path newKey)
            (.node (.object (Entries.put l q' entries)))
            (.node (.object (Entries.rename key newKey (Entries.put l q' entries)))) :=
          .renameProperty hl hne (by rw [hkeys]; exact hnew) (by rw [hkeys]; exact hk)
        refine exchanged_moved (by rw [follow, hl]) ?_
        refine hacts.of_eq ?_
        by_cases hlk : l = key
        · subst hlk
          rw [if_pos rfl]
          exact congrArg (Target.node ∘ Node.object) (Entries.rename_put_self hk hnew q')
        · have hlnew : l ≠ newKey := by
            rintro rfl
            exact hnew.elim (fun heq => hlk heq.symm) fun hfree => hfree hmem
          rw [if_neg fun heq => hlk (Selector.key.inj heq)]
          exact congrArg (Target.node ∘ Node.object)
            (Entries.rename_put_of_ne hlk hlnew q' entries)

/-! ## Exchanging a place of the tree -/

variable {s : Path} {t : Target}

/-- **The mutation does not look at a place that is not on the way to its container.**  On the tree
with another place there it leaves what it would have left, with that place where `rebase` says, or
without it. -/
theorem Acts.write_rebase {root : Target} (h : m.Acts stem u u')
    (hu : root.walk? m.container = some u) (ht : root.walk? s = some t)
    (hoff : ¬ s <+: m.container) (hv : v.isNode = t.isNode) :
    ∃ w w', (root.write s v).walk? m.container = some w ∧ m.Acts stem w w' ∧
      (m.rebase s = none →
        (root.write s v).write m.container w' = root.write m.container u') ∧
      ∀ p, m.rebase s = some p →
        (root.write s v).write m.container w' = (root.write m.container u').write p v := by
  rcases Path.below_or_apart m.container s with ⟨x, rest, rfl⟩ | hapart
  · -- below the container: the child on the way to the place is exchanged
    rw [Target.walk?_append, hu, Option.bind_some] at ht
    obtain ⟨z, hx, hrest⟩ := Target.walk?_cons_eq_some.mp ht
    have hsort : (z.write rest v).isNode = z.isNode := Target.isNode_write hrest hv
    have hput : (u.put x (z.write rest v)).isNode = u.isNode := Target.isNode_put u x _
    have hbefore : root.write (m.container ++ x :: rest) v =
        root.write m.container (u.put x (z.write rest v)) := by
      rw [Target.write_append hu, Target.write_cons hx]
    obtain ⟨hgone, hmoved⟩ := h.put_follow hx hsort
    rw [rebase_below, hbefore]
    cases hy : m.follow x with
    | none =>
      refine ⟨_, u', Target.walk?_write_self hu hput, hgone hy, fun _ => ?_, nofun⟩
      exact Target.write_write hu hput h.isNode_eq
    | some y =>
      have hchild : u'.step? y = some z := h.step?_follow hx hy
      refine ⟨_, u'.put y (z.write rest v), Target.walk?_write_self hu hput, hmoved y hy, nofun,
        fun p hp => ?_⟩
      obtain rfl := Option.some.inj hp
      have hsort' : (u'.put y (z.write rest v)).isNode = u.isNode :=
        (Target.isNode_put u' y _).trans h.isNode_eq
      rw [Target.write_write hu hput hsort',
        Target.write_append (Target.walk?_write_self hu h.isNode_eq), Target.write_cons hchild,
        Target.write_write hu h.isNode_eq hsort']
  · -- apart from the container: the two writes do not meet
    have hoff' : ¬ m.container <+: s := by
      rintro ⟨rest, hrest⟩
      cases rest with
      | nil => exact hoff ⟨[], by rw [← hrest, List.append_nil, List.append_nil]⟩
      | cons x rest => exact hapart x rest hrest.symm
    refine ⟨u, u', (Target.walk?_write_apart ht hv hoff hoff').trans hu, h, ?_, fun p hp => ?_⟩
    · rw [rebase_apart hapart]
      nofun
    · obtain rfl := Option.some.inj ((rebase_apart hapart).symm.trans hp)
      exact Target.write_comm ht hu hv h.isNode_eq hoff hoff'

/-! ## Typing into a filter -/

theorem setFilterValue_eq_ok_iff {value : String} {root root' : Pipeline} :
    (setFilterValue s value).applyWith stem root = .ok root' ↔
      ∃ old, root.resolve? s = some (.node (.filter old)) ∧
        (Target.pipeline root).write s (.node (.filter value)) = .pipeline root' := by
  rw [applyWith_eq_ok_iff]
  constructor
  · rintro ⟨u, u', hu, hacts, hw⟩
    cases hacts with
    | @setFilterValue _ _ old => exact ⟨old, hu, hw⟩
  · rintro ⟨old, hu, hw⟩
    exact ⟨_, _, hu, .setFilterValue, hw⟩

/-- Nothing stands below a filter, and only a new text changes it. -/
theorem Acts.not_prefix_container {root : Target} {old : String} (h : m.Acts stem u u')
    (hu : root.walk? m.container = some u) (hs : root.walk? s = some (.node (.filter old)))
    (hm : ∀ value, m ≠ .setFilterValue s value) : ¬ s <+: m.container := by
  rintro ⟨rest, hrest⟩
  rw [← hrest, Target.walk?_append, hs, Option.bind_some] at hu
  cases rest with
  | cons x rest => cases hu
  | nil =>
    cases hu
    cases h with
    | @setFilterValue path value =>
      rw [List.append_nil] at hrest
      exact hm value (by rw [hrest]; rfl)

/-- **A mutation commutes with typing into a filter.**  The text can be set before the mutation, or
after it in the filter where it is then, and the tree is the same.  A filter that the mutation
removes or replaces takes its text with it. -/
theorem setFilterValue_commutes {old : String} {root root' : Pipeline}
    (happly : m.applyWith stem root = .ok root') (hs : root.node? s = some (.filter old))
    (hm : ∀ value, m ≠ .setFilterValue s value) (value : String) :
    ∃ typed, (setFilterValue s value).applyWith stem root = .ok typed ∧
      (m.rebase s = none → m.applyWith stem typed = .ok root') ∧
      ∀ p, m.rebase s = some p →
        ∃ both, m.applyWith stem typed = .ok both ∧
          (setFilterValue p value).applyWith stem root' = .ok both := by
  obtain ⟨u, u', hu, hacts, hw⟩ := applyWith_eq_ok_iff.mp happly
  have hwalk := Pipeline.walk?_of_node? hs
  obtain ⟨typed, htyped⟩ := Target.exists_write_eq_pipeline (v := .node (.filter value)) hwalk rfl
  have hoff := hacts.not_prefix_container hu hwalk hm
  obtain ⟨w, w', hcontainer, hacts', hgone, hmoved⟩ :=
    hacts.write_rebase (v := .node (.filter value)) hu hwalk hoff rfl
  rw [htyped] at hcontainer hgone hmoved
  refine ⟨typed, setFilterValue_eq_ok_iff.mpr ⟨old, hwalk, htyped⟩, fun hnone => ?_,
    fun p hp => ?_⟩
  · exact applyWith_eq_ok_iff.mpr ⟨w, w', hcontainer, hacts', (hgone hnone).trans hw⟩
  · have hboth := hmoved p hp
    rw [hw] at hboth
    have hfilter : (Target.pipeline root').walk? p = some (.node (.filter old)) := by
      rw [← hw]
      rcases hacts.walk?_rebase hu hwalk hp with ⟨-, hmove⟩ | ⟨q, hq, -, -⟩
      · exact hmove
      · exact absurd ⟨q, hq.symm⟩ hoff
    obtain ⟨both, heq⟩ := Target.exists_write_eq_pipeline (v := .node (.filter value)) hfilter rfl
    refine ⟨both, ?_, setFilterValue_eq_ok_iff.mpr ⟨old, hfilter, heq⟩⟩
    exact applyWith_eq_ok_iff.mpr ⟨w, w', hcontainer, hacts', hboth.trans heq⟩

/-- When the entry above the filter gets another name, the text goes with the filter; when the entry
is overwritten, the text goes with the entry. -/
theorem setFilterValue_commutes_renamed :
    let root : Pipeline := [.object [("a", [.filter ".x"]), ("c", [])]]
    let s : Path := [.index 0, .key "a", .index 0]
    let newName : Mutation := .renameProperty [.index 0, .key "a"] "b"
    let overwrite : Mutation := .addProperty [.index 0] "a"
    (∃ typed both, (setFilterValue s ".y").applyWith "" root = .ok typed ∧
      newName.applyWith "" typed = .ok both ∧
      (setFilterValue [.index 0, .key "b", .index 0] ".y").applyWith ""
        [.object [("b", [.filter ".x"]), ("c", [])]] = .ok both) ∧
      ∃ typed, (setFilterValue s ".y").applyWith "" root = .ok typed ∧
        overwrite.applyWith "" typed = .ok [.object [("a", [.filter ""]), ("c", [])]] := by
  intro root s newName overwrite
  have hs : root.node? s = some (.filter ".x") := by decide
  have hrenamed : newName.applyWith "" root = .ok [.object [("b", [.filter ".x"]), ("c", [])]] := by
    rfl
  have hwritten :
      overwrite.applyWith "" root = .ok [.object [("a", [.filter ""]), ("c", [])]] := by rfl
  obtain ⟨typed, htyped, -, hmoved⟩ := setFilterValue_commutes hrenamed hs (fun _ => nofun) ".y"
  obtain ⟨both, hfirst, hsecond⟩ := hmoved [.index 0, .key "b", .index 0] (by decide)
  obtain ⟨typed', htyped', hgone, -⟩ := setFilterValue_commutes hwritten hs (fun _ => nofun) ".y"
  exact ⟨⟨typed, both, htyped, hfirst, hsecond⟩, typed', htyped', hgone (by decide)⟩

end Mutation

end FilterEditor
