import FilterEditor.Proofs.Chain
import FilterEditor.Proofs.Framing
import FilterEditor.Proofs.Inside

/-!
# The preview of a place

A chain knows the place at its end and the keys on the way, and no position.  This settles what an
edit does to the preview of a place that it follows.  `rebase` moves positions and changes a key only
where an entry on the way is renamed (`collapse_rebase`), and an edit that does not act inside the
place leaves it as it was (`resolve?_rebase`).  So the chain stays, or it has the new name in the
place of the old one (`chain_stable`).
-/

namespace FilterEditor

/-! ## Collapsed paths -/

namespace Selector

theorem collapse_next (x : Selector) : x.next.collapse = x.collapse := by
  cases x <;> rfl

theorem collapse_shiftUp (place x : Selector) : (place.shiftUp x).collapse = x.collapse := by
  cases x with
  | index i =>
    cases place with
    | index j =>
      rw [shiftUp, ← apply_ite index]
      rfl
    | branch b => rfl
    | key k => rfl
  | branch i =>
    cases place with
    | index j => rfl
    | branch b =>
      rw [shiftUp, ← apply_ite branch]
      rfl
    | key k => rfl
  | key k => rfl

theorem collapse_shiftDown (place x : Selector) : (place.shiftDown x).collapse = x.collapse := by
  cases x with
  | index i =>
    cases place with
    | index j =>
      rw [shiftDown, ← apply_ite index]
      rfl
    | branch b => rfl
    | key k => rfl
  | branch i =>
    cases place with
    | index j => rfl
    | branch b =>
      rw [shiftDown, ← apply_ite branch]
      rfl
    | key k => rfl
  | key k => rfl

end Selector

namespace Mutation

variable {stem : String} {m : Mutation} {x y : Selector} {s p : Path} {t : Target}

/-- The mutation gives another key to an entry on the way to a place, or to that place. -/
def Renames (m : Mutation) (s : Path) : Prop :=
  match m with
  | renameProperty path _ => path <+: s
  | _ => False

theorem collapse_follow (hy : m.follow x = some y)
    (hm : ∀ path newKey, m = .renameProperty path newKey → path.getLast? ≠ some x) :
    y.collapse = x.collapse := by
  have hremoval : ∀ path, (removeNode path).follow x = some y → y.collapse = x.collapse := by
    intro path hpath
    rw [follow] at hpath
    split at hpath
    next =>
      obtain rfl := Option.some.inj hpath
      rfl
    next last _ =>
      split at hpath
      next => cases hpath
      next =>
        obtain rfl := Option.some.inj hpath
        exact Selector.collapse_shiftDown last x
  cases m with
  | setFilterValue path value =>
    obtain rfl := Option.some.inj hy
    rfl
  | appendBranch path =>
    obtain rfl := Option.some.inj hy
    rfl
  | insertSibling path kind =>
    rw [follow] at hy
    split at hy
    next =>
      obtain rfl := Option.some.inj hy
      exact Selector.collapse_next x
    next last _ =>
      obtain rfl := Option.some.inj hy
      exact Selector.collapse_shiftUp last x
  | removeNode path => exact hremoval path hy
  | removeBranch path => exact hremoval path hy
  | addProperty path key =>
    rw [follow] at hy
    split at hy
    next => cases hy
    next =>
      obtain rfl := Option.some.inj hy
      rfl
  | renameProperty path newKey =>
    rw [follow] at hy
    split at hy
    next =>
      obtain rfl := Option.some.inj hy
      rfl
    next last hlast =>
      have hne : x ≠ last := fun heq => hm path newKey rfl (heq ▸ hlast)
      rw [if_neg hne] at hy
      obtain rfl := Option.some.inj hy
      rfl

/-- Where no key changes on the way, a rebased path differs in positions only. -/
theorem collapse_rebase (hp : m.rebase s = some p) (hm : ¬ m.Renames s) :
    p.collapse = s.collapse := by
  rcases Path.below_or_apart m.container s with ⟨x, rest, rfl⟩ | hapart
  · rw [rebase_below] at hp
    obtain ⟨y, hy, rfl⟩ := Option.map_eq_some_iff.mp hp
    have hxy : y.collapse = x.collapse := by
      refine collapse_follow hy fun path newKey heq hlast => hm ?_
      subst heq
      obtain ⟨parent, rfl⟩ := List.getLast?_eq_some_iff.mp hlast
      show parent ++ [x] <+: (parent ++ [x]).dropLast ++ x :: rest
      rw [List.dropLast_concat, Path.concat_prefix_append]
    simp only [Path.collapse, List.map_append, List.map_cons, hxy]
  · rw [rebase_apart hapart] at hp
    rw [Option.some.inj hp]

/-! ## The chain after a mutation -/

theorem resolve?_rebase {root root' : Pipeline} (happly : m.applyWith stem root = .ok root')
    (hs : s ≠ []) (ht : root.resolve? s = some t) (hp : m.rebase s = some p)
    (hoff : ¬ m.ActsInside s) : root'.resolve? p = some t := by
  obtain ⟨u, u', hu, hacts, hw⟩ := applyWith_eq_ok_iff.mp happly
  rw [actsInside_iff hs] at hoff
  rw [Pipeline.resolve?] at hu ht
  rw [Pipeline.resolve?, ← hw]
  rcases hacts.walk?_rebase hu ht hp with ⟨-, hwalk⟩ | ⟨q, hq, -, -⟩
  · exact hwalk
  · exact absurd ⟨q, hq.symm⟩ hoff

theorem exists_object_of_renameProperty {path : Path} {newKey : String} {root root' : Pipeline}
    (happly : (renameProperty path newKey).applyWith stem root = .ok root') :
    ∃ parent key entries, path = parent ++ [.key key] ∧
      root.resolve? parent = some (.node (.object entries)) := by
  obtain ⟨u, u', hu, hacts, -⟩ := applyWith_eq_ok_iff.mp happly
  cases hacts with
  | @renameProperty _ key _ entries hlast =>
    obtain ⟨parent, rfl⟩ := List.getLast?_eq_some_iff.mp hlast
    rw [container, List.dropLast_concat] at hu
    exact ⟨parent, key, entries, rfl, hu⟩

theorem rebase_renameProperty (parent rest : Path) (key newKey : String) :
    (renameProperty (parent ++ [.key key]) newKey).rebase (parent ++ .key key :: rest) =
      some (parent ++ .key newKey :: rest) := by
  have hbelow := rebase_below (renameProperty (parent ++ [.key key]) newKey) (.key key) rest
  rw [container, List.dropLast_concat, follow, List.getLast?_concat] at hbelow
  rw [hbelow]
  simp

end Mutation

/-- The chain of what stands under a key of an object has one entry there; under another key the
same place has the chain with the entry so called. -/
theorem Pipeline.chain_rename {root c c' : Pipeline} {parent rest : Path} {key newKey : String}
    {entries : Entries Pipeline} {t : Target}
    (hparent : root.resolve? parent = some (.node (.object entries)))
    (ht : root.resolve? (parent ++ .key key :: rest) = some t)
    (hc : Target.chain (parent ++ .key key :: rest) t = .pipeline c)
    (hc' : Target.chain (parent ++ .key newKey :: rest) t = .pipeline c') :
    ∃ branch, c.node? parent.collapse = some (.object [(key, branch)]) ∧
      c.withNode? parent.collapse (.object [(newKey, branch)]) = some c' := by
  rw [resolve?] at hparent ht
  rw [Target.walk?_append, hparent, Option.bind_some] at ht
  obtain ⟨z, hz, hrest⟩ := Target.walk?_cons_eq_some.mp ht
  cases Target.step?_eq_some_iff.mp hz with
  | @key _ _ q hq =>
    have hsort : (Target.chain rest t).isNode = false := Target.isNode_chain hrest rfl
    obtain ⟨branch, hbranch⟩ := Target.isNode_eq_false_iff.mp hsort
    have halone : ∀ k : String, Target.chain (.key k :: rest) t =
        .node (.object [(k, branch)]) := by
      intro k
      show Target.around (.key k) (Target.chain rest t) = _
      rw [hbranch]
      rfl
    rw [Target.chain_append, halone] at hc hc'
    have hplace := Target.walk?_chain (v := .node (.object [(key, branch)])) hparent rfl
    have hnode : c.node? parent.collapse = some (.object [(key, branch)]) := by
      rw [node?, resolve?, ← hc, hplace]
      rfl
    obtain ⟨filled, hfilled, hwrite⟩ := exists_withNode? hnode (.object [(newKey, branch)])
    have hother := Target.write_chain (v := .node (.object [(key, branch)]))
      (w := .node (.object [(newKey, branch)])) hparent rfl rfl
    rw [← hc, hother, hc'] at hwrite
    exact ⟨branch, hnode, by rw [hfilled, Target.pipeline.inj hwrite]⟩

namespace Mutation

/-- **The preview is stable under edits elsewhere.**  A mutation that follows a place and does not
act inside it leaves its chain as it was.  Only a renaming of an entry on the way shows there: the
entry, which stands alone in its object, has the new key. -/
theorem chain_stable {stem : String} {m : Mutation} {root root' : Pipeline} {s p : Path}
    (happly : m.applyWith stem root = .ok root') (hs : s ≠ [])
    (hres : (root.resolve? s).isSome) (hp : m.rebase s = some p) (hoff : ¬ m.ActsInside s) :
    ∃ c c', root.chain? s = some c ∧ root'.chain? p = some c' ∧
      (¬ m.Renames s → c' = c) ∧
      ∀ path newKey, m = .renameProperty path newKey → path <+: s →
        ∃ (parent : Path) (key : String) (branch : Pipeline), path = parent ++ [.key key] ∧
          c.node? parent.collapse = some (.object [(key, branch)]) ∧
          c.withNode? parent.collapse (.object [(newKey, branch)]) = some c' := by
  obtain ⟨t, ht⟩ := Option.isSome_iff_exists.mp hres
  have ht' : root'.resolve? p = some t := resolve?_rebase happly hs ht hp hoff
  obtain ⟨c, hchain, hc⟩ := Pipeline.exists_chain? hs ht
  obtain ⟨c', hchain', hc'⟩ := Pipeline.exists_chain? (rebase_ne_nil hp hs) ht'
  refine ⟨c, c', hchain, hchain', fun hm => ?_, ?_⟩
  · have hsame : Target.chain p t = Target.chain s t := by
      rw [← Target.chain_collapse p, collapse_rebase hp hm, Target.chain_collapse]
    rw [hc, hc'] at hsame
    exact Target.pipeline.inj hsame
  · rintro path newKey rfl ⟨rest, rfl⟩
    obtain ⟨parent, key, entries, rfl, hparent⟩ := exists_object_of_renameProperty happly
    rw [List.append_assoc, List.singleton_append] at ht hc hp
    rw [rebase_renameProperty] at hp
    obtain rfl := Option.some.inj hp
    obtain ⟨branch, hnode, hwith⟩ := Pipeline.chain_rename hparent ht hc hc'
    exact ⟨parent, key, branch, rfl, hnode, hwith⟩

/-- A filter deep in a tree: a branch is put before its own, then an entry above it is renamed. -/
theorem chain_stable_beside_and_above :
    let root : Pipeline := [.filter ".", .object [("a", []), ("b", [.array [[], [.filter ".x"]]])]]
    let s : Path := [.index 1, .key "b", .index 0, .branch 1, .index 0]
    let before : Mutation := .insertSibling [.index 1, .key "b", .index 0, .branch 0] .object
    let newName : Mutation := .renameProperty [.index 1, .key "b"] "c"
    let c : Pipeline := [.object [("b", [.array [[.filter ".x"]]])]]
    root.chain? s = some c ∧
      (∃ root', before.applyWith "" root = .ok root' ∧
        root'.chain? [.index 1, .key "b", .index 0, .branch 2, .index 0] = some c) ∧
      ∃ root' c', newName.applyWith "" root = .ok root' ∧
        root'.chain? [.index 1, .key "c", .index 0, .branch 1, .index 0] = some c' ∧
        c.withNode? [.index 0] (.object [("c", [.array [[.filter ".x"]]])]) = some c' := by
  intro root s before newName c
  have hs : s ≠ [] := by decide
  have hres : (root.resolve? s).isSome := by decide
  have hc : root.chain? s = some c := by decide
  have hbefore : before.applyWith "" root = .ok [.filter ".", .object [("a", []),
      ("b", [.array [[], [.object []], [.filter ".x"]]])]] := by rfl
  have hnewName : newName.applyWith "" root =
      .ok [.filter ".", .object [("a", []), ("c", [.array [[], [.filter ".x"]]])]] := by rfl
  refine ⟨hc, ⟨_, hbefore, ?_⟩, ?_⟩
  · obtain ⟨d, d', hd, hd', hsame, -⟩ := chain_stable hbefore hs hres rfl (by decide)
    obtain rfl : c = d := Option.some.inj (hc.symm.trans hd)
    rw [← hsame fun h => h]
    exact hd'
  · obtain ⟨d, d', hd, hd', -, hrenamed⟩ := chain_stable hnewName hs hres rfl (by decide)
    obtain rfl : c = d := Option.some.inj (hc.symm.trans hd)
    obtain ⟨parent, key, branch, hpath, hnode, hwith⟩ := hrenamed _ _ rfl (by decide)
    obtain ⟨rfl, -⟩ := List.append_inj'
      (show [Selector.index 1] ++ [.key "b"] = parent ++ [.key key] from hpath) rfl
    have hentry : c.node? [.index 0] = some (.object [("b", [.array [[.filter ".x"]]])]) := by
      decide
    cases hnode.symm.trans hentry
    exact ⟨_, d', hnewName, hd', hwith⟩

end Mutation

end FilterEditor
