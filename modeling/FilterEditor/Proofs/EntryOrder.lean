import FilterEditor.Proofs.Fits
import FilterEditor.Proofs.FreshKey

/-!
# Entries keep their order

The order of the entries of an object shows in the text, so an edit of one entry must leave the
others where they are.  A map from keys to branches would not say this; the statements here are
equations of lists.

Of the entries `before ++ (key, branch) :: behind`, a removal leaves `before ++ behind`, a renaming
`before ++ (newKey, branch) :: behind`, and a property that is put over the entry
`before ++ (key, [.filter ""]) :: behind`.  What is new goes to the end.  This is a matter of the
object alone (`Entries.Splits.erase_eq` and the lemmas beside it).  That nothing but the object
changes is `Pipeline.ReplacedAt`.
-/

namespace FilterEditor

/-! ## One node replaced -/

/-- The second tree is the first with another node at a path, and nothing else is changed. -/
structure Pipeline.ReplacedAt (root : Pipeline) (path : Path) (n : Node) (root' : Pipeline) :
    Prop where
  /-- The whole tree is got by putting the node there. -/
  whole : root.withNode? path n = some root'
  /-- The node is there. -/
  there : root'.node? path = some n
  /-- What is neither above the path nor below it is what it was. -/
  elsewhere : ∀ q, ¬ path <+: q → ¬ q <+: path → root'.resolve? q = root.resolve? q
  /-- The old node, put back, gives the old tree. -/
  back : ∀ old, root.node? path = some old → root'.withNode? path old = some root

theorem Pipeline.replacedAt_of_write {root root' : Pipeline} {path : Path} {old n : Node}
    (hold : root.node? path = some old)
    (hw : (Target.pipeline root).write path (.node n) = .pipeline root') :
    root.ReplacedAt path n root' := by
  have hwalk := walk?_of_node? hold
  have hwalk' : (Target.pipeline root').walk? path = some (.node n) := by
    rw [← hw]
    exact Target.walk?_write_self hwalk rfl
  have hthere : root'.node? path = some n := by
    rw [node?, resolve?, hwalk']
    rfl
  refine ⟨?_, hthere, fun q hq hq' => ?_, fun old' hold' => ?_⟩
  · obtain ⟨filled, hfilled, hwrite⟩ := exists_withNode? hold n
    obtain rfl := Target.pipeline.inj (hwrite.symm.trans hw)
    exact hfilled
  · rw [resolve?, ← hw]
    exact Target.walk?_write_apart hwalk rfl hq hq'
  · obtain rfl := Option.some.inj (hold.symm.trans hold')
    obtain ⟨filled, hfilled, hwrite⟩ := exists_withNode? hthere old
    rw [← hw, Target.write_write (v := .node n) hwalk rfl rfl, Target.write_self hwalk] at hwrite
    obtain rfl := Target.pipeline.inj hwrite
    exact hfilled

/-! ## Mutations of one object -/

namespace Mutation

variable {stem : String} {m : Mutation} {root root' : Pipeline} {path : Path}
  {entries : Entries Pipeline}

theorem Acts.exists_object {u' : Target} (h : m.Acts stem (.node (.object entries)) u') :
    ∃ entries', u' = .node (.object entries') := by
  cases h <;> exact ⟨_, rfl⟩

/-- A mutation of an object changes nothing but the object. -/
theorem exists_replacedAt (happly : m.applyWith stem root = .ok root')
    (hpath : m.container = path) (hobject : root.resolve? path = some (.node (.object entries))) :
    ∃ entries', m.Acts stem (.node (.object entries)) (.node (.object entries')) ∧
      root.ReplacedAt path (.object entries') root' := by
  subst hpath
  obtain ⟨u, u', hu, hacts, hw⟩ := applyWith_eq_ok_iff.mp happly
  obtain rfl := Option.some.inj (hobject.symm.trans hu)
  obtain ⟨entries', rfl⟩ := hacts.exists_object
  have hold : root.node? m.container = some (.object entries) := by
    rw [Pipeline.node?, hobject]
    rfl
  exact ⟨entries', hacts, Pipeline.replacedAt_of_write hold hw⟩

/-- **The entries of an object keep their order.**  A removal takes out one entry, a renaming gives
one entry another key in its place, and a property under a key that is there gets another branch in
its place.  A property under a new key becomes the last entry, and so does what is inserted, under a
key that was not there.  The other entries stay as they are, and so does everything outside the
object. -/
theorem entries_keep_order (hobject : root.resolve? path = some (.node (.object entries)))
    (stem : String) :
    (∀ k root', (removeBranch (path ++ [.key k])).applyWith stem root = .ok root' →
      ∃ before branch behind, entries.Splits k before branch behind ∧
        root.ReplacedAt path (.object (before ++ behind)) root') ∧
    (∀ k newKey root',
      (renameProperty (path ++ [.key k]) newKey).applyWith stem root = .ok root' →
      ∃ before branch behind, entries.Splits k before branch behind ∧
        root.ReplacedAt path (.object (before ++ (newKey, branch) :: behind)) root') ∧
    (∀ k root', (addProperty path k).applyWith stem root = .ok root' →
      (k ∉ Entries.keys entries →
        root.ReplacedAt path (.object (entries ++ [(k, [.filter ""])])) root') ∧
      (k ∈ Entries.keys entries → ∃ before branch behind, entries.Splits k before branch behind ∧
        root.ReplacedAt path (.object (before ++ (k, [.filter ""]) :: behind)) root')) ∧
    ∀ k kind root', (insertSibling (path ++ [.key k]) kind).applyWith stem root = .ok root' →
      ∃ fresh, fresh ∉ Entries.keys entries ∧
        root.ReplacedAt path (.object (entries ++ [(fresh, [kind.blankNode])])) root' := by
  refine ⟨fun k root' happly => ?_, fun k newKey root' happly => ?_, fun k root' happly => ?_,
    fun k kind root' happly => ?_⟩
  · obtain ⟨entries', hacts, hreplaced⟩ :=
      exists_replacedAt happly List.dropLast_concat hobject
    cases hacts with
    | removeEntry hl hk =>
      obtain rfl := Selector.key.inj (Path.eq_of_getLast?_concat hl)
      obtain ⟨before, branch, behind, hsplits⟩ := Entries.exists_splits hk
      rw [hsplits.erase_eq] at hreplaced
      exact ⟨before, branch, behind, hsplits, hreplaced⟩
  · obtain ⟨entries', hacts, hreplaced⟩ :=
      exists_replacedAt happly List.dropLast_concat hobject
    cases hacts with
    | renameProperty hl _ _ hk =>
      obtain rfl := Selector.key.inj (Path.eq_of_getLast?_concat hl)
      obtain ⟨before, branch, behind, hsplits⟩ := Entries.exists_splits hk
      rw [hsplits.rename_eq] at hreplaced
      exact ⟨before, branch, behind, hsplits, hreplaced⟩
  · obtain ⟨entries', hacts, hreplaced⟩ := exists_replacedAt happly rfl hobject
    cases hacts with
    | addProperty =>
      refine ⟨fun hnew => ?_, fun hk => ?_⟩
      · rw [Entries.put_of_not_mem hnew] at hreplaced
        exact hreplaced
      · obtain ⟨before, branch, behind, hsplits⟩ := Entries.exists_splits hk
        rw [hsplits.put_eq] at hreplaced
        exact ⟨before, branch, behind, hsplits, hreplaced⟩
  · obtain ⟨entries', hacts, hreplaced⟩ :=
      exists_replacedAt happly List.dropLast_concat hobject
    -- of the insertions only the one of an entry finds an object
    generalize path ++ [Selector.key k] = target at hacts
    cases hacts with
    | insertEntry =>
      have hfresh := Entries.freshKey_not_mem entries stem
      rw [Entries.put_of_not_mem hfresh] at hreplaced
      exact ⟨_, hfresh, hreplaced⟩

/-- The middle entry of an object in a branch of an array: taken out, called by another name, and
overwritten; and an entry inserted, whose first number is taken. -/
theorem entries_keep_order_middle :
    let tree : Entries Pipeline → Pipeline := fun entries =>
      [.filter ".", .array [[], [.object entries]]]
    let path : Path := [.index 1, .branch 1, .index 0]
    let entries : Entries Pipeline := [("a", []), ("4", [.filter ".b"]), ("c", [.array []])]
    (tree entries).resolve? path = some (.node (.object entries)) ∧
      (∃ before branch behind, entries.Splits "4" before branch behind ∧
        (tree entries).ReplacedAt path (.object (before ++ behind))
          (tree [("a", []), ("c", [.array []])])) ∧
      (∃ before branch behind, entries.Splits "4" before branch behind ∧
        (tree entries).ReplacedAt path (.object (before ++ ("z", branch) :: behind))
          (tree [("a", []), ("z", [.filter ".b"]), ("c", [.array []])])) ∧
      (∃ before branch behind, entries.Splits "4" before branch behind ∧
        (tree entries).ReplacedAt path (.object (before ++ ("4", [.filter ""]) :: behind))
          (tree [("a", []), ("4", [.filter ""]), ("c", [.array []])])) ∧
      ∃ fresh, fresh ∉ Entries.keys entries ∧
        (tree entries).ReplacedAt path (.object (entries ++ [(fresh, [.object []])]))
          (tree (entries ++ [("5", [.object []])])) := by
  intro tree path entries
  have hobject : (tree entries).resolve? path = some (.node (.object entries)) := by decide
  have hfresh : Entries.freshKey entries "" = "5" := by decide
  have hinsertion : (insertSibling (path ++ [.key "a"]) .object).applyWith "" (tree entries) =
      .ok (tree (Entries.put (Entries.freshKey entries "") [.object []] entries)) := rfl
  rw [hfresh] at hinsertion
  obtain ⟨hremoved, hrenamed, hput, hinserted⟩ := entries_keep_order hobject ""
  exact ⟨hobject, hremoved "4" _ rfl, hrenamed "4" "z" _ rfl,
    (hput "4" _ rfl).2 (by decide), hinserted "a" .object _ hinsertion⟩

end Mutation

end FilterEditor
