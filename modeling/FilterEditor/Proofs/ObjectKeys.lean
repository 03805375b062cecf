import FilterEditor.Proofs.Built
import FilterEditor.Proofs.FreshKey
import FilterEditor.Proofs.Throughout

/-!
# The keys of objects stay well formed

Nothing in the type of trees says that the keys of an object are distinct, or that none is empty.
Both hold throughout a run that begins with a tree of which they hold.

They are two instances of one thing.  `KeyLaw` says what a property of key lists must stand: that a
key goes, that a new one comes at the end, and that one is exchanged for a new one in its place.  No
mutation does anything else to the keys of any object (`Acts.allKeys`), and around the container
all keys stay (`Target.AllKeys.write`).
-/

namespace FilterEditor

/-! ## Laws of keys -/

/-- A property of the keys of an object that lasts, whatever mutations do to the keys. -/
structure KeyLaw (P : List String → Prop) : Prop where
  nil : P []
  erase : ∀ (keys : List String) (k : String), P keys → P (keys.erase k)
  concat : ∀ (keys : List String) (k : String), P keys → k ∉ keys → k ≠ "" → P (keys ++ [k])
  replace : ∀ (keys : List String) (k l : String), P keys → l ∉ keys → l ≠ "" →
    P (keys.replace k l)

theorem mem_replace {keys : List String} {k l x : String} (h : x ∈ keys.replace k l) :
    x ∈ keys ∨ x = l := by
  induction keys with
  | nil => exact Or.inl h
  | cons a rest ih =>
    rw [List.replace_cons] at h
    split at h
    · rcases List.mem_cons.mp h with rfl | hrest
      · exact Or.inr rfl
      · exact Or.inl (List.mem_cons_of_mem _ hrest)
    · rcases List.mem_cons.mp h with rfl | hrest
      · exact Or.inl List.mem_cons_self
      · exact (ih hrest).imp_left (List.mem_cons_of_mem _)

theorem keyLaw_nodup : KeyLaw List.Nodup where
  nil := List.nodup_nil
  erase _ k h := h.erase k
  concat keys k h hk _ := by
    refine List.nodup_append.mpr ⟨h, List.pairwise_singleton _ k, fun a ha b hb heq => ?_⟩
    rw [List.mem_singleton.mp hb] at heq
    exact hk (heq ▸ ha)
  replace keys k l h hl _ := by
    induction keys with
    | nil => exact h
    | cons a rest ih =>
      obtain ⟨ha, hrest⟩ := List.nodup_cons.mp h
      rw [List.mem_cons, not_or] at hl
      rw [List.replace_cons]
      split
      · exact List.nodup_cons.mpr ⟨hl.2, hrest⟩
      · refine List.nodup_cons.mpr ⟨fun hmem => ?_, ih hrest hl.2⟩
        rcases mem_replace hmem with hmem | rfl
        · exact ha hmem
        · exact hl.1 rfl

theorem keyLaw_nonempty : KeyLaw fun keys => "" ∉ keys where
  nil := List.not_mem_nil
  erase _ _ h hmem := h (List.mem_of_mem_erase hmem)
  concat keys k h _ hk hmem := by
    rcases List.mem_append.mp hmem with hkeys | hlast
    · exact h hkeys
    · exact hk (List.mem_singleton.mp hlast).symm
  replace keys k l h _ hl hmem := by
    rcases mem_replace hmem with hkeys | heq
    · exact h hkeys
    · exact hl heq.symm

theorem Entries.freshKey_ne_empty {α : Type} (entries : Entries α) (stem : String) :
    freshKey entries stem ≠ "" := by
  intro h
  rw [freshKey, numbered, String.append_eq_empty_iff] at h
  exact Nat.repr_ne_empty h.2

theorem KeyLaw.put {P : List String → Prop} (hP : KeyLaw P) {α : Type} {entries : Entries α}
    {key : String} (h : P entries.keys) (hkey : key ≠ "") (value : α) :
    P (Entries.put key value entries).keys := by
  rw [Entries.keys_put]
  split
  next => exact h
  next hnew => exact hP.concat _ key h hnew hkey

/-! ## All objects of a place -/

namespace Target

/-- In every object of a place the keys have a property. -/
def AllKeys (P : List String → Prop) : Target → Prop
  | node n => n.AllObjects fun entries => P entries.keys
  | pipeline p => Pipeline.AllObjects (fun entries => P entries.keys) p

variable {P : List String → Prop} {t u v : Target} {s : Selector} {path : Path}

theorem allKeys_pipeline {p : Pipeline} :
    (pipeline p).AllKeys P ↔ ∀ n ∈ p, (node n).AllKeys P :=
  Pipeline.allObjects_iff

theorem allKeys_array {branches : List Pipeline} :
    (node (.array branches)).AllKeys P ↔ ∀ p ∈ branches, (pipeline p).AllKeys P :=
  Node.allObjects_array

theorem allKeys_object {entries : Entries Pipeline} :
    (node (.object entries)).AllKeys P ↔
      P entries.keys ∧ ∀ e ∈ entries, (pipeline e.2).AllKeys P :=
  Node.allObjects_object (P := fun entries => P entries.keys)

theorem AllKeys.step (ht : t.AllKeys P) (h : t.step? s = some u) : u.AllKeys P := by
  cases step?_eq_some_iff.mp h with
  | index hn => exact allKeys_pipeline.mp ht _ (List.mem_of_getElem? hn)
  | branch hq => exact allKeys_array.mp ht _ (List.mem_of_getElem? hq)
  | @key entries k q hq =>
    obtain ⟨-, hbranches⟩ := allKeys_object.mp ht
    obtain ⟨entry, hentry, rfl⟩ := Entries.exists_mem_of_get? hq
    exact hbranches entry hentry

theorem AllKeys.put (ht : t.AllKeys P) (h : t.step? s = some u) (hv : v.AllKeys P) :
    (t.put s v).AllKeys P := by
  cases step?_eq_some_iff.mp h with
  | index hn =>
    cases v with
    | pipeline q => exact ht
    | node n =>
      refine allKeys_pipeline.mpr fun m hm => ?_
      rcases List.mem_or_eq_of_mem_set hm with hold | rfl
      · exact allKeys_pipeline.mp ht m hold
      · exact hv
  | branch hq =>
    cases v with
    | node n => exact ht
    | pipeline q =>
      refine allKeys_array.mpr fun p hp => ?_
      rcases List.mem_or_eq_of_mem_set hp with hold | rfl
      · exact allKeys_array.mp ht p hold
      · exact hv
  | @key entries k q hq =>
    cases v with
    | node n => exact ht
    | pipeline q' =>
      obtain ⟨hkeys, hbranches⟩ := allKeys_object.mp ht
      refine allKeys_object.mpr ⟨?_, fun e he => ?_⟩
      · rw [Entries.keys_put, if_pos (Entries.mem_keys_of_get? hq)]
        exact hkeys
      · rcases Entries.mem_put he with hold | rfl
        · exact hbranches e hold
        · exact hv

theorem AllKeys.walk (ht : t.AllKeys P) (h : t.walk? path = some u) : u.AllKeys P := by
  induction path generalizing t with
  | nil =>
    cases h
    exact ht
  | cons s rest ih =>
    obtain ⟨w, hw, hrest⟩ := walk?_cons_eq_some.mp h
    exact ih (ht.step hw) hrest

theorem AllKeys.write (ht : t.AllKeys P) (h : t.walk? path = some u) (hv : v.AllKeys P) :
    (t.write path v).AllKeys P := by
  induction path generalizing t with
  | nil => exact hv
  | cons s rest ih =>
    obtain ⟨w, hw, hrest⟩ := walk?_cons_eq_some.mp h
    rw [write_cons hw]
    exact ht.put hw (ih (ht.step hw) hrest)

end Target

namespace Mutation

variable {P : List String → Prop} {stem : String} {m : Mutation} {u u' : Target}

theorem allKeys_blankNode (hP : KeyLaw P) (kind : Kind) :
    (Target.node kind.blankNode).AllKeys P := by
  cases kind with
  | filter => exact trivial
  | array => exact Target.allKeys_array.mpr nofun
  | object => exact Target.allKeys_object.mpr ⟨hP.nil, nofun⟩

theorem mem_insertAfter {α : Type} {i : Nat} {a b : α} {l : List α} (h : b ∈ insertAfter i a l) :
    b = a ∨ b ∈ l :=
  (List.mem_insertIdx (Nat.min_le_right (i + 1) l.length)).mp h

/-- **The rules obey every law of keys.** -/
theorem Acts.allKeys (hP : KeyLaw P) (h : m.Acts stem u u') (hu : u.AllKeys P) : u'.AllKeys P := by
  have hblank : ∀ kind : Kind, (Target.pipeline [kind.blankNode]).AllKeys P :=
    fun kind => ⟨allKeys_blankNode hP kind, trivial⟩
  cases h with
  | setFilterValue => exact trivial
  | @insertFront kind p => exact ⟨allKeys_blankNode hP kind, hu⟩
  | @insertNode path kind i p =>
    refine Target.allKeys_pipeline.mpr fun n hn => ?_
    rcases mem_insertAfter hn with rfl | hold
    · exact allKeys_blankNode hP kind
    · exact Target.allKeys_pipeline.mp hu n hold
  | @insertBranch path kind b branches =>
    refine Target.allKeys_array.mpr fun p hp => ?_
    rcases mem_insertAfter hp with rfl | hold
    · exact hblank kind
    · exact Target.allKeys_array.mp hu p hold
  | @insertEntry path kind k entries =>
    obtain ⟨hkeys, hbranches⟩ := Target.allKeys_object.mp hu
    refine Target.allKeys_object.mpr ⟨?_, fun e he => ?_⟩
    · exact hP.put hkeys (Entries.freshKey_ne_empty entries stem) _
    · rcases Entries.mem_put he with hold | rfl
      · exact hbranches e hold
      · exact hblank kind
  | appendBranch =>
    refine Target.allKeys_array.mpr fun p hp => ?_
    rcases List.mem_append.mp hp with hold | hlast
    · exact Target.allKeys_array.mp hu p hold
    · obtain rfl := List.mem_singleton.mp hlast
      exact trivial
  | removeNode =>
    exact Target.allKeys_pipeline.mpr fun n hn =>
      Target.allKeys_pipeline.mp hu n (List.mem_of_mem_eraseIdx hn)
  | removeItem =>
    exact Target.allKeys_array.mpr fun p hp =>
      Target.allKeys_array.mp hu p (List.mem_of_mem_eraseIdx hp)
  | @removeEntry path k entries =>
    obtain ⟨hkeys, hbranches⟩ := Target.allKeys_object.mp hu
    refine Target.allKeys_object.mpr ⟨?_, fun e he => hbranches e (Entries.mem_erase he)⟩
    rw [Entries.keys_erase]
    exact hP.erase _ k hkeys
  | @addProperty path key entries hkey =>
    obtain ⟨hkeys, hbranches⟩ := Target.allKeys_object.mp hu
    refine Target.allKeys_object.mpr ⟨hP.put hkeys hkey _, fun e he => ?_⟩
    rcases Entries.mem_put he with hold | rfl
    · exact hbranches e hold
    · exact hblank .filter
  | @renameProperty path key newKey entries hl hkey hnew =>
    obtain ⟨hkeys, hbranches⟩ := Target.allKeys_object.mp hu
    refine Target.allKeys_object.mpr ⟨?_, fun e he => ?_⟩
    · rcases hnew with rfl | hfree
      · rw [Entries.rename_self]
        exact hkeys
      · rw [Entries.keys_rename]
        exact hP.replace _ key newKey hkeys hfree hkey
    · have hvalue : e.2 ∈ entries.map Prod.snd := by
        rw [← Entries.map_snd_rename key newKey]
        exact List.mem_map_of_mem he
      obtain ⟨old, hold, heq⟩ := List.mem_map.mp hvalue
      rw [← heq]
      exact hbranches old hold

theorem keeps_allKeys (hP : KeyLaw P) :
    Mutation.Keeps (Pipeline.AllObjects fun entries => P entries.keys) := by
  intro stem m root root' hroot happly
  obtain ⟨u, u', hu, hacts, hw⟩ := applyWith_eq_ok_iff.mp happly
  have htree : (Target.pipeline root).AllKeys P := hroot
  have hwritten := htree.write hu (hacts.allKeys hP (htree.walk hu))
  rw [hw] at hwritten
  exact hwritten

end Mutation

/-! ## Whole runs -/

/-- **The keys of objects stay well formed.**  In a run that begins with a tree that was read or put
together, whatever the form of fresh keys, the keys of every object are distinct; and none is empty
when none was at the start. -/
theorem object_keys_stay_well_formed {root : Pipeline}
    (hroot : (∃ text, Document.ofText text = .ok (.ofRoot root)) ∨ root.Built)
    (stem : String) (maxLevels : Nat) {cs : List History.Command}
    (hcs : ∀ tree, .outside (.restore tree) ∉ cs) :
    let d := (History.run cs (.ofMaxLevels maxLevels)
      ((Document.ofRoot root).withFreshKeyPrefix stem)).2
    d.root.KeysDistinct ∧ (root.KeysNonempty → d.root.KeysNonempty) := by
  have hbuilt : root.Built := by
    rcases hroot with ⟨text, htext⟩ | hbuilt
    · obtain ⟨tree, htree, heq⟩ := Document.ofText_eq_ok_iff.mp htext
      obtain rfl : tree = root := congrArg Document.root heq
      exact Pipeline.built_of_ofText? htree
    · exact hbuilt
  have hrun : ∀ P, KeyLaw P → Pipeline.AllObjects (fun entries => P entries.keys) root →
      Pipeline.AllObjects (fun entries => P entries.keys)
        (History.run cs (.ofMaxLevels maxLevels)
          ((Document.ofRoot root).withFreshKeyPrefix stem)).2.root := by
    intro P hP h
    have hstart := History.Holds.start maxLevels
      (d := (Document.ofRoot root).withFreshKeyPrefix stem) h
    exact (hstart.run (Mutation.keeps_allKeys hP) cs fun tree htree => absurd htree (hcs tree)).root
  exact ⟨hrun _ keyLaw_nodup hbuilt.keysDistinct, hrun _ keyLaw_nonempty⟩

/-- A text with a key that repeats, fresh keys that are bare numbers, and a step that is taken back
and done again. -/
theorem object_keys_stay_well_formed_repeated :
    let text := "[\x7b\"items\":\x7b\"a\":[],\"b\":[],\"a\":[[\"filter\",\".x\"]]\x7d,\"type\":\"object\"\x7d]"
    let root : Pipeline := [.object [("a", [.filter ".x"]), ("b", [])]]
    let cs : List History.Command :=
      [.begin, .apply (.insertSibling [.index 0, .key "a"] .object),
        .apply (.renameProperty [.index 0, .key "b"] "c"), .undo, .redo,
        .outside (.mutate (.addProperty [.index 0] "a"))]
    let after : Document := ⟨6, [.object [("a", [.filter ""]), ("c", []), ("3", [.object []])]], ""⟩
    Document.ofText text = .ok (.ofRoot root) ∧
      (History.run cs (.ofMaxLevels 1) ((Document.ofRoot root).withFreshKeyPrefix "")).2 = after ∧
      after.root.KeysDistinct ∧ after.root.KeysNonempty := by
  intro text root cs after
  have hread : Document.ofText text = .ok (.ofRoot root) :=
    Document.ofText_eq_ok_iff.mpr ⟨root, by decide +kernel, rfl⟩
  have hcs : ∀ tree, .outside (.restore tree) ∉ cs := by simp [cs]
  have hrun : (History.run cs (.ofMaxLevels 1)
      ((Document.ofRoot root).withFreshKeyPrefix "")).2 = after := by decide
  have hkeys := object_keys_stay_well_formed (Or.inl ⟨text, hread⟩) "" 1 hcs
  rw [hrun] at hkeys
  exact ⟨hread, hrun, hkeys.1, hkeys.2 (by decide)⟩

end FilterEditor
