import FilterEditor.Proofs.Framing

/-!
# When a mutation fits

A mutation comes with a path, and whether it applies is a matter of what the path addresses: a
filter, an array, an object, some node, some branch.  `Mutation.Fits` says this with
`Pipeline.resolve?` alone, for each mutation in one line.  It knows nothing of containers, of the
order in which things are checked, or of what an error would be.

An insertion asks for less than a removal.  It asks for the place in which it inserts, and of the
last selector only that it is of the right sort: the position may be past the end and the key unknown.

The two halves of `applies_iff_fits` go through the rules of `Mutation.Acts`: a rule that fits the
container gives what is asked for (`Acts.fits`), and what is asked for is what some rule needs
(`Fits.exists_acts`).
-/

namespace FilterEditor

variable {root : Pipeline} {path : Path} {x : Selector}

theorem Path.eq_of_getLast?_concat {y : Selector} (h : (path ++ [x]).getLast? = some y) : x = y :=
  Option.some.inj (List.getLast?_concat.symm.trans h)

theorem Path.exists_parent {u : Target} (hl : path.getLast? = some x)
    (hu : root.resolve? path.dropLast = some u) :
    ∃ parent, path = parent ++ [x] ∧ root.resolve? parent = some u := by
  obtain ⟨parent, rfl⟩ := List.getLast?_eq_some_iff.mp hl
  rw [List.dropLast_concat] at hu
  exact ⟨parent, rfl, hu⟩

namespace Mutation

variable {stem : String} {m : Mutation} {u u' : Target}

/-- What a mutation asks of a tree, said of the places that its path addresses. -/
def Fits (m : Mutation) (root : Pipeline) : Prop :=
  match m with
  | setFilterValue path _ => ∃ text, root.resolve? path = some (.node (.filter text))
  | appendBranch path => ∃ branches, root.resolve? path = some (.node (.array branches))
  | addProperty path key =>
    key ≠ "" ∧ ∃ entries, root.resolve? path = some (.node (.object entries))
  | removeNode path => ∃ n, root.resolve? path = some (.node n)
  | removeBranch path => path ≠ [] ∧ ∃ p, root.resolve? path = some (.pipeline p)
  | renameProperty path newKey =>
    newKey ≠ "" ∧ ∃ parent key entries,
      path = parent ++ [.key key] ∧ (root.resolve? path).isSome ∧
        root.resolve? parent = some (.node (.object entries)) ∧
        (newKey = key ∨ newKey ∉ Entries.keys entries)
  | insertSibling path _ =>
    path = [] ∨
      (∃ parent i p, path = parent ++ [.index i] ∧ root.resolve? parent = some (.pipeline p)) ∨
      (∃ parent b branches, path = parent ++ [.branch b] ∧
        root.resolve? parent = some (.node (.array branches))) ∨
      ∃ parent k entries, path = parent ++ [.key k] ∧
        root.resolve? parent = some (.node (.object entries))

/-- A mutation applies when its container is there and a rule fits it; writing back never fails. -/
theorem applies_iff_acts : (∃ root', m.applyWith stem root = .ok root') ↔
    ∃ u u', root.resolve? m.container = some u ∧ m.Acts stem u u' := by
  constructor
  · rintro ⟨root', happly⟩
    obtain ⟨u, u', hu, hacts, -⟩ := applyWith_eq_ok_iff.mp happly
    exact ⟨u, u', hu, hacts⟩
  · rintro ⟨u, u', hu, hacts⟩
    obtain ⟨root', hw⟩ := Target.exists_write_eq_pipeline hu hacts.isNode_eq
    exact ⟨root', applyWith_eq_ok_iff.mpr ⟨u, u', hu, hacts, hw⟩⟩

theorem exists_resolve?_key {parent : Path} {key : String} {entries : Entries Pipeline}
    (hparent : root.resolve? parent = some (.node (.object entries)))
    (hkey : key ∈ Entries.keys entries) :
    ∃ p, root.resolve? (parent ++ [.key key]) = some (.pipeline p) := by
  obtain ⟨p, hp⟩ := Option.isSome_iff_exists.mp (Entries.get?_isSome_iff.mpr hkey)
  exact ⟨p, Pipeline.resolve?_concat hparent (.key hp)⟩

theorem not_mem_keys_of_resolve?_eq_none {key : String} {entries : Entries Pipeline}
    (hobject : root.resolve? path = some (.node (.object entries)))
    (hnone : root.resolve? (path ++ [.key key]) = none) : key ∉ Entries.keys entries := by
  intro hkey
  obtain ⟨p, hp⟩ := exists_resolve?_key hobject hkey
  rw [hnone] at hp
  cases hp

/-- **A rule that fits the container gives what the mutation asks for.** -/
theorem Acts.fits (h : m.Acts stem u u') (hu : root.resolve? m.container = some u) :
    m.Fits root := by
  cases h with
  | @setFilterValue path value old => exact ⟨old, hu⟩
  | insertFront => exact Or.inl rfl
  | @insertNode path kind i p hl =>
    obtain ⟨parent, rfl, hparent⟩ := Path.exists_parent hl hu
    exact Or.inr (Or.inl ⟨parent, i, p, rfl, hparent⟩)
  | @insertBranch path kind b branches hl =>
    obtain ⟨parent, rfl, hparent⟩ := Path.exists_parent hl hu
    exact Or.inr (Or.inr (Or.inl ⟨parent, b, branches, rfl, hparent⟩))
  | @insertEntry path kind k entries hl =>
    obtain ⟨parent, rfl, hparent⟩ := Path.exists_parent hl hu
    exact Or.inr (Or.inr (Or.inr ⟨parent, k, entries, rfl, hparent⟩))
  | @appendBranch path branches => exact ⟨branches, hu⟩
  | @removeNode path i p hl hi =>
    obtain ⟨parent, rfl, hparent⟩ := Path.exists_parent hl hu
    exact ⟨p[i], Pipeline.resolve?_concat hparent (.index (List.getElem?_eq_getElem hi))⟩
  | @removeItem path b branches hl hb =>
    obtain ⟨parent, rfl, hparent⟩ := Path.exists_parent hl hu
    exact ⟨by simp, branches[b],
      Pipeline.resolve?_concat hparent (.branch (List.getElem?_eq_getElem hb))⟩
  | @removeEntry path k entries hl hk =>
    obtain ⟨parent, rfl, hparent⟩ := Path.exists_parent hl hu
    exact ⟨by simp, exists_resolve?_key hparent hk⟩
  | @addProperty path key entries hkey => exact ⟨hkey, entries, hu⟩
  | @renameProperty path key newKey entries hl hne hnew hk =>
    obtain ⟨parent, rfl, hparent⟩ := Path.exists_parent hl hu
    obtain ⟨p, hp⟩ := exists_resolve?_key hparent hk
    exact ⟨hne, parent, key, entries, rfl, by rw [hp]; rfl, hparent, hnew.imp_left Eq.symm⟩

/-- **What a mutation asks for is what some rule needs.** -/
theorem Fits.exists_acts (h : m.Fits root) (stem : String) :
    ∃ u u', root.resolve? m.container = some u ∧ m.Acts stem u u' := by
  cases m with
  | setFilterValue path value =>
    obtain ⟨text, htext⟩ := h
    exact ⟨_, _, htext, .setFilterValue⟩
  | appendBranch path =>
    obtain ⟨branches, hbranches⟩ := h
    exact ⟨_, _, hbranches, .appendBranch⟩
  | addProperty path key =>
    obtain ⟨hkey, entries, hentries⟩ := h
    exact ⟨_, _, hentries, .addProperty hkey⟩
  | removeNode path =>
    obtain ⟨n, hn⟩ := h
    obtain ⟨parent, i, p, rfl, hparent, hi⟩ := Target.exists_parent_of_walk? hn
    refine ⟨.pipeline p, _, ?_, .removeNode List.getLast?_concat (List.getElem?_eq_some_iff.mp hi).1⟩
    rw [container, List.dropLast_concat]
    exact hparent
  | removeBranch path =>
    obtain ⟨hne, q, hq⟩ := h
    obtain ⟨parent, last, rfl⟩ := path.eq_nil_or_concat.resolve_left hne
    obtain ⟨u, hu, hchild⟩ := Pipeline.resolve?_concat_eq_some_iff.mp hq
    simp only [container, List.dropLast_concat]
    cases hchild with
    | branch hb =>
      exact ⟨_, _, hu, .removeItem List.getLast?_concat (List.getElem?_eq_some_iff.mp hb).1⟩
    | key hk =>
      have hmem := Entries.mem_keys_of_get? hk
      exact ⟨_, _, hu, .removeEntry List.getLast?_concat hmem⟩
  | renameProperty path newKey =>
    obtain ⟨hne, parent, key, entries, rfl, hres, hparent, hnew⟩ := h
    have hkey : key ∈ Entries.keys entries := by
      obtain ⟨v, hv⟩ := Option.isSome_iff_exists.mp hres
      obtain ⟨u, hu, hchild⟩ := Pipeline.resolve?_concat_eq_some_iff.mp hv
      obtain rfl := Option.some.inj (hparent.symm.trans hu)
      cases hchild with
      | key hk => exact Entries.mem_keys_of_get? hk
    simp only [container, List.dropLast_concat]
    exact ⟨_, _, hparent,
      .renameProperty List.getLast?_concat hne (hnew.imp_left Eq.symm) hkey⟩
  | insertSibling path kind =>
    rcases h with rfl | ⟨parent, i, p, rfl, hparent⟩ | ⟨parent, b, branches, rfl, hparent⟩ |
      ⟨parent, k, entries, rfl, hparent⟩
    · exact ⟨.pipeline root, _, rfl, .insertFront⟩
    · simp only [container, List.dropLast_concat]
      exact ⟨_, _, hparent, .insertNode List.getLast?_concat⟩
    · simp only [container, List.dropLast_concat]
      exact ⟨_, _, hparent, .insertBranch List.getLast?_concat⟩
    · simp only [container, List.dropLast_concat]
      exact ⟨_, _, hparent, .insertEntry List.getLast?_concat⟩

/-- **A mutation applies exactly when it fits**, whatever the text that fresh keys begin with. -/
theorem applies_iff_fits (stem : String) (m : Mutation) (root : Pipeline) :
    (∃ root', m.applyWith stem root = .ok root') ↔ m.Fits root := by
  rw [applies_iff_acts]
  constructor
  · rintro ⟨u, u', hu, hacts⟩
    exact hacts.fits hu
  · exact fun hfits => hfits.exists_acts stem

end Mutation

end FilterEditor
