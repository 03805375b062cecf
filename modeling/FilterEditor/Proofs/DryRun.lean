import FilterEditor.Proofs.Framing
import FilterEditor.Proofs.FreshKey
import FilterEditor.Proofs.InPlace

/-!
# A dry run tells what the real edit will do

`Mutation.validate` and `Mutation.appliedTo` work on a copy and make up keys of the usual form,
while the edit itself makes them up as its document wants them.  Two edits that refuse the same things for
the same reasons refuse the same trees (`Edit.RefusesLike`), and a made-up key is never a reason to
refuse, since there is always a free one.

The keys show in one place.  Only an insertion into an object makes one up, and there it names the
last entry (`applyWith_insertEntry`).
-/

namespace FilterEditor

namespace Edit

variable {ε : Type} {e f : Edit ε}

/-- Whether an answer is an error, and which one. -/
def refusal {α : Type} (answer : Except ε α) : Except ε Unit :=
  answer.map fun _ => ()

theorem refusal_ok {α : Type} (a : α) : refusal (.ok a : Except ε α) = .ok () := rfl

theorem refusal_error {α : Type} (error : ε) : refusal (.error error : Except ε α) = .error error :=
  rfl

theorem refusal_map {α β : Type} (g : α → β) (answer : Except ε α) :
    refusal (answer.map g) = refusal answer := by
  cases answer <;> rfl

/-- Two edits that refuse the same places for the same reasons. -/
structure RefusesLike (e f : Edit ε) : Prop where
  missing_eq : e.missing = f.missing
  onTarget_eq : ∀ u, refusal (e.onTarget u) = refusal (f.onTarget u)

theorem RefusesLike.target_eq (h : RefusesLike e f) (path : Path) (t : Target) :
    refusal (e.target path t) = refusal (f.target path t) := by
  induction path generalizing t with
  | nil =>
    rw [target_nil, target_nil]
    exact h.onTarget_eq t
  | cons x rest ih =>
    rw [target_cons, target_cons]
    cases t.step? x with
    | none =>
      rw [h.missing_eq]
    | some u =>
      dsimp only
      rw [refusal_map, refusal_map]
      exact ih u

theorem RefusesLike.pipeline_eq (h : RefusesLike e f) (path : Path) (root : Pipeline) :
    refusal (e.pipeline path root) = refusal (f.pipeline path root) := by
  have htarget := h.target_eq path (.pipeline root)
  rw [target, target, refusal_map, refusal_map] at htarget
  exact htarget

end Edit

namespace Mutation

/-- The form of made-up keys shows in insertions of entries alone. -/
theorem edit_eq_of_ne {m : Mutation}
    (h : ∀ parent k kind, m ≠ .insertSibling (parent ++ [.key k]) kind) (stem stem' : String) :
    m.edit stem = m.edit stem' := by
  cases m with
  | insertSibling path kind =>
    rcases path.eq_nil_or_concat with rfl | ⟨parent, last, rfl⟩
    · rfl
    · rw [edit, edit, Path.split?_concat]
      cases last with
      | index i => rfl
      | branch b => rfl
      | key k => exact absurd rfl (h parent k kind)
  | _ => rfl

theorem edit_refusesLike (m : Mutation) (stem stem' : String) :
    (m.edit stem).RefusesLike (m.edit stem') := by
  by_cases h : ∃ parent k kind, m = .insertSibling (parent ++ [.key k]) kind
  · obtain ⟨parent, k, kind, rfl⟩ := h
    rw [edit, edit, Path.split?_concat]
    refine ⟨rfl, fun u => ?_⟩
    cases u with
    | pipeline p => exact (Edit.refusal_error _).trans (Edit.refusal_error _).symm
    | node n =>
      cases n with
      | filter value => exact (Edit.refusal_error _).trans (Edit.refusal_error _).symm
      | array branches => exact (Edit.refusal_error _).trans (Edit.refusal_error _).symm
      | object entries => exact (Edit.refusal_ok _).trans (Edit.refusal_ok _).symm
  · rw [edit_eq_of_ne (fun parent k kind heq => h ⟨parent, k, kind, heq⟩) stem stem']
    exact ⟨rfl, fun u => rfl⟩

/-- Whether a mutation fits does not depend on the form of made-up keys, nor does the reason why
not. -/
theorem refusal_applyWith (m : Mutation) (root : Pipeline) (stem stem' : String) :
    Edit.refusal (m.applyWith stem root) = Edit.refusal (m.applyWith stem' root) := by
  rw [applyWith_eq, applyWith_eq]
  exact (m.edit_refusesLike stem stem').pipeline_eq m.container root

theorem applyWith_insertEntry (stem k : String) (kind : Kind) {parent : Path} {root : Pipeline}
    {entries : Entries Pipeline} (h : root.node? parent = some (.object entries)) :
    ∃ next, (insertSibling (parent ++ [.key k]) kind).applyWith stem root = .ok next ∧
      root.withNode? parent
        (.object (entries ++ [(Entries.freshKey entries stem, [kind.blankNode])])) = some next := by
  obtain ⟨next, hnext, hwrite⟩ := Pipeline.exists_withNode? h
    (.object (entries ++ [(Entries.freshKey entries stem, [kind.blankNode])]))
  have hfresh := Entries.freshKey_not_mem entries stem
  have hcontainer : (insertSibling (parent ++ [.key k]) kind).container = parent := by
    rw [container, List.dropLast_concat]
  refine ⟨next, applyWith_eq_ok_iff.mpr ⟨.node (.object entries), _, ?_,
    .insertEntry List.getLast?_concat, ?_⟩, hnext⟩
  · rw [hcontainer]
    exact Pipeline.walk?_of_node? h
  · rw [hcontainer, Entries.put_of_not_mem hfresh]
    exact hwrite

theorem node?_of_insertEntry {stem : String} {parent : Path} {k : String} {kind : Kind}
    {root next : Pipeline}
    (h : (insertSibling (parent ++ [.key k]) kind).applyWith stem root = .ok next) :
    ∃ entries, root.node? parent = some (.object entries) := by
  obtain ⟨u, u', hu, hacts, -⟩ := applyWith_eq_ok_iff.mp h
  rw [container, List.dropLast_concat] at hu
  generalize hpath : parent ++ [Selector.key k] = path at hacts
  cases hacts with
  | insertFront => simp at hpath
  | insertNode hl => rw [← hpath, List.getLast?_concat] at hl; cases hl
  | insertBranch hl => rw [← hpath, List.getLast?_concat] at hl; cases hl
  | @insertEntry _ _ _ entries _ => exact ⟨entries, by rw [Pipeline.node?, hu]; rfl⟩

/-- **A dry run agrees with the real edit**, whatever the form of made-up keys: both accept, or both
refuse for the same reason and the tree stays.  The tree after the edit does not depend on that form
either, unless the edit inserts an entry; then only the name of the last entry does.  The copy is
the tree that the edit leaves. -/
theorem dry_run_agrees (m : Mutation) (root : Pipeline) :
    (∀ stem, (m.validate root = .ok () ∧ ∃ next, m.work stem root = .ok () next) ∨
        ∃ e, m.validate root = .error e ∧ m.work stem root = .error e root) ∧
      ((∀ parent k kind, m ≠ .insertSibling (parent ++ [.key k]) kind) →
        ∀ stem stem', m.work stem root = m.work stem' root) ∧
      (∀ parent k kind, m = .insertSibling (parent ++ [.key k]) kind → m.validate root = .ok () →
        ∃ entries, root.node? parent = some (.object entries) ∧
          ∀ stem, Entries.freshKey entries stem ∉ Entries.keys entries ∧
            ∃ next, m.work stem root = .ok () next ∧
              root.withNode? parent (.object (entries ++
                [(Entries.freshKey entries stem, [kind.blankNode])])) = some next) ∧
      (m.work defaultFreshKeyPrefix root = .ok () (m.appliedTo root) ∨
        ∃ e, m.work defaultFreshKeyPrefix root = .error e root ∧ m.appliedTo root = root) := by
  refine ⟨fun stem => ?_, fun hm stem stem' => ?_, ?_, ?_⟩
  · have hrefusal := refusal_applyWith m root defaultFreshKeyPrefix stem
    rw [work_eq]
    cases hstem : m.applyWith stem root with
    | ok next =>
      rw [hstem] at hrefusal
      exact Or.inl ⟨hrefusal, next, Work.atomic_of_ok hstem⟩
    | error e =>
      rw [hstem] at hrefusal
      exact Or.inr ⟨e, hrefusal, Work.atomic_of_error hstem⟩
  · have hpure : m.applyWith stem = m.applyWith stem' := by
      funext tree
      rw [applyWith_eq, applyWith_eq, edit_eq_of_ne hm stem stem']
    rw [work_eq, work_eq, hpure]
  · rintro parent k kind rfl hvalid
    cases happly : (insertSibling (parent ++ [.key k]) kind).apply root with
    | error e =>
      rw [validate, happly] at hvalid
      cases hvalid
    | ok usual =>
      obtain ⟨entries, hentries⟩ := node?_of_insertEntry happly
      refine ⟨entries, hentries, fun stem => ⟨Entries.freshKey_not_mem entries stem, ?_⟩⟩
      obtain ⟨next, hnext, hwith⟩ := applyWith_insertEntry stem k kind hentries
      refine ⟨next, ?_, hwith⟩
      rw [work_eq, Work.atomic_of_ok hnext]
  · rw [work_eq, appliedTo]
    cases happly : m.apply root with
    | ok next => exact Or.inl (Work.atomic_of_ok happly)
    | error e => exact Or.inr ⟨e, Work.atomic_of_error happly, rfl⟩

/-- The same insertion under two forms of keys, where the first numbers are taken in both; and a
mutation that makes up no key. -/
theorem dry_run_agrees_taken_keys :
    let entries : Entries Pipeline := [("newProperty3", [.filter "."]), ("3", [])]
    let root : Pipeline := [.filter ".a", .object entries]
    let insertion : Mutation := .insertSibling [.index 1, .key "b"] .array
    let removal : Mutation := .removeBranch [.index 1, .key "3"]
    insertion.validate root = .ok () ∧
      (∃ next, insertion.work "" root = .ok () next ∧
        root.withNode? [.index 1] (.object (entries ++ [("4", [.array []])])) = some next) ∧
      (∃ next, insertion.work "newProperty" root = .ok () next ∧
        root.withNode? [.index 1] (.object (entries ++ [("newProperty4", [.array []])])) =
          some next) ∧
      removal.work "" root = removal.work "newProperty" root := by
  intro entries root insertion removal
  have hvalid : insertion.validate root = .ok () := by rfl
  obtain ⟨-, -, hinsert, -⟩ := dry_run_agrees insertion root
  obtain ⟨found, hfound, hnext⟩ := hinsert [.index 1] "b" .array rfl hvalid
  obtain rfl : entries = found := by
    have hentries : root.node? [.index 1] = some (.object entries) := by decide
    exact Node.object.inj (Option.some.inj (hentries.symm.trans hfound))
  have hshort : Entries.freshKey entries "" = "4" := by decide
  have hlong : Entries.freshKey entries "newProperty" = "newProperty4" := by decide
  obtain ⟨-, next, hwork, hwith⟩ := hnext ""
  obtain ⟨-, next', hwork', hwith'⟩ := hnext "newProperty"
  rw [hshort] at hwith
  rw [hlong] at hwith'
  obtain ⟨-, hsame, -, -⟩ := dry_run_agrees removal root
  exact ⟨hvalid, ⟨next, hwork, hwith⟩, ⟨next', hwork', hwith'⟩,
    hsame (fun _ _ _ => nofun) "" "newProperty"⟩

end Mutation

end FilterEditor
