import FilterEditor.Proofs.View

/-!
# A mutation that does not fit changes nothing

The work of a mutation is done in place, on the tree that the document holds, and the layers above
look at its answer only after it is done.  So whatever a refused mutation left behind would stay: in
the tree, in the step that is held open, in the generation.  It leaves nothing behind, neither in
the tree (`Mutation.work_eq`) nor in any layer above it.
-/

namespace FilterEditor

variable {m : Mutation} {e : MutationError}

theorem Document.eq_of_apply_ignored {d : Document} (h : (d.apply m).1 = .ignored e) :
    (d.apply m).2 = d := by
  cases hm : m.applyWith d.freshKeyPrefix d.root with
  | ok root =>
    rw [Document.apply_of_ok hm] at h
    cases h
  | error e' => rw [Document.apply_of_error hm]

theorem History.eq_of_apply_ignored {h : History} {d : Document}
    (hign : (h.apply m d).1 = .ignored e) : (h.apply m d).2 = (h, d) := by
  cases hm : m.applyWith d.freshKeyPrefix d.root with
  | ok root =>
    rw [History.apply_of_ok hm] at hign
    cases hign
  | error e' => rw [History.apply_of_error hm]

theorem Session.eq_of_apply_ignored {s : Session} (h : (s.apply m).1 = .ignored e) :
    (s.apply m).2 = s := by
  cases hm : m.applyWith s.document.freshKeyPrefix s.document.root with
  | ok root =>
    obtain ⟨happlied, -, -⟩ := Session.apply_of_ok hm
    rw [happlied] at h
    cases h
  | error e' => rw [Session.apply_of_error hm]

/-- **A mutation that does not fit changes nothing.**  The tree on which it has worked is the tree
it was given, entry by entry, and the document, the history and the session that hold the tree are
the same as before in all their parts. -/
theorem misfit_changes_nothing (stem : String) (m : Mutation) (e : MutationError)
    (root left : Pipeline) (d : Document) (h : History) (s : Session) :
    (m.work stem root = .error e left → left = root) ∧
      ((d.apply m).1 = .ignored e → (d.apply m).2 = d) ∧
      ((h.apply m d).1 = .ignored e → (h.apply m d).2 = (h, d)) ∧
      ((s.apply m).1 = .ignored e → (s.apply m).2 = s) := by
  refine ⟨fun hwork => ?_, ?_, ?_, ?_⟩
  · exact (Mutation.eq_of_work_eq_error hwork).1
  · exact Document.eq_of_apply_ignored
  · exact History.eq_of_apply_ignored
  · exact Session.eq_of_apply_ignored

/-- A removal of an entry that is not there, and then a renaming to a key that is taken, while a
step is held open, another one can be done again and a place is selected. -/
theorem misfit_changes_nothing_entries :
    let root : Pipeline := [.object [("a", [.filter "."]), ("b", [])]]
    let removal : Mutation := .removeBranch [.index 0, .key "c"]
    let newName : Mutation := .renameProperty [.index 0, .key "a"] "b"
    let s := Session.run
      [.apply (.addProperty [.index 0] "c"), .undo, .toggleSelection [.index 0, .key "b"],
        .begin "", .apply (.setFilterValue [.index 0, .key "a", .index 0] ".x")]
      (Session.ofConfig "" (.ofRoot root) .standard)
    (∃ left, removal.work "" root = .error (.notFound removal.path) left ∧ left = root) ∧
      (s.apply newName).1 = .ignored (.duplicateKey "b") ∧ (s.apply newName).2 = s := by
  intro root removal newName s
  have hwork : removal.work "" root = .error (.notFound removal.path) root := by rfl
  obtain ⟨htree, -⟩ := misfit_changes_nothing "" removal _ root root s.document s.history s
  have hign : (s.apply newName).1 = .ignored (.duplicateKey "b") := by decide
  obtain ⟨-, -, -, hsession⟩ := misfit_changes_nothing "" newName _ root root s.document s.history s
  exact ⟨⟨root, hwork, htree hwork⟩, hign, hsession hign⟩

end FilterEditor
