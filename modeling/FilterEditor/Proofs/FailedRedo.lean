import FilterEditor.History.Command
import FilterEditor.Proofs.History

/-!
# A redo that fails is clean

Redo applies the mutations of a step one after the other, each to the tree that the one before has
left.  Where the document was changed from outside the last of them that fits may be far from the
first, so that a redo which fails has already changed the tree.  `Step.replay_of_misfit` says where a
replay stops and what it has done by then.  Only the tree and the version can differ at that point;
the tree is put back, so what stays is the number of changes (`failed_redo_is_clean`).

A replay goes by the tree and the form of fresh keys alone, and both are as they were.  So the same
redo fails again, in the same way.
-/

namespace FilterEditor

/-! ## Where a replay stops -/

namespace Step

/-- The mutations before the first one that does not fit are done, and no more. -/
theorem replay_of_misfit {done rest : List Mutation} {m : Mutation} {d : Document}
    {tree : Pipeline} {e : MutationError}
    (hdone : Mutation.applyAll d.freshKeyPrefix done d.root = .ok tree)
    (hm : m.applyWith d.freshKeyPrefix tree = .error e) :
    replay (done ++ m :: rest) d =
      ({ d with version := d.version + done.length, root := tree }, some e) := by
  induction done generalizing d with
  | nil =>
    cases hdone
    rw [List.nil_append, replay, Document.edit_of_error hm]
    rfl
  | cons first others ih =>
    obtain ⟨middle, hfirst, hothers⟩ := Mutation.applyAll_cons_eq_ok_iff.mp hdone
    have hrest := ih (d := d.restore middle) hothers hm
    rw [List.cons_append, replay, Document.edit_of_ok hfirst]
    refine hrest.trans ?_
    rw [List.length_cons, Nat.add_comm others.length, ← Nat.add_assoc]
    rfl

theorem exists_misfit_of_replay {ms : List Mutation} {d d' : Document} {e : MutationError}
    (h : replay ms d = (d', some e)) :
    ∃ done m rest tree, ms = done ++ m :: rest ∧
      Mutation.applyAll d.freshKeyPrefix done d.root = .ok tree ∧
      m.applyWith d.freshKeyPrefix tree = .error e := by
  induction ms generalizing d with
  | nil => cases h
  | cons first others ih =>
    rw [replay] at h
    cases hfirst : first.applyWith d.freshKeyPrefix d.root with
    | error e' =>
      rw [Document.edit_of_error hfirst] at h
      cases h
      exact ⟨[], first, others, _, rfl, rfl, hfirst⟩
    | ok middle =>
      rw [Document.edit_of_ok hfirst] at h
      obtain ⟨done, m, rest, tree, rfl, hdone, hm⟩ := ih h
      exact ⟨first :: done, m, rest, tree, rfl,
        Mutation.applyAll_cons_eq_ok_iff.mpr ⟨middle, hfirst, hdone⟩, hm⟩

end Step

/-! ## Redo -/

namespace History

theorem redo_of_misfit_at {h : History} {d : Document} {s : Step} {future : List Step}
    {done rest : List Mutation} {m : Mutation} {tree : Pipeline} {e : MutationError}
    (hf : h.finish.future = s :: future) (hs : s.mutations = done ++ m :: rest)
    (hdone : Mutation.applyAll d.freshKeyPrefix done d.root = .ok tree)
    (hm : m.applyWith d.freshKeyPrefix tree = .error e) :
    h.redo d = (.error e, h.finish, { d with version := d.version + done.length + 1 }) :=
  redo_of_misfit hf ((congrArg (Step.replay · d) hs).trans (Step.replay_of_misfit hdone hm))

/-- Redo fails on the first mutation of the step that does not fit. -/
theorem exists_misfit_of_redo {h : History} {d : Document} {e : MutationError}
    (hfail : (h.redo d).1 = .error e) :
    ∃ s future done m rest tree, h.finish.future = s :: future ∧
      s.mutations = done ++ m :: rest ∧
      Mutation.applyAll d.freshKeyPrefix done d.root = .ok tree ∧
      m.applyWith d.freshKeyPrefix tree = .error e := by
  have hredone := h.redone d
  generalize h.redo d = result at hredone hfail
  cases hredone with
  | nothing => cases hfail
  | done => cases hfail
  | misfit hf hr =>
    obtain rfl := Except.error.inj hfail
    obtain ⟨done, m, rest, tree, hs, hdone, hm⟩ := Step.exists_misfit_of_replay hr
    exact ⟨_, _, done, m, rest, tree, hf, hs, hdone, hm⟩

/-- **A redo that fails is clean.**  It fails with the error of the first mutation of the step that
does not fit the tree left by those before it.  Then the past, the future, the tree and the form of
fresh keys are as they were; an open step is closed, but nothing had been applied in it.  The
version counts the mutations that were done and the putting back of the tree.  To redo again fails
with the same error. -/
theorem failed_redo_is_clean {h : History} {d : Document} {e : MutationError}
    (hfail : (h.redo d).1 = .error e) :
    ∃ s future done m rest tree, h.future = s :: future ∧ s.mutations = done ++ m :: rest ∧
      Mutation.applyAll d.freshKeyPrefix done d.root = .ok tree ∧
      m.applyWith d.freshKeyPrefix tree = .error e ∧
      (∀ t, h.openStep = some t → t.mutations = []) ∧
      (h.redo d).2 =
        ({ h with openStep := none }, { d with version := d.version + done.length + 1 }) ∧
      ((h.redo d).2.1.redo (h.redo d).2.2).1 = .error e := by
  obtain ⟨s, future, done, m, rest, tree, hf, hs, hdone, hm⟩ := exists_misfit_of_redo hfail
  obtain ⟨hblank, hfinish⟩ := finish_of_future_cons hf
  have hredo := redo_of_misfit_at hf hs hdone hm
  rw [hfinish] at hf hredo
  refine ⟨s, future, done, m, rest, tree, hf, hs, hdone, hm, hblank, ?_, ?_⟩
  · rw [hredo]
  · have hclosed : ({ h with openStep := none } : History).finish.future = s :: future := by
      rw [finish_of_closed rfl]
      exact hf
    have hagain := redo_of_misfit_at (d := { d with version := d.version + done.length + 1 })
      hclosed hs hdone hm
    rw [hredo]
    exact congrArg Prod.fst hagain

/-- A step of three is taken back, and then a node is removed from outside that the third mutation
removes.  Two mutations are done before redo fails, with a blank step open. -/
theorem failed_redo_is_clean_half_way :
    let cs : List Command :=
      [.begin, .apply (.setFilterValue [.index 0] ".b"), .apply (.appendBranch [.index 1]),
        .apply (.removeNode [.index 2]), .undo, .outside (.mutate (.removeNode [.index 2])), .begin]
    let start := Document.ofRoot [.filter ".a", .array [], .filter ".c"]
    let h := (run cs (.ofMaxLevels 100) start).1
    let d := (run cs (.ofMaxLevels 100) start).2
    let error := MutationError.notFound [.index 2]
    (h.redo d).1 = .error error ∧ (h.redo d).2.1 = { h with openStep := none } ∧
      (h.redo d).2.2.root = d.root ∧ (h.redo d).2.2.version = d.version + 2 + 1 ∧
      ((h.redo d).2.1.redo (h.redo d).2.2).1 = .error error := by
  intro cs start h d error
  have hh : h = ⟨100, [], [⟨[.setFilterValue [.index 0] ".b", .appendBranch [.index 1],
      .removeNode [.index 2]], start.root, none⟩], some .blank⟩ := by decide
  have hd : d = ⟨5, [.filter ".a", .array []], start.freshKeyPrefix⟩ := by decide
  have hfail : (h.redo d).1 = .error error := by
    rw [hh, hd]
    rfl
  obtain ⟨s, future, done, m, rest, tree, -, -, -, -, -, hstate, hagain⟩ :=
    failed_redo_is_clean hfail
  have hversion : (h.redo d).2.2.version = d.version + 2 + 1 := by decide
  refine ⟨hfail, ?_, ?_, hversion, hagain⟩
  · rw [hstate]
  · rw [hstate]

end History

end FilterEditor
