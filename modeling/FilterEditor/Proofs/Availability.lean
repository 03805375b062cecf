import FilterEditor.Proofs.Timeline

/-!
# Whether a step can be undone or done again

Undo and redo close the open step before they look for a step to move.  The flags `canUndo` and
`canRedo` look at the closed steps alone.  Once a mutation has been applied in the open step the two
differ: undo will find that step, and redo will find nothing, for closing the step empties the redo
side.  `availability` says of every state what undo and redo answer, and when the flags say the
same.

That redo answers at all, and does not fail on a step that no longer fits, is a fact about states
that a run reaches; it comes from the timeline that the history tracks.
-/

namespace FilterEditor

theorem Tracks.run {stem : String} {h : History} {d : Document} {t : Timeline}
    {cs : List History.Command} (ht : Tracks stem h d t) (hcs : ∀ c ∈ cs, c.isInside) :
    ∃ t', Tracks stem (History.run cs h d).1 (History.run cs h d).2 t' := by
  induction cs generalizing h d t with
  | nil => exact ⟨t, ht⟩
  | cons c rest ih =>
    obtain ⟨-, hnext⟩ := ht.perform (hcs c List.mem_cons_self)
    exact ih hnext fun c hc => hcs c (List.mem_cons_of_mem _ hc)

namespace History

/-- Whether a mutation has been applied in the open step. -/
def isPending (h : History) : Bool :=
  h.openStep.any fun s => !s.mutations.isEmpty

variable {h : History} {d : Document}

theorem isPending_iff : h.isPending = true ↔ ∃ s, h.openStep = some s ∧ s.mutations ≠ [] := by
  rw [isPending]
  cases h.openStep with
  | none => simp
  | some s => simp

theorem phase_ne_begun (hp : h.isPending = false) : Timeline.Phase.of h.openStep ≠ .begun := by
  intro hbegun
  rw [isPending_iff.mpr (Timeline.Phase.of_eq_begun_iff.mp hbegun)] at hp
  cases hp

/-! ## What undo and redo find -/

theorem finish_of_pending (hp : h.isPending = true) :
    (∃ s past, h.finish.past = s :: past) ∧ h.finish.future = [] := by
  obtain ⟨s, hs, hne⟩ := isPending_iff.mp hp
  obtain ⟨kept, hkept⟩ := trim_cons h.maxLevels h.past
  exact ⟨⟨s, kept, (past_finish_of_begun hs hne).trans (hkept s)⟩, future_finish_of_begun hs hne⟩

theorem undo_done (h : History) (d : Document) : (h.undo d).1 = (h.canUndo || h.isPending) := by
  cases hp : h.isPending with
  | true =>
    obtain ⟨⟨s, past, hpast⟩, -⟩ := finish_of_pending hp
    rw [undo_of_cons hpast, Bool.or_true]
  | false =>
    have hfinish : h.finish.past = h.past := past_finish (phase_ne_begun hp)
    rw [Bool.or_false, canUndo]
    cases hpast : h.past with
    | nil =>
      rw [undo_of_nil (hfinish.trans hpast)]
      rfl
    | cons s past =>
      rw [undo_of_cons (hfinish.trans hpast)]
      rfl

/-- A step on the redo side of a history that tracks a timeline fits. -/
theorem redo_done {stem : String} {t : Timeline} (ht : Tracks stem h d t) :
    (h.redo d).1 = .ok (h.canRedo && !h.isPending) := by
  have hanswer : (h.redo d).1 = .ok (!h.finish.future.isEmpty) := by
    obtain ⟨rfl, -, hroot, -, -, hredoes⟩ := ht
    rw [← hroot] at hredoes
    cases hf : h.finish.future with
    | nil =>
      rw [redo_of_nil hf]
      rfl
    | cons s future =>
      rw [hf] at hredoes
      generalize t.future = trees at hredoes
      cases hredoes with
      | cons hleads hrest =>
        obtain ⟨d', hreplay, -, -⟩ := Step.replay_of_applyAll hleads.replays
        rw [redo_of_replay hf hreplay]
        rfl
  rw [hanswer]
  cases hp : h.isPending with
  | true =>
    obtain ⟨-, hfuture⟩ := finish_of_pending hp
    rw [hfuture, Bool.not_true, Bool.and_false]
    rfl
  | false =>
    rw [future_finish (phase_ne_begun hp), Bool.not_false, Bool.and_true]
    rfl

/-! ## After a mutation -/

/-- A lone mutation empties the redo side; one in an open step leaves it to the closing. -/
theorem canRedo_record (h : History) (m : Mutation) (before : Pipeline) :
    (h.record m before).canRedo = (h.canRedo && h.openStep.isSome) := by
  rw [record]
  cases hs : h.openStep with
  | none =>
    rw [Option.isSome_none, Bool.and_false]
    rfl
  | some s =>
    rw [Option.isSome_some, Bool.and_true]
    rfl

theorem isPending_record (h : History) (m : Mutation) (before : Pipeline) :
    (h.record m before).isPending = h.openStep.isSome := by
  rw [record]
  cases hs : h.openStep with
  | none =>
    have hopen : (h.push (.single m before)).openStep = none := hs
    rw [isPending, hopen]
    rfl
  | some s => simp [isPending, Step.record]

/-- Whether or not a step is open, there is nothing to do again after a mutation. -/
theorem redo_done_apply {stem : String} {t : Timeline} (ht : Tracks stem h d t) {m : Mutation}
    (happlied : (h.apply m d).1.isApplied) :
    (h.apply m d).2.1.canRedo = (h.canRedo && h.openStep.isSome) ∧
      ((h.apply m d).2.1.redo (h.apply m d).2.2).1 = .ok false := by
  have hnext : Tracks stem (h.apply m d).2.1 (h.apply m d).2.2 (t.apply stem m).2 := (ht.apply m).2
  have hredo := redo_done hnext
  cases hm : m.applyWith d.freshKeyPrefix d.root with
  | error e =>
    rw [apply_of_error hm] at happlied
    cases happlied
  | ok root =>
    rw [apply_of_ok hm] at hredo ⊢
    rw [canRedo_record, isPending_record] at hredo
    refine ⟨canRedo_record h m d.root, hredo.trans ?_⟩
    cases h.openStep.isSome
    · rw [Bool.and_false, Bool.false_and]
    · rw [Bool.not_true, Bool.and_false]

/-- **Whether a step can be undone or done again.**  Undo has a step to take back when one is closed
or something has been applied in the open one, and redo has one to do again when one has been taken
back and nothing has been applied in the open one.  So the flags tell what the two answer except
when something has been applied in the open step, and then only if another step is closed and none
has been taken back.  Redo has nothing to do after a mutation; the flag says so unless a step is
open. -/
theorem availability (maxLevels : Nat) (document : Document) (cs : List Command)
    (hcs : ∀ c ∈ cs, c.isInside) :
    let h := (run cs (.ofMaxLevels maxLevels) document).1
    let d := (run cs (.ofMaxLevels maxLevels) document).2
    (h.undo d).1 = (h.canUndo || h.isPending) ∧
      (h.redo d).1 = .ok (h.canRedo && !h.isPending) ∧
      ((h.undo d).1 = h.canUndo ∧ (h.redo d).1 = .ok h.canRedo ↔
        (h.isPending → h.canUndo ∧ ¬ h.canRedo)) ∧
      ∀ m, (h.apply m d).1.isApplied →
        (h.apply m d).2.1.canRedo = (h.canRedo && h.openStep.isSome) ∧
          ((h.apply m d).2.1.redo (h.apply m d).2.2).1 = .ok false := by
  intro h d
  obtain ⟨t, ht⟩ := (Tracks.start maxLevels document).run hcs
  have hundo : (h.undo d).1 = (h.canUndo || h.isPending) := undo_done h d
  have hredo : (h.redo d).1 = .ok (h.canRedo && !h.isPending) := redo_done ht
  refine ⟨hundo, hredo, ?_, fun m happlied => redo_done_apply ht happlied⟩
  rw [hundo, hredo]
  cases h.isPending <;> cases h.canUndo <;> cases h.canRedo <;> simp

/-- Two lone mutations, of which the later is taken back: there is a step to undo and one to do
again. -/
theorem availability_closed :
    let cs : List Command :=
      [.apply (.setFilterValue [.index 0] ".a"), .apply (.setFilterValue [.index 0] ".b"), .undo]
    let h := (run cs (.ofMaxLevels 2) .new).1
    let d := (run cs (.ofMaxLevels 2) .new).2
    (∀ c ∈ cs, c.isInside) ∧ (h.isPending → h.canUndo ∧ ¬ h.canRedo) ∧
      (h.undo d).1 = h.canUndo ∧ (h.redo d).1 = .ok h.canRedo := by
  intro cs h d
  have hcs : ∀ c ∈ cs, c.isInside := by decide
  have hpending : h.isPending → h.canUndo ∧ ¬ h.canRedo := by decide
  obtain ⟨-, -, htruthful, -⟩ := availability 2 .new cs hcs
  exact ⟨hcs, hpending, htruthful.mpr hpending⟩

/-- **The flags do not know of the open step.**  A mutation is applied in an open step while another
step can be done again: there is something to undo and nothing to do again, and the flags say the
opposite. -/
theorem flags_ignore_open_step :
    let cs : List Command :=
      [.apply (.setFilterValue [.index 0] ".a"), .undo, .begin,
        .apply (.setFilterValue [.index 0] ".b")]
    let h := (run cs (.ofMaxLevels 100) .new).1
    let d := (run cs (.ofMaxLevels 100) .new).2
    (∀ c ∈ cs, c.isInside) ∧ h.canUndo = false ∧ (h.undo d).1 = true ∧
      h.canRedo = true ∧ (h.redo d).1 = .ok false := by
  exact ⟨by decide, by decide, by decide, by decide, by rfl⟩

end History

end FilterEditor
