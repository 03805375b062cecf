import FilterEditor.Proofs.Availability
import Mathlib.Data.List.Induction

/-!
# What an undo takes back

After a lone mutation the next undo brings back the tree before it, whatever has happened to the
document.  After a redo it brings back the snapshot of the step, and redo leaves the snapshot alone:
it is the tree that the undo left which took the step back (`undoLeaves_of_suffix`).  When the
document is changed through the history alone, that is the tree which redo finds.  When it was
changed from outside in between, the two differ, and the change is lost
(`undo_after_redo_forgets`).
-/

namespace FilterEditor

namespace History

variable {h : History} {d : Document}

/-! ## Undo after a mutation and after a redo -/

/-- A step that has just been added is the one that undo takes back, also if the bound lets stand no
other. -/
theorem undo_push (hs : h.openStep = none) (s : Step) :
    ∃ h', (h.push s).undo d = (true, h', d.restore s.snapshot) := by
  obtain ⟨kept, hkept⟩ := trim_cons h.maxLevels h.past
  have hclosed : (h.push s).finish = h.push s := finish_of_closed hs
  have hpast : (h.push s).finish.past = s :: kept := by
    rw [hclosed]
    exact hkept s
  exact ⟨_, undo_of_cons hpast⟩

theorem undo_apply {m : Mutation} (hs : h.openStep = none) (happlied : (h.apply m d).1.isApplied) :
    ∃ h' d', (h.apply m d).2.1.undo (h.apply m d).2.2 = (true, h', d') ∧ d'.root = d.root := by
  cases hm : m.applyWith d.freshKeyPrefix d.root with
  | error e =>
    rw [apply_of_error hm] at happlied
    cases happlied
  | ok root =>
    rw [apply_of_ok hm, record, hs]
    obtain ⟨h', hundo⟩ := undo_push (d := d.restore root) hs (.single m d.root)
    exact ⟨h', _, hundo, rfl⟩

theorem undo_redo (hredo : (h.redo d).1 = .ok true) :
    ∃ s future h' d', h.finish.future = s :: future ∧
      (h.redo d).2.1.undo (h.redo d).2.2 = (true, h', d') ∧ d'.root = s.snapshot := by
  have hredone := h.redone d
  generalize h.redo d = result at hredone hredo ⊢
  cases hredone with
  | nothing => cases hredo
  | misfit => cases hredo
  | @done s future d' hf hr =>
    have hclosed := finish_of_closed (h := { h.finish with past := s :: h.finish.past, future })
      h.openStep_finish
    exact ⟨s, future, _, _, hf, undo_of_cons (congrArg History.past hclosed), rfl⟩

/-! ## Where the snapshots come from -/

theorem future_finish_suffix (h : History) : h.finish.future <:+ h.future := by
  cases hf : h.finish.future with
  | nil => exact List.nil_suffix
  | cons s future => exact future_of_finish hf ▸ List.suffix_rfl

/-- Only undo adds to the future, and then the tree is the snapshot of what it adds. -/
theorem future_perform (c : Command) (h : History) (d : Document) :
    (perform c h d).2.1.future <:+ h.future ∨
      c = .undo ∧ ∃ s, (perform c h d).2.1.future = s :: h.finish.future ∧
        (perform c h d).2.2.root = s.snapshot := by
  cases c with
  | apply m =>
    refine Or.inl ?_
    cases hm : m.applyWith d.freshKeyPrefix d.root with
    | error e => simp only [perform, apply_of_error hm, List.suffix_rfl]
    | ok root =>
      rw [perform, apply_of_ok hm]
      show (h.record m d.root).future <:+ h.future
      rw [record]
      cases h.openStep with
      | none => exact List.nil_suffix
      | some s => exact List.suffix_rfl
  | begin => exact Or.inl h.future_finish_suffix
  | finish => exact Or.inl h.future_finish_suffix
  | describe text => exact Or.inl List.suffix_rfl
  | undo =>
    rw [perform]
    cases hpast : h.finish.past with
    | nil =>
      rw [undo_of_nil hpast]
      exact Or.inl h.future_finish_suffix
    | cons s past =>
      rw [undo_of_cons hpast]
      exact Or.inr ⟨rfl, s, rfl, rfl⟩
  | redo =>
    rw [perform_redo]
    refine Or.inl ?_
    have hredone := h.redone d
    generalize h.redo d = result at hredone ⊢
    cases hredone with
    | nothing => exact h.future_finish_suffix
    | misfit => exact h.future_finish_suffix
    | @done s future d' hf hr =>
      have htail : future <:+ h.finish.future := hf ▸ List.suffix_cons s future
      exact htail.trans h.future_finish_suffix
  | clear => exact Or.inl List.nil_suffix
  | outside change => exact Or.inl List.suffix_rfl

/-- An undo of the run has left the history with this future, and the document with this tree. -/
def UndoLeaves (maxLevels : Nat) (document : Document) (cs : List Command) (future : List Step)
    (tree : Pipeline) : Prop :=
  ∃ before after, cs = before ++ .undo :: after ∧
    (run (before ++ [.undo]) (.ofMaxLevels maxLevels) document).1.future = future ∧
    (run (before ++ [.undo]) (.ofMaxLevels maxLevels) document).2.root = tree

section Run

variable {maxLevels : Nat} {document : Document} {cs : List Command} {s : Step}
  {future : List Step} {tree : Pipeline}

theorem UndoLeaves.concat (h : UndoLeaves maxLevels document cs future tree) (c : Command) :
    UndoLeaves maxLevels document (cs ++ [c]) future tree := by
  obtain ⟨before, after, rfl, hthen⟩ := h
  exact ⟨before, after ++ [c], by simp, hthen⟩

/-- **A step to do again was taken back by an undo of the run**, which has left its snapshot as the
tree. -/
theorem undoLeaves_of_suffix
    (hsuffix : s :: future <:+ (run cs (.ofMaxLevels maxLevels) document).1.future) :
    UndoLeaves maxLevels document cs (s :: future) s.snapshot := by
  induction cs using List.reverseRecOn with
  | nil => cases List.suffix_nil.mp hsuffix
  | append_singleton cs c ih =>
    rw [run_concat] at hsuffix
    rcases future_perform c (run cs (.ofMaxLevels maxLevels) document).1
        (run cs (.ofMaxLevels maxLevels) document).2 with hold | ⟨rfl, t, hnew, hroot⟩
    · exact (ih (hsuffix.trans hold)).concat c
    · rw [hnew] at hsuffix
      rcases List.suffix_cons_iff.mp hsuffix with heq | hrest
      · obtain ⟨rfl, rfl⟩ := List.cons.inj heq
        refine ⟨cs, [], rfl, ?_, ?_⟩
        · rw [run_concat, hnew]
        · rw [run_concat, hroot]
      · exact (ih (hrest.trans (future_finish_suffix _))).concat .undo

end Run

/-- As long as nothing changes the document from outside, redo does a step on its snapshot. -/
theorem snapshot_eq_of_tracks {stem : String} {t : Timeline} {s : Step} {future : List Step}
    (ht : Tracks stem h d t) (hf : h.finish.future = s :: future) : s.snapshot = d.root := by
  have hredoes := ht.redoes
  rw [hf] at hredoes
  generalize t.future = trees at hredoes
  cases hredoes with
  | cons hleads hrest => exact hleads.snapshot_eq.trans ht.root_eq.symm

/-- **What an undo takes back.**  After a lone mutation that was applied, undo brings back the tree
from before it.  After a redo that has done a step again, undo brings back the tree that an undo of
the run has left when it took the step back; the future then was what it is before the redo.  That
is the tree from before the redo if the document was changed through the history alone. -/
theorem undo_takes_back (maxLevels : Nat) (document : Document) (cs : List Command) :
    let h := (run cs (.ofMaxLevels maxLevels) document).1
    let d := (run cs (.ofMaxLevels maxLevels) document).2
    (∀ m, h.openStep = none → (h.apply m d).1.isApplied →
        ∃ h' d', (h.apply m d).2.1.undo (h.apply m d).2.2 = (true, h', d') ∧ d'.root = d.root) ∧
      ((h.redo d).1 = .ok true →
        ∃ h' d', (h.redo d).2.1.undo (h.redo d).2.2 = (true, h', d') ∧
          UndoLeaves maxLevels document cs h.future d'.root ∧
          ((∀ c ∈ cs, c.isInside) → d'.root = d.root)) := by
  intro h d
  refine ⟨fun m hclosed happlied => undo_apply hclosed happlied, fun hredo => ?_⟩
  obtain ⟨s, future, h', d', hf, hundo, hroot⟩ := undo_redo hredo
  have hfuture : h.future = s :: future := future_of_finish hf
  have hleaves : UndoLeaves maxLevels document cs (s :: future) s.snapshot :=
    undoLeaves_of_suffix (hfuture ▸ List.suffix_rfl)
  refine ⟨h', d', hundo, ?_, fun hinside => ?_⟩
  · rw [hfuture, hroot]
    exact hleaves
  · obtain ⟨t, ht⟩ := (Tracks.start maxLevels document).run hinside
    exact hroot.trans (snapshot_eq_of_tracks ht hf)

/-- A step of two is taken back and with it a lone mutation; then the lone one is done again, or
another one takes its place. -/
theorem undo_takes_back_inside :
    let cs : List Command :=
      [.apply (.setFilterValue [.index 0] ".a"), .begin, .apply (.setFilterValue [.index 0] ".b"),
        .apply (.insertSibling [.index 0] .array), .undo, .undo]
    let other : Mutation := .removeNode [.index 0]
    let h := (run cs (.ofMaxLevels 2) .new).1
    let d := (run cs (.ofMaxLevels 2) .new).2
    d.root = [.filter "."] ∧ (h.apply other d).2.2.root = [] ∧
      ((h.apply other d).2.1.undo (h.apply other d).2.2).2.2.root = d.root ∧
      (h.redo d).1 = .ok true ∧ (h.redo d).2.2.root = [.filter ".a"] ∧
      ((h.redo d).2.1.undo (h.redo d).2.2).2.2.root = d.root := by
  intro cs other h d
  obtain ⟨happly, hredo⟩ := undo_takes_back 2 .new cs
  have hdone : (h.redo d).1 = .ok true := by rfl
  obtain ⟨_, _, hundo, hroot⟩ := happly other (by decide) (by decide)
  obtain ⟨_, _, hundo', -, hroot'⟩ := hredo hdone
  refine ⟨by decide, by decide, ?_, hdone, by decide, ?_⟩
  · exact (congrArg (·.2.2.root) hundo).trans hroot
  · exact (congrArg (·.2.2.root) hundo').trans (hroot' (by decide))

/-- **Redo does not note the tree on which it does a step again.**  Between undo and redo the filter
is changed from outside.  Undo then brings back the filter from before that change, not the changed
one that redo has found. -/
theorem undo_after_redo_forgets :
    let cs : List Command :=
      [.apply (.setFilterValue [.index 0] ".a"), .undo,
        .outside (.mutate (.setFilterValue [.index 0] ".b"))]
    let h := (run cs (.ofMaxLevels 100) .new).1
    let d := (run cs (.ofMaxLevels 100) .new).2
    h.openStep = none ∧ (h.redo d).1 = .ok true ∧ d.root = [.filter ".b"] ∧
      ((h.redo d).2.1.undo (h.redo d).2.2).1 = true ∧
      ((h.redo d).2.1.undo (h.redo d).2.2).2.2.root = [.filter "."] := by
  exact ⟨by decide, by rfl, by decide, by decide, by decide⟩

end History

end FilterEditor
