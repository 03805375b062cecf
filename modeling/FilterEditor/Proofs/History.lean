import FilterEditor.History
import FilterEditor.Proofs.InPlace

/-!
# What a history does with its document

Each operation of a document and of a history has one equation for each way in which it can go.
Undo and redo close the open step first, so the past and the future in their equations are those of
the closed history.

`undo_cases` and `redo_cases` say what becomes of the tree when nothing is known of the history, and
`redone` what becomes of all the rest in a redo.
-/

namespace FilterEditor

/-! ## Mutations in turn -/

/-- The tree after several mutations, or the first error. -/
def Mutation.applyAll (stem : String) (ms : List Mutation) (root : Pipeline) :
    Except MutationError Pipeline :=
  ms.foldlM (fun tree m => m.applyWith stem tree) root

theorem Mutation.applyAll_concat {stem : String} {ms : List Mutation} {m : Mutation}
    {before middle after : Pipeline} (h₁ : Mutation.applyAll stem ms before = .ok middle)
    (h₂ : m.applyWith stem middle = .ok after) :
    Mutation.applyAll stem (ms ++ [m]) before = .ok after := by
  rw [Mutation.applyAll] at h₁ ⊢
  rw [List.foldlM_append, h₁]
  show (m.applyWith stem middle >>= fun tree => pure tree) = _
  rw [h₂]
  rfl

theorem Mutation.applyAll_cons_eq_ok_iff {stem : String} {m : Mutation} {rest : List Mutation}
    {root root' : Pipeline} : Mutation.applyAll stem (m :: rest) root = .ok root' ↔
      ∃ middle, m.applyWith stem root = .ok middle ∧
        Mutation.applyAll stem rest middle = .ok root' := by
  rw [applyAll, List.foldlM_cons]
  cases m.applyWith stem root with
  | error e => exact ⟨nofun, fun ⟨_, hm, _⟩ => nomatch hm⟩
  | ok middle =>
    constructor
    · intro h
      exact ⟨middle, rfl, h⟩
    · rintro ⟨_, ⟨⟩, h⟩
      exact h

namespace Document

theorem edit_of_ok {d : Document} {m : Mutation} {root : Pipeline}
    (h : m.applyWith d.freshKeyPrefix d.root = .ok root) :
    d.edit m = .ok (d.version + 1) (d.restore root) := by
  rw [edit, Mutation.work_eq, Work.atomic_of_ok h]
  rfl

theorem edit_of_error {d : Document} {m : Mutation} {e : MutationError}
    (h : m.applyWith d.freshKeyPrefix d.root = .error e) : d.edit m = .error e d := by
  rw [edit, Mutation.work_eq, Work.atomic_of_error h]

theorem apply_of_ok {d : Document} {m : Mutation} {root : Pipeline}
    (h : m.applyWith d.freshKeyPrefix d.root = .ok root) :
    d.apply m = (.applied (d.version + 1), d.restore root) := by
  rw [apply, edit_of_ok h]

theorem apply_of_error {d : Document} {m : Mutation} {e : MutationError}
    (h : m.applyWith d.freshKeyPrefix d.root = .error e) : d.apply m = (.ignored e, d) := by
  rw [apply, edit_of_error h]

end Document

theorem Step.replay_of_applyAll {ms : List Mutation} {d : Document} {root : Pipeline}
    (h : Mutation.applyAll d.freshKeyPrefix ms d.root = .ok root) :
    ∃ d', Step.replay ms d = (d', none) ∧ d'.root = root ∧
      d'.freshKeyPrefix = d.freshKeyPrefix := by
  induction ms generalizing d with
  | nil =>
    cases h
    exact ⟨d, rfl, rfl, rfl⟩
  | cons m rest ih =>
    obtain ⟨middle, hm, hrest⟩ := Mutation.applyAll_cons_eq_ok_iff.mp h
    obtain ⟨d', hr, hroot, hstem⟩ := ih (d := d.restore middle) hrest
    refine ⟨d', ?_, hroot, hstem⟩
    rw [Step.replay, Document.edit_of_ok hm]
    exact hr

/-! ## Closing the open step -/

namespace History

variable {h : History} {s : Step}

theorem finish_of_closed (hs : h.openStep = none) : h.finish = h := by
  rw [finish, hs]

theorem finish_of_opened (hs : h.openStep = some s) (he : s.mutations = []) :
    h.finish = { h with openStep := none } := by
  rw [finish, hs]
  exact if_pos he

theorem finish_of_begun (hs : h.openStep = some s) (hne : s.mutations ≠ []) :
    h.finish = { h with openStep := none }.push s := by
  rw [finish, hs]
  exact if_neg hne

theorem openStep_finish (h : History) : h.finish.openStep = none := by
  cases hs : h.openStep with
  | none => rw [finish_of_closed hs, hs]
  | some s =>
    by_cases he : s.mutations = []
    · rw [finish_of_opened hs he]
    · rw [finish_of_begun hs he]
      rfl

theorem maxLevels_finish (h : History) : h.finish.maxLevels = h.maxLevels := by
  cases hs : h.openStep with
  | none => rw [finish_of_closed hs]
  | some s =>
    by_cases he : s.mutations = []
    · rw [finish_of_opened hs he]
    · rw [finish_of_begun hs he]
      rfl

theorem past_finish_of_begun (hs : h.openStep = some s) (hne : s.mutations ≠ []) :
    h.finish.past = trim h.maxLevels (s :: h.past) := by
  rw [finish_of_begun hs hne]
  rfl

theorem future_finish_of_begun (hs : h.openStep = some s) (hne : s.mutations ≠ []) :
    h.finish.future = [] := by
  rw [finish_of_begun hs hne]
  rfl

/-- Closing a step that is more than blank empties the future.  So where there is something to do
again, the open step is blank and closing it moves nothing. -/
theorem finish_of_future_cons {future : List Step} (hf : h.finish.future = s :: future) :
    (∀ t, h.openStep = some t → t.mutations = []) ∧ h.finish = { h with openStep := none } := by
  cases ho : h.openStep with
  | none => exact ⟨nofun, by rw [finish_of_closed ho, ← ho]⟩
  | some t =>
    by_cases he : t.mutations = []
    · exact ⟨fun u hu => Option.some.inj hu ▸ he, finish_of_opened ho he⟩
    · rw [future_finish_of_begun ho he] at hf
      cases hf

theorem future_of_finish {future : List Step} (hf : h.finish.future = s :: future) :
    h.future = s :: future := by
  obtain ⟨-, hfinish⟩ := finish_of_future_cons hf
  rw [hfinish] at hf
  exact hf

/-! ## The operations -/

variable {d : Document} {past future : List Step}

theorem apply_of_ok {m : Mutation} {root : Pipeline}
    (hm : m.applyWith d.freshKeyPrefix d.root = .ok root) :
    h.apply m d = (.applied (d.version + 1), h.record m d.root, d.restore root) := by
  rw [apply, Document.apply_of_ok hm]

theorem apply_of_error {m : Mutation} {e : MutationError}
    (hm : m.applyWith d.freshKeyPrefix d.root = .error e) : h.apply m d = (.ignored e, h, d) := by
  rw [apply, Document.apply_of_error hm]

theorem undo_of_nil (hp : h.finish.past = []) : h.undo d = (false, h.finish, d) := by
  simp only [undo, hp]

theorem undo_of_cons (hp : h.finish.past = s :: past) :
    h.undo d = (true, { h.finish with past := past, future := s :: h.finish.future },
      d.restore s.snapshot) := by
  simp only [undo, hp]

theorem redo_of_nil (hf : h.finish.future = []) : h.redo d = (.ok false, h.finish, d) := by
  simp only [redo, hf]

theorem redo_of_replay {d' : Document} (hf : h.finish.future = s :: future)
    (hr : Step.replay s.mutations d = (d', none)) :
    h.redo d = (.ok true, { h.finish with past := s :: h.finish.past, future := future }, d') := by
  simp only [redo, hf, hr]

theorem redo_of_misfit {d' : Document} {e : MutationError} (hf : h.finish.future = s :: future)
    (hr : Step.replay s.mutations d = (d', some e)) :
    h.redo d = (.error e, h.finish, d'.restore d.root) := by
  simp only [redo, hf, hr]

theorem undo_cases (h : History) (d : Document) :
    h.undo d = (false, h.finish, d) ∨ ∃ h' root, h.undo d = (true, h', d.restore root) := by
  cases hp : h.finish.past with
  | nil => exact Or.inl (undo_of_nil hp)
  | cons s past => exact Or.inr ⟨_, _, undo_of_cons hp⟩

/-- The ways in which redo can go, with what is answered and what is left. -/
inductive Redone (h : History) (d : Document) :
    Except MutationError Bool × History × Document → Prop
  /-- There is no step to do again. -/
  | nothing : h.finish.future = [] → Redone h d (.ok false, h.finish, d)
  /-- All mutations of the step fit. -/
  | done {s : Step} {future : List Step} {d' : Document} : h.finish.future = s :: future →
      Step.replay s.mutations d = (d', none) →
      Redone h d (.ok true, { h.finish with past := s :: h.finish.past, future := future }, d')
  /-- One of them does not. -/
  | misfit {s : Step} {future : List Step} {d' : Document} {e : MutationError} :
      h.finish.future = s :: future → Step.replay s.mutations d = (d', some e) →
      Redone h d (.error e, h.finish, d'.restore d.root)

theorem redone (h : History) (d : Document) : Redone h d (h.redo d) := by
  cases hf : h.finish.future with
  | nil =>
    rw [redo_of_nil hf]
    exact .nothing hf
  | cons s future =>
    obtain ⟨d', error?, hr⟩ : ∃ d' error?, Step.replay s.mutations d = (d', error?) :=
      ⟨_, _, rfl⟩
    cases error? with
    | none =>
      rw [redo_of_replay hf hr]
      exact .done hf hr
    | some e =>
      rw [redo_of_misfit hf hr]
      exact .misfit hf hr

/-- Redo does a step again, or there is none, or it does not fit.  The tree stays then. -/
theorem redo_cases (h : History) (d : Document) :
    (∃ h' d', h.redo d = (.ok true, h', d')) ∨
      ∃ answer d', h.redo d = (answer, h.finish, d') ∧ answer ≠ .ok true ∧ d'.root = d.root := by
  have hredone := h.redone d
  generalize h.redo d = result at hredone ⊢
  cases hredone with
  | nothing => exact Or.inr ⟨_, d, rfl, by simp, rfl⟩
  | done => exact Or.inl ⟨_, _, rfl⟩
  | misfit => exact Or.inr ⟨_, _, rfl, by simp, rfl⟩

end History

end FilterEditor
