import FilterEditor.History.Command
import FilterEditor.Proofs.History

/-!
# A bounded history stays within its bound

Only the adding of a step looks at the bound.  Redo moves a step back to the past without looking,
so that the past is short enough says too little to be kept: what redo moves must have had its room
all along.  The invariant counts both sides (`History.Bounded`).  Undo and redo move one step from
side to side and keep the sum; to add a step empties the future, and then the bound on the past is a
bound on the sum.
-/

namespace FilterEditor

namespace History

/-- The history has a bound, and the steps on both sides together keep to it. -/
structure Bounded (maxLevels : Nat) (h : History) : Prop where
  maxLevels_eq : h.maxLevels = maxLevels
  levels_le : h.undoLevels + h.redoLevels ≤ maxLevels

theorem length_trim_le {maxLevels : Nat} {past : List Step} (hpos : 0 < maxLevels)
    (hlen : past.length ≤ maxLevels + 1) : (trim maxLevels past).length ≤ maxLevels := by
  rw [trim]
  split
  next => rw [List.length_dropLast]; omega
  next hkeep => exact Nat.le_of_not_lt fun hlt => hkeep ⟨hpos, hlt⟩

namespace Bounded

variable {maxLevels : Nat} {h : History} {d : Document}

theorem start (maxLevels : Nat) : Bounded maxLevels (.ofMaxLevels maxLevels) :=
  ⟨rfl, Nat.zero_le _⟩

/-- The open step counts for nothing until it is closed. -/
theorem withOpenStep (hb : Bounded maxLevels h) (o : Option Step) :
    Bounded maxLevels { h with openStep := o } :=
  ⟨hb.maxLevels_eq, hb.levels_le⟩

theorem push (hpos : 0 < maxLevels) (hb : Bounded maxLevels h) (s : Step) :
    Bounded maxLevels (h.push s) := by
  obtain ⟨hmax, hle⟩ := hb
  refine ⟨hmax, ?_⟩
  have hpast : h.past.length ≤ maxLevels := Nat.le_trans (Nat.le_add_right _ _) hle
  show (trim h.maxLevels (s :: h.past)).length + 0 ≤ maxLevels
  rw [hmax]
  exact length_trim_le hpos (Nat.succ_le_succ hpast)

theorem finish (hpos : 0 < maxLevels) (hb : Bounded maxLevels h) : Bounded maxLevels h.finish := by
  cases hs : h.openStep with
  | none =>
    rw [finish_of_closed hs]
    exact hb
  | some s =>
    by_cases he : s.mutations = []
    · rw [finish_of_opened hs he]
      exact hb.withOpenStep none
    · rw [finish_of_begun hs he]
      exact (hb.withOpenStep none).push hpos s

theorem record (hpos : 0 < maxLevels) (hb : Bounded maxLevels h) (m : Mutation)
    (before : Pipeline) : Bounded maxLevels (h.record m before) := by
  rw [History.record]
  cases h.openStep with
  | none => exact hb.push hpos _
  | some s => exact hb.withOpenStep _

theorem apply (hpos : 0 < maxLevels) (hb : Bounded maxLevels h) (m : Mutation) :
    Bounded maxLevels (h.apply m d).2.1 := by
  cases hm : m.applyWith d.freshKeyPrefix d.root with
  | error e =>
    rw [apply_of_error hm]
    exact hb
  | ok root =>
    rw [apply_of_ok hm]
    exact hb.record hpos m d.root

theorem undo (hpos : 0 < maxLevels) (hb : Bounded maxLevels h) :
    Bounded maxLevels (h.undo d).2.1 := by
  obtain ⟨hmax, hle⟩ := hb.finish hpos
  cases hpast : h.finish.past with
  | nil =>
    rw [undo_of_nil hpast]
    exact ⟨hmax, hle⟩
  | cons s past =>
    rw [undo_of_cons hpast]
    rw [undoLevels, redoLevels, hpast, List.length_cons] at hle
    refine ⟨hmax, ?_⟩
    show past.length + (h.finish.future.length + 1) ≤ maxLevels
    omega

theorem redo (hpos : 0 < maxLevels) (hb : Bounded maxLevels h) :
    Bounded maxLevels (h.redo d).2.1 := by
  obtain ⟨hmax, hle⟩ := hb.finish hpos
  have hredone := h.redone d
  generalize h.redo d = result at hredone ⊢
  cases hredone with
  | nothing => exact ⟨hmax, hle⟩
  | @done s future d' hf hr =>
    rw [undoLevels, redoLevels, hf, List.length_cons] at hle
    refine ⟨hmax, ?_⟩
    show h.finish.past.length + 1 + future.length ≤ maxLevels
    omega
  | misfit => exact ⟨hmax, hle⟩

theorem perform (hpos : 0 < maxLevels) (hb : Bounded maxLevels h) (c : Command) :
    Bounded maxLevels (History.perform c h d).2.1 := by
  cases c with
  | apply m => exact hb.apply hpos m
  | begin => exact (hb.finish hpos).withOpenStep _
  | finish => exact hb.finish hpos
  | describe text => exact hb.withOpenStep _
  | undo => exact hb.undo hpos
  | redo =>
    rw [perform_redo]
    exact hb.redo hpos
  | clear => exact ⟨hb.maxLevels_eq, Nat.zero_le _⟩
  | outside change => exact hb

theorem run (hpos : 0 < maxLevels) (hb : Bounded maxLevels h) (cs : List Command) :
    Bounded maxLevels (History.run cs h d).1 := by
  induction cs generalizing h d with
  | nil => exact hb
  | cons c rest ih => exact ih (hb.perform hpos c)

end Bounded

/-- **A bounded history stays within its bound.**  Whatever the commands, and whatever happens to
the document between them, the steps to undo and the steps to redo together are no more than the
bound.  So there is room in the past for a step that redo does again. -/
theorem levels_le_maxLevels (maxLevels : Nat) (hpos : 0 < maxLevels) (document : Document)
    (cs : List Command) :
    let h := (run cs (.ofMaxLevels maxLevels) document).1
    let d := (run cs (.ofMaxLevels maxLevels) document).2
    h.undoLevels + h.redoLevels ≤ maxLevels ∧ (h.redo d).2.1.undoLevels ≤ maxLevels := by
  intro h d
  have hb : Bounded maxLevels h := (Bounded.start maxLevels).run hpos cs
  have hredo : Bounded maxLevels (h.redo d).2.1 := hb.redo hpos
  exact ⟨hb.levels_le, Nat.le_trans (Nat.le_add_right _ _) hredo.levels_le⟩

/-- Room for two steps, and three done, the last of them in two parts.  Two are taken back, and the
first of these is done again; the other one does not fit, and later it does. -/
theorem levels_le_maxLevels_full :
    let cs : List Command :=
      [.apply (.setFilterValue [.index 0] ".a"), .apply (.insertSibling [.index 0] .array), .begin,
        .apply (.setFilterValue [.index 0] ".b"), .apply (.removeNode [.index 1]), .undo, .undo,
        .redo, .outside (.restore [.filter "."]), .redo,
        .outside (.restore [.filter ".", .array []])]
    let h := (run cs (.ofMaxLevels 2) .new).1
    let d := (run cs (.ofMaxLevels 2) .new).2
    h.undoLevels = 1 ∧ h.redoLevels = 1 ∧ h.undoLevels + h.redoLevels ≤ 2 ∧
      (h.redo d).1 = .ok true ∧ (h.redo d).2.1.undoLevels ≤ 2 := by
  intro cs h d
  obtain ⟨hlevels, hredo⟩ := levels_le_maxLevels 2 (by decide) .new cs
  exact ⟨by decide, by decide, hlevels, by rfl, hredo⟩

end History

end FilterEditor
