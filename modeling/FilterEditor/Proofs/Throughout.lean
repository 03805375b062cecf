import FilterEditor.History.Command
import FilterEditor.Proofs.History

/-!
# What mutations keep holds throughout

A tree in a run of commands comes from the first one by mutations, or it has been there before and
is put back.  So a property that every mutation keeps holds of every tree of the run, as long as the
trees that are put in from outside have it (`History.Holds.run`).  The invariant is that all the
snapshots have it too: those of the steps to undo and to redo, and that of the open step once
something has been applied in it.
-/

namespace FilterEditor

/-- Every mutation keeps a property of trees, whatever the form of fresh keys. -/
def Mutation.Keeps (P : Pipeline → Prop) : Prop :=
  ∀ (stem : String) (m : Mutation) (root root' : Pipeline),
    P root → m.applyWith stem root = .ok root' → P root'

/-- Also a replay that stops half way has done nothing but mutations. -/
theorem Step.replay_keeps {P : Pipeline → Prop} (hP : Mutation.Keeps P) (ms : List Mutation)
    {d : Document} (hd : P d.root) : P (Step.replay ms d).1.root := by
  induction ms generalizing d with
  | nil => exact hd
  | cons m rest ih =>
    rw [Step.replay]
    cases hm : m.applyWith d.freshKeyPrefix d.root with
    | error e =>
      rw [Document.edit_of_error hm]
      exact hd
    | ok root =>
      rw [Document.edit_of_ok hm]
      exact ih (hP _ m _ root hd hm)

namespace History

/-- The tree has a property, and so have the trees that the history can bring back. -/
structure Holds (P : Pipeline → Prop) (h : History) (d : Document) : Prop where
  root : P d.root
  past : ∀ s ∈ h.past, P s.snapshot
  future : ∀ s ∈ h.future, P s.snapshot
  opened : ∀ s, h.openStep = some s → s.mutations ≠ [] → P s.snapshot

theorem mem_of_mem_trim {maxLevels : Nat} {past : List Step} {s : Step}
    (hs : s ∈ trim maxLevels past) : s ∈ past := by
  rw [trim] at hs
  split at hs
  · exact List.dropLast_subset past hs
  · exact hs

namespace Holds

variable {P : Pipeline → Prop} {h : History} {d : Document}

theorem start (maxLevels : Nat) (hd : P d.root) : Holds P (.ofMaxLevels maxLevels) d :=
  ⟨hd, nofun, nofun, nofun⟩

theorem push (hh : Holds P h d) {s : Step} (hs : P s.snapshot) : Holds P (h.push s) d := by
  refine ⟨hh.root, fun t ht => ?_, nofun, hh.opened⟩
  rcases List.mem_cons.mp (mem_of_mem_trim ht) with rfl | hpast
  · exact hs
  · exact hh.past t hpast

theorem finish (hh : Holds P h d) : Holds P h.finish d := by
  cases hs : h.openStep with
  | none =>
    rw [finish_of_closed hs]
    exact hh
  | some s =>
    have hclosed : Holds P { h with openStep := none } d := ⟨hh.root, hh.past, hh.future, nofun⟩
    by_cases he : s.mutations = []
    · rw [finish_of_opened hs he]
      exact hclosed
    · rw [finish_of_begun hs he]
      exact hclosed.push (hh.opened s hs he)

theorem begin (hh : Holds P h d) : Holds P h.begin d := by
  obtain ⟨hroot, hpast, hfuture, -⟩ := hh.finish
  refine ⟨hroot, hpast, hfuture, fun s hs hne => ?_⟩
  cases hs
  exact absurd rfl hne

theorem describe (hh : Holds P h d) (text : String) : Holds P (h.describe text) d := by
  refine ⟨hh.root, hh.past, hh.future, fun s hs hne => ?_⟩
  obtain ⟨s₀, hs₀, rfl⟩ := Option.map_eq_some_iff.mp hs
  exact hh.opened s₀ hs₀ hne

/-- A note of a mutation brings in the tree before it, and that only where a step begins. -/
theorem record (hh : Holds P h d) (m : Mutation) : Holds P (h.record m d.root) d := by
  rw [History.record]
  cases hs : h.openStep with
  | none => exact hh.push hh.root
  | some s =>
    refine ⟨hh.root, hh.past, hh.future, fun t ht _ => ?_⟩
    cases ht
    show P (if s.mutations = [] then d.root else s.snapshot)
    split
    next => exact hh.root
    next hne => exact hh.opened s hs hne

theorem apply (hP : Mutation.Keeps P) (hh : Holds P h d) (m : Mutation) :
    Holds P (h.apply m d).2.1 (h.apply m d).2.2 := by
  cases hm : m.applyWith d.freshKeyPrefix d.root with
  | error e =>
    rw [apply_of_error hm]
    exact hh
  | ok root =>
    rw [apply_of_ok hm]
    obtain ⟨hroot, hpast, hfuture, hopened⟩ := hh.record m
    exact ⟨hP _ m _ root hroot hm, hpast, hfuture, hopened⟩

theorem undo (hh : Holds P h d) : Holds P (h.undo d).2.1 (h.undo d).2.2 := by
  obtain ⟨hroot, hpast, hfuture, hopened⟩ := hh.finish
  cases hsteps : h.finish.past with
  | nil =>
    rw [undo_of_nil hsteps]
    exact hh.finish
  | cons s past =>
    rw [undo_of_cons hsteps]
    rw [hsteps] at hpast
    obtain ⟨hs, hrest⟩ := List.forall_mem_cons.mp hpast
    exact ⟨hs, hrest, List.forall_mem_cons.mpr ⟨hs, hfuture⟩, hopened⟩

theorem redo (hP : Mutation.Keeps P) (hh : Holds P h d) :
    Holds P (h.redo d).2.1 (h.redo d).2.2 := by
  obtain ⟨hroot, hpast, hfuture, hopened⟩ := hh.finish
  have hredone := h.redone d
  generalize h.redo d = result at hredone ⊢
  cases hredone with
  | nothing => exact hh.finish
  | @done s future d' hf hr =>
    obtain ⟨hs, hrest⟩ := List.forall_mem_cons.mp (hf ▸ hfuture)
    have hreplayed := Step.replay_keeps hP s.mutations hroot
    rw [hr] at hreplayed
    exact ⟨hreplayed, List.forall_mem_cons.mpr ⟨hs, hpast⟩, hrest, hopened⟩
  | misfit => exact ⟨hroot, hpast, hfuture, hopened⟩

theorem change (hP : Mutation.Keeps P) (hh : Holds P h d) {change : Document.Change}
    (hc : ∀ tree, change = .restore tree → P tree) : Holds P h (d.change change) := by
  refine ⟨?_, hh.past, hh.future, hh.opened⟩
  cases change with
  | restore tree => exact hc tree rfl
  | useFreshKeyPrefix stem => exact hh.root
  | mutate m =>
    show P (d.apply m).2.root
    cases hm : m.applyWith d.freshKeyPrefix d.root with
    | error e =>
      rw [Document.apply_of_error hm]
      exact hh.root
    | ok root =>
      rw [Document.apply_of_ok hm]
      exact hP _ m _ root hh.root hm

theorem perform (hP : Mutation.Keeps P) (hh : Holds P h d) {c : Command}
    (hc : ∀ tree, c = .outside (.restore tree) → P tree) :
    Holds P (History.perform c h d).2.1 (History.perform c h d).2.2 := by
  cases c with
  | apply m => exact hh.apply hP m
  | begin => exact hh.begin
  | finish => exact hh.finish
  | describe text => exact hh.describe text
  | undo => exact hh.undo
  | redo =>
    rw [perform_redo]
    exact hh.redo hP
  | clear => exact ⟨hh.root, nofun, nofun, nofun⟩
  | outside change => exact hh.change hP fun tree htree => hc tree (htree ▸ rfl)

/-- **What mutations keep holds throughout a run.** -/
theorem run (hP : Mutation.Keeps P) (hh : Holds P h d) (cs : List Command)
    (hcs : ∀ tree, .outside (.restore tree) ∈ cs → P tree) :
    Holds P (History.run cs h d).1 (History.run cs h d).2 := by
  induction cs generalizing h d with
  | nil => exact hh
  | cons c rest ih =>
    refine ih (hh.perform hP fun tree htree => ?_) fun tree htree => ?_
    · exact hcs tree (htree ▸ List.mem_cons_self)
    · exact hcs tree (List.mem_cons_of_mem _ htree)

end Holds

end History

end FilterEditor
