import FilterEditor.History.Command
import FilterEditor.Proofs.History

/-!
# The version stamps the tree

A document has one way to get another tree, and this way counts.  `Passes` says of two states of a
document that it has gone from one to the other through a list of trees, and that the version has
grown by one with each of them.  A mutation that fits passes one tree and one that does not fit
passes none; undo passes the tree that it puts back; redo passes a tree for each mutation, and one
more when it fails half-way and puts back what it has found.  So every run of commands passes some
trees (`passes_run`).

Where the version is the same no tree was passed, and the root is the same.  The converse does not
hold: a tree can come back, with another version.

The version is exactly the number of trees passed, so a counter of 64 bits shows it as long as there
are fewer than 2 ^ 64 of them.
-/

namespace FilterEditor

namespace Document

variable {d d' d'' : Document} {trees trees' : List Pipeline}

/-- The document has gone from one state to the other through these trees, one change for each. -/
structure Passes (d : Document) (trees : List Pipeline) (d' : Document) : Prop where
  version_eq : d'.version = d.version + trees.length
  root_eq : d'.root = trees.getLastD d.root

namespace Passes

theorem refl (d : Document) : d.Passes [] d :=
  ⟨rfl, rfl⟩

theorem restore (d : Document) (root : Pipeline) : d.Passes [root] (d.restore root) :=
  ⟨rfl, rfl⟩

theorem trans (h : d.Passes trees d') (h' : d'.Passes trees' d'') :
    d.Passes (trees ++ trees') d'' := by
  constructor
  · rw [h'.version_eq, h.version_eq, List.length_append, Nat.add_assoc]
  · rw [h'.root_eq, h.root_eq]
    rcases trees'.eq_nil_or_concat with rfl | ⟨between, last, rfl⟩
    · rw [List.append_nil]
      rfl
    · rw [List.concat_eq_append, ← List.append_assoc, List.getLastD_concat, List.getLastD_concat]

theorem version_le (h : d.Passes trees d') : d.version ≤ d'.version := by
  rw [h.version_eq]
  exact Nat.le_add_right _ _

theorem root_eq_of_version_eq (h : d.Passes trees d') (heq : d'.version = d.version) :
    d'.root = d.root := by
  have hlength := h.version_eq
  have hnone : trees = [] := List.eq_nil_of_length_eq_zero (by omega)
  rw [h.root_eq, hnone]
  rfl

end Passes

/-! ## Mutations -/

theorem passes_apply (d : Document) (m : Mutation) : ∃ trees, d.Passes trees (d.apply m).2 := by
  cases hm : m.applyWith d.freshKeyPrefix d.root with
  | error e =>
    rw [apply_of_error hm]
    exact ⟨[], .refl d⟩
  | ok root =>
    rw [apply_of_ok hm]
    exact ⟨[root], .restore d root⟩

/-- The version that is reported is the one that the document has now, and it is new. -/
theorem version_of_applied {m : Mutation} {version : Nat} (h : (d.apply m).1 = .applied version) :
    version = (d.apply m).2.version ∧ d.version < version := by
  cases hm : m.applyWith d.freshKeyPrefix d.root with
  | error e =>
    rw [apply_of_error hm] at h
    cases h
  | ok root =>
    rw [apply_of_ok hm] at h ⊢
    cases h
    exact ⟨rfl, Nat.lt_succ_self _⟩

theorem passes_change (d : Document) (change : Document.Change) :
    ∃ trees, d.Passes trees (d.change change) := by
  cases change with
  | mutate m => exact d.passes_apply m
  | restore root => exact ⟨[root], .restore d root⟩
  | useFreshKeyPrefix stem => exact ⟨[], rfl, rfl⟩

/-- Mutations that are done in turn pass a tree each, up to the first that does not fit. -/
theorem passes_replay (ms : List Mutation) (d : Document) :
    ∃ trees, d.Passes trees (Step.replay ms d).1 := by
  induction ms generalizing d with
  | nil => exact ⟨[], .refl d⟩
  | cons m rest ih =>
    rw [Step.replay]
    cases hm : m.applyWith d.freshKeyPrefix d.root with
    | error e =>
      rw [edit_of_error hm]
      exact ⟨[], .refl d⟩
    | ok root =>
      rw [edit_of_ok hm]
      obtain ⟨trees, hrest⟩ := ih (d.restore root)
      exact ⟨[root] ++ trees, (Passes.restore d root).trans hrest⟩

end Document

/-! ## Histories -/

namespace History

/-- Through a history a mutation does to the document what it does without it. -/
theorem apply_eq (h : History) (m : Mutation) (d : Document) :
    (h.apply m d).1 = (d.apply m).1 ∧ (h.apply m d).2.2 = (d.apply m).2 := by
  rw [apply]
  rcases d.apply m with ⟨version | e, d'⟩ <;> exact ⟨rfl, rfl⟩

theorem passes_redo (h : History) (d : Document) :
    ∃ trees, d.Passes trees (h.redo d).2.2 := by
  have hredone := h.redone d
  generalize h.redo d = result at hredone ⊢
  cases hredone with
  | nothing => exact ⟨[], .refl d⟩
  | @done s future d' hf hr =>
    obtain ⟨trees, hreplay⟩ := Document.passes_replay s.mutations d
    rw [hr] at hreplay
    exact ⟨trees, hreplay⟩
  | @misfit s future d' e hf hr =>
    obtain ⟨trees, hreplay⟩ := Document.passes_replay s.mutations d
    rw [hr] at hreplay
    exact ⟨trees ++ [d.root], hreplay.trans (.restore d' d.root)⟩

/-- **A command passes some trees.** -/
theorem passes_perform (c : Command) (h : History) (d : Document) :
    ∃ trees, d.Passes trees (perform c h d).2.2 := by
  cases c with
  | apply m =>
    obtain ⟨trees, hpasses⟩ := d.passes_apply m
    rw [← (apply_eq h m d).2] at hpasses
    exact ⟨trees, hpasses⟩
  | begin => exact ⟨[], .refl d⟩
  | finish => exact ⟨[], .refl d⟩
  | describe text => exact ⟨[], .refl d⟩
  | undo =>
    rw [perform]
    rcases h.undo_cases d with hnone | ⟨h', root, hdone⟩
    · rw [hnone]
      exact ⟨[], .refl d⟩
    · rw [hdone]
      exact ⟨[root], .restore d root⟩
  | redo =>
    rw [perform_redo]
    exact h.passes_redo d
  | clear => exact ⟨[], .refl d⟩
  | outside change => exact d.passes_change change

theorem passes_run (cs : List Command) (h : History) (d : Document) :
    ∃ trees, d.Passes trees (run cs h d).2 := by
  induction cs generalizing h d with
  | nil => exact ⟨[], .refl d⟩
  | cons c rest ih =>
    obtain ⟨trees, hstep⟩ := passes_perform c h d
    obtain ⟨trees', hrest⟩ := ih (perform c h d).2.1 (perform c h d).2.2
    exact ⟨trees ++ trees', hstep.trans hrest⟩

/-- **The version stamps the tree.**  Of two states of a run the later one has gone from the earlier
one through some trees, one version for each.  So the version never falls, and where it is the same
the tree is, and with it the expression.  A mutation that is applied, through the history or without
it, reports the version that the document has then, and this version is greater than any before it.
A mutation that is tried out on the document does the same to it, and reports the error when it does
not fit. -/
theorem version_stamps_the_tree (h : History) (d : Document) (before between : List Command) :
    let seen := (run before h d).2
    let now := run (before ++ between) h d
    (∃ trees, seen.Passes trees now.2) ∧
      seen.version ≤ now.2.version ∧
      (now.2.version = seen.version →
        now.2.root = seen.root ∧ now.2.expression = seen.expression) ∧
      (∀ m version, (now.1.apply m now.2).1 = .applied version →
        version = (now.1.apply m now.2).2.2.version ∧ seen.version < version) ∧
      (∀ m version, (now.2.apply m).1 = .applied version →
        version = (now.2.apply m).2.version ∧ seen.version < version) ∧
      ∀ m, match now.2.tryApply m with
        | .ok d' => now.2.apply m = (.applied d'.version, d')
        | .error e => now.2.apply m = (.ignored e, now.2) := by
  intro seen now
  have hnow : now = run between (run before h d).1 seen := run_append before between h d
  obtain ⟨trees, hpasses⟩ := passes_run between (run before h d).1 seen
  rw [← hnow] at hpasses
  have happlied : ∀ m version, (now.2.apply m).1 = .applied version →
      version = (now.2.apply m).2.version ∧ seen.version < version := by
    intro m version happly
    obtain ⟨hversion, hnew⟩ := Document.version_of_applied happly
    exact ⟨hversion, Nat.lt_of_le_of_lt hpasses.version_le hnew⟩
  refine ⟨⟨trees, hpasses⟩, hpasses.version_le, fun heq => ?_, ?_, happlied, fun m => ?_⟩
  · have hroot : now.2.root = seen.root := hpasses.root_eq_of_version_eq heq
    exact ⟨hroot, congrArg Pipeline.expression hroot⟩
  · intro m version happly
    obtain ⟨houtcome, hdocument⟩ := apply_eq now.1 m now.2
    rw [hdocument]
    exact happlied m version (houtcome.symm.trans happly)
  · cases hm : m.applyWith now.2.freshKeyPrefix now.2.root with
    | error e =>
      rw [Document.tryApply, Document.edit_of_error hm]
      exact Document.apply_of_error hm
    | ok root =>
      rw [Document.tryApply, Document.edit_of_ok hm]
      exact Document.apply_of_ok hm

/-- A redo of two mutations fails on the second one, and puts the tree back under a new version.
Then nothing happens to the tree for a while, and one more mutation is applied. -/
theorem version_stamps_the_tree_failed_redo :
    let before : List Command :=
      [.begin, .apply (.setFilterValue [.index 0] ".b"), .apply (.removeNode [.index 1]), .undo,
        .outside (.mutate (.removeNode [.index 1])), .redo]
    let between : List Command := [.apply (.appendBranch []), .begin, .describe "none", .finish]
    let start := Document.ofRoot [.filter ".a", .filter ".c"]
    let seen := (run before .new start).2
    let now := run (before ++ between) .new start
    let m : Mutation := .setFilterValue [.index 0] ".d"
    seen.version = 6 ∧ now.2.version = seen.version ∧ now.2.root = seen.root ∧
      (now.1.apply m now.2).1 = .applied 7 ∧ (now.1.apply m now.2).2.2.version = 7 := by
  intro before between start seen now m
  obtain ⟨-, -, hsame, happlied, -, -⟩ := version_stamps_the_tree .new start before between
  have hseen : seen.version = 6 := by decide +kernel
  have heq : now.2.version = seen.version := by decide +kernel
  have happly : (now.1.apply m now.2).1 = .applied 7 := by decide +kernel
  refine ⟨hseen, heq, (hsame heq).1, happly, ?_⟩
  simp only [now]
  exact (happlied m 7 happly).1.symm

end History

end FilterEditor
