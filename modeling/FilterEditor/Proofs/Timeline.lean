import FilterEditor.History.Command
import FilterEditor.Proofs.History

/-!
# The history is a timeline of whole trees

`History` keeps one tree and a list of mutations for each step, commits an open step late, and does
a step again by replaying its mutations.  A `Timeline` is the plain account of the same thing: the
trees behind, the tree now and the trees ahead.  The first mutation of a step moves the present into
the past and empties the future; undo and redo move one tree.  `trace_eq_timeline` says that nobody
who sees the trees and the answers can tell the two apart, whatever the commands and the bound, as
long as the document is changed through the history alone.

The proof keeps `Tracks` along the run.  What it says of the past and the future it says of the
history with its open step closed, for that is what undo and redo look at first:

* `Undoes`: from the present back, each step starts at its snapshot, and its mutations lead from
  there to where the next step starts.
* `Redoes`: from the present on, the same, so replaying a step gives the tree that undo took away.

In particular redo never fails.
-/

namespace FilterEditor

/-! ## Timelines -/

/-- How far the current step of a timeline has come. -/
inductive Timeline.Phase where
  /-- No step is held open; each mutation is a step of its own. -/
  | closed
  /-- A step is held open, and nothing has been applied in it. -/
  | opened
  /-- A step is held open, and its first mutation has been applied. -/
  | begun
  deriving DecidableEq, Repr

/-- An editing history as whole trees. -/
structure Timeline where
  /-- How many trees are kept behind; zero means all of them. -/
  maxLevels : Nat
  /-- The trees behind, the latest first. -/
  past : List Pipeline
  present : Pipeline
  /-- The trees ahead, the next first. -/
  future : List Pipeline
  phase : Timeline.Phase
  deriving DecidableEq, Repr

namespace Timeline

inductive Answer where
  | silent
  | applied
  | ignored (error : MutationError)
  | undone (done : Bool)
  | redone (done : Bool)
  deriving DecidableEq, Repr

def start (maxLevels : Nat) (root : Pipeline) : Timeline :=
  ⟨maxLevels, [], root, [], .closed⟩

/-- The past without its oldest tree if it has grown beyond the bound. -/
def bound (maxLevels : Nat) (past : List Pipeline) : List Pipeline :=
  if maxLevels ≠ 0 ∧ maxLevels < past.length then past.dropLast else past

def advance (t : Timeline) (root : Pipeline) : Timeline :=
  { t with past := bound t.maxLevels (t.present :: t.past), present := root, future := [] }

/-- Apply a mutation; only the first one of a step makes the present past. -/
def apply (stem : String) (m : Mutation) (t : Timeline) : Answer × Timeline :=
  match m.applyWith stem t.present with
  | .error e => (.ignored e, t)
  | .ok root =>
    match t.phase with
    | .closed => (.applied, t.advance root)
    | .opened => (.applied, { t.advance root with phase := .begun })
    | .begun => (.applied, { t with present := root })

def undo (t : Timeline) : Answer × Timeline :=
  match t.past with
  | [] => (.undone false, { t with phase := .closed })
  | tree :: past =>
    (.undone true,
      { t with past := past, present := tree, future := t.present :: t.future, phase := .closed })

def redo (t : Timeline) : Answer × Timeline :=
  match t.future with
  | [] => (.redone false, { t with phase := .closed })
  | tree :: future =>
    (.redone true,
      { t with past := t.present :: t.past, present := tree, future := future, phase := .closed })

/-- Carry out a command; one that goes past the history has no place on a timeline. -/
def perform (stem : String) (c : History.Command) (t : Timeline) : Answer × Timeline :=
  match c with
  | .apply m => t.apply stem m
  | .begin => (.silent, { t with phase := .opened })
  | .finish => (.silent, { t with phase := .closed })
  | .describe _ => (.silent, t)
  | .undo => t.undo
  | .redo => t.redo
  | .clear => (.silent, { t with past := [], future := [], phase := .closed })
  | .outside _ => (.silent, t)

def trace (stem : String) : List History.Command → Timeline → List (Answer × Pipeline)
  | [], _ => []
  | c :: rest, t =>
    ((t.perform stem c).1, (t.perform stem c).2.present) :: trace stem rest (t.perform stem c).2

end Timeline

namespace History

/-- The answer as a timeline gives it, which knows no versions.  That a step does not fit is no
answer of a timeline. -/
def Answer.onTimeline? : Answer → Option Timeline.Answer
  | silent => some .silent
  | outcome (.applied _) => some .applied
  | outcome (.ignored e) => some (.ignored e)
  | undone done => some (.undone done)
  | redone done => some (.redone done)
  | misfit _ => none

def trace : List Command → History → Document → List (Answer × Pipeline)
  | [], _, _ => []
  | c :: rest, h, d =>
    ((perform c h d).1, (perform c h d).2.2.root) ::
      trace rest (perform c h d).2.1 (perform c h d).2.2

end History

/-! ## Steps that lead from tree to tree -/

/-- The step was done on the tree `before` and made it the tree `after`. -/
structure Step.Leads (stem : String) (s : Step) (before after : Pipeline) : Prop where
  snapshot_eq : s.snapshot = before
  replays : Mutation.applyAll stem s.mutations before = .ok after

theorem Step.leads_single {stem : String} {m : Mutation} {before after : Pipeline}
    (h : m.applyWith stem before = .ok after) : (Step.single m before).Leads stem before after :=
  ⟨rfl, @Mutation.applyAll_concat stem [] m before before after rfl h⟩

theorem Step.Leads.record {stem : String} {s : Step} {m : Mutation}
    {before middle after : Pipeline} (hs : s.Leads stem before middle) (hne : s.mutations ≠ [])
    (h : m.applyWith stem middle = .ok after) : (s.record m middle).Leads stem before after where
  snapshot_eq := by
    rw [Step.record]
    simp only [if_neg hne]
    exact hs.snapshot_eq
  replays := Mutation.applyAll_concat hs.replays h

/-- The first mutation noted in an open step makes it the step of that mutation alone. -/
theorem Step.Leads.of_record_blank {stem : String} {s : Step} {m : Mutation}
    {root before after : Pipeline} (h : (Step.single m root).Leads stem before after)
    (he : s.mutations = []) : (s.record m root).Leads stem before after where
  snapshot_eq := by
    rw [Step.record]
    simp only [if_pos he]
    exact h.snapshot_eq
  replays := by
    rw [Step.record, he]
    exact h.replays

/-- The steps lead from the trees, the latest first, up to the present. -/
inductive Undoes (stem : String) : List Step → Pipeline → List Pipeline → Prop
  | nil {present : Pipeline} : Undoes stem [] present []
  | cons {s : Step} {steps : List Step} {before present : Pipeline} {trees : List Pipeline} :
      s.Leads stem before present → Undoes stem steps before trees →
        Undoes stem (s :: steps) present (before :: trees)

/-- The steps lead from the present to the trees, one after the other. -/
inductive Redoes (stem : String) : List Step → Pipeline → List Pipeline → Prop
  | nil {present : Pipeline} : Redoes stem [] present []
  | cons {s : Step} {steps : List Step} {present after : Pipeline} {trees : List Pipeline} :
      s.Leads stem present after → Redoes stem steps after trees →
        Redoes stem (s :: steps) present (after :: trees)

namespace Undoes

variable {stem : String} {steps : List Step} {present : Pipeline} {trees : List Pipeline}

theorem length_eq (h : Undoes stem steps present trees) : steps.length = trees.length := by
  induction h with
  | nil => rfl
  | cons _ _ ih => rw [List.length_cons, List.length_cons, ih]

theorem dropLast (h : Undoes stem steps present trees) :
    Undoes stem steps.dropLast present trees.dropLast := by
  induction h with
  | nil => exact .nil
  | cons hs hrest ih =>
    cases hrest with
    | nil => exact .nil
    | cons => exact .cons hs ih

theorem trim (h : Undoes stem steps present trees) (maxLevels : Nat) :
    Undoes stem (History.trim maxLevels steps) present (Timeline.bound maxLevels trees) := by
  rw [History.trim, Timeline.bound, h.length_eq]
  simp only [Nat.pos_iff_ne_zero]
  split
  · exact h.dropLast
  · exact h

end Undoes

theorem History.trim_cons (maxLevels : Nat) (past : List Step) :
    ∃ kept, ∀ s, History.trim maxLevels (s :: past) = s :: kept := by
  by_cases h : 0 < maxLevels ∧ maxLevels < past.length + 1
  · have hne : past ≠ [] := by
      rintro rfl
      simp only [List.length_nil] at h
      omega
    exact ⟨past.dropLast, fun s => by
      rw [History.trim, List.length_cons, if_pos h, List.dropLast_cons_of_ne_nil hne]⟩
  · exact ⟨past, fun s => by rw [History.trim, List.length_cons, if_neg h]⟩

/-- The latest step may be exchanged for one that leads on from the same tree. -/
theorem Undoes.exchange {stem : String} {maxLevels : Nat} {s s' : Step} {past : List Step}
    {present present' : Pipeline} {trees : List Pipeline}
    (h : Undoes stem (History.trim maxLevels (s :: past)) present trees)
    (hs : ∀ before, s.Leads stem before present → s'.Leads stem before present') :
    Undoes stem (History.trim maxLevels (s' :: past)) present' trees := by
  obtain ⟨kept, hkept⟩ := History.trim_cons maxLevels past
  rw [hkept] at h ⊢
  cases h with
  | cons hleads hrest => exact .cons (hs _ hleads) hrest

/-! ## Phases -/

def Timeline.Phase.of : Option Step → Phase
  | none => .closed
  | some s => if s.mutations = [] then .opened else .begun

theorem Timeline.Phase.of_eq_begun {s : Step} (hne : s.mutations ≠ []) : of (some s) = .begun :=
  if_neg hne

theorem Timeline.Phase.of_eq_begun_iff {o : Option Step} :
    of o = .begun ↔ ∃ s, o = some s ∧ s.mutations ≠ [] := by
  cases o with
  | none => simp [of]
  | some s => by_cases he : s.mutations = [] <;> simp [of, he]

theorem Timeline.Phase.of_eq_opened {s : Step} (he : s.mutations = []) : of (some s) = .opened :=
  if_pos he

namespace History

variable {h : History}

/-- Closing moves nothing when nothing has been applied in the open step. -/
theorem finish_of_ne_begun (hp : Timeline.Phase.of h.openStep ≠ .begun) :
    h.finish = { h with openStep := none } := by
  cases hs : h.openStep with
  | none =>
    rw [finish_of_closed hs, ← hs]
  | some s =>
    by_cases he : s.mutations = []
    · exact finish_of_opened hs he
    · rw [hs] at hp
      exact absurd (Timeline.Phase.of_eq_begun he) hp

theorem past_finish (hp : Timeline.Phase.of h.openStep ≠ .begun) : h.finish.past = h.past := by
  rw [finish_of_ne_begun hp]

theorem future_finish (hp : Timeline.Phase.of h.openStep ≠ .begun) :
    h.finish.future = h.future := by
  rw [finish_of_ne_begun hp]

end History

/-! ## The simulation -/

/-- The history and its document stand where the timeline stands. -/
structure Tracks (stem : String) (h : History) (d : Document) (t : Timeline) : Prop where
  stem_eq : d.freshKeyPrefix = stem
  maxLevels_eq : h.maxLevels = t.maxLevels
  root_eq : d.root = t.present
  phase_eq : Timeline.Phase.of h.openStep = t.phase
  undoes : Undoes stem h.finish.past t.present t.past
  redoes : Redoes stem h.finish.future t.present t.future

namespace Tracks

variable {stem : String} {h : History} {d : Document} {t : Timeline}

theorem of_closed (hs : h.openStep = none) (hstem : d.freshKeyPrefix = stem)
    (hmax : h.maxLevels = t.maxLevels) (hroot : d.root = t.present) (hphase : t.phase = .closed)
    (hpast : Undoes stem h.past t.present t.past)
    (hfuture : Redoes stem h.future t.present t.future) : Tracks stem h d t where
  stem_eq := hstem
  maxLevels_eq := hmax
  root_eq := hroot
  phase_eq := by rw [hphase, hs]; rfl
  undoes := by rw [History.finish_of_closed hs]; exact hpast
  redoes := by rw [History.finish_of_closed hs]; exact hfuture

theorem start (maxLevels : Nat) (d : Document) :
    Tracks d.freshKeyPrefix (.ofMaxLevels maxLevels) d (.start maxLevels d.root) :=
  of_closed rfl rfl rfl rfl rfl .nil .nil

theorem finish (ht : Tracks stem h d t) : Tracks stem h.finish d { t with phase := .closed } :=
  of_closed h.openStep_finish ht.stem_eq (h.maxLevels_finish.trans ht.maxLevels_eq) ht.root_eq rfl
    ht.undoes ht.redoes

theorem begin (ht : Tracks stem h d t) : Tracks stem h.begin d { t with phase := .opened } where
  stem_eq := ht.stem_eq
  maxLevels_eq := h.maxLevels_finish.trans ht.maxLevels_eq
  root_eq := ht.root_eq
  phase_eq := rfl
  undoes := ht.undoes
  redoes := ht.redoes

theorem describe (ht : Tracks stem h d t) (text : String) : Tracks stem (h.describe text) d t := by
  obtain ⟨hstem, hmax, hroot, hphase, hundoes, hredoes⟩ := ht
  have hphase' : Timeline.Phase.of (h.describe text).openStep = .of h.openStep := by
    rw [History.describe]
    cases h.openStep <;> rfl
  by_cases hp : Timeline.Phase.of h.openStep = .begun
  · obtain ⟨s, hs, hne⟩ := Timeline.Phase.of_eq_begun_iff.mp hp
    have hs' : (h.describe text).openStep = some (s.describe text) := by
      rw [History.describe, hs]
      rfl
    rw [History.past_finish_of_begun hs hne] at hundoes
    rw [History.future_finish_of_begun hs hne] at hredoes
    refine ⟨hstem, hmax, hroot, hphase'.trans hphase, ?_, ?_⟩
    · rw [History.past_finish_of_begun hs' hne]
      exact hundoes.exchange fun before hleads => ⟨hleads.snapshot_eq, hleads.replays⟩
    · rw [History.future_finish_of_begun hs' hne]
      exact hredoes
  · rw [History.past_finish hp] at hundoes
    rw [History.future_finish hp] at hredoes
    have hp' := hphase'.symm ▸ hp
    refine ⟨hstem, hmax, hroot, hphase'.trans hphase, ?_, ?_⟩
    · rw [History.past_finish hp']
      exact hundoes
    · rw [History.future_finish hp']
      exact hredoes

/-- The first mutation of a step moves the present into the past. -/
theorem undoes_advance (ht : Tracks stem h d t) {m : Mutation} {root : Pipeline}
    (hm : m.applyWith stem d.root = .ok root) (hp : Timeline.Phase.of h.openStep ≠ .begun) :
    Undoes stem (History.trim h.maxLevels (.single m d.root :: h.past)) root
      (t.advance root).past := by
  have hpast := ht.undoes
  rw [History.past_finish hp, ← ht.root_eq] at hpast
  have hadd := (Undoes.cons (Step.leads_single hm) hpast).trim h.maxLevels
  rw [ht.root_eq, ht.maxLevels_eq] at hadd
  rw [ht.root_eq, ht.maxLevels_eq]
  exact hadd

theorem record (ht : Tracks stem h d t) {m : Mutation} {root : Pipeline}
    (hm : m.applyWith stem d.root = .ok root) :
    (t.apply stem m).1 = .applied ∧
      Tracks stem (h.record m d.root) (d.restore root) (t.apply stem m).2 := by
  rw [Timeline.apply, ← ht.root_eq, hm, ← ht.phase_eq]
  cases hs : h.openStep with
  | none =>
    have hr : h.record m d.root = h.push (.single m d.root) := by rw [History.record, hs]
    have hp : Timeline.Phase.of h.openStep ≠ .begun := by rw [hs]; decide
    rw [hr]
    refine ⟨rfl, of_closed hs ht.stem_eq ht.maxLevels_eq rfl ?_ (ht.undoes_advance hm hp) .nil⟩
    show t.phase = .closed
    rw [← ht.phase_eq, hs]
    rfl
  | some s =>
    have hr : h.record m d.root = { h with openStep := some (s.record m d.root) } := by
      rw [History.record, hs]
    have hne : (s.record m d.root).mutations ≠ [] := by simp [Step.record]
    have hbegun : Timeline.Phase.of (some (s.record m d.root)) = .begun :=
      Timeline.Phase.of_eq_begun hne
    rw [hr]
    by_cases he : s.mutations = []
    · have hp : Timeline.Phase.of h.openStep ≠ .begun := by
        rw [hs, Timeline.Phase.of_eq_opened he]
        decide
      rw [Timeline.Phase.of_eq_opened he]
      refine ⟨rfl, ht.stem_eq, ht.maxLevels_eq, rfl, hbegun, ?_, ?_⟩
      · rw [History.past_finish_of_begun rfl hne]
        refine (ht.undoes_advance hm hp).exchange fun before hleads => ?_
        exact hleads.of_record_blank he
      · rw [History.future_finish_of_begun rfl hne]
        exact .nil
    · rw [Timeline.Phase.of_eq_begun he]
      have hundoes := ht.undoes
      rw [History.past_finish_of_begun hs he, ← ht.root_eq] at hundoes
      have hredoes := ht.redoes
      rw [History.future_finish_of_begun hs he] at hredoes
      refine ⟨rfl, ht.stem_eq, ht.maxLevels_eq, rfl, hbegun, ?_, ?_⟩
      · rw [History.past_finish_of_begun rfl hne]
        exact hundoes.exchange fun before hleads => hleads.record he hm
      · rw [History.future_finish_of_begun rfl hne]
        generalize t.future = trees at hredoes
        cases hredoes
        exact .nil

theorem apply (ht : Tracks stem h d t) (m : Mutation) :
    (History.perform (.apply m) h d).1.onTimeline? = some (t.apply stem m).1 ∧
      Tracks stem (History.perform (.apply m) h d).2.1 (History.perform (.apply m) h d).2.2
        (t.apply stem m).2 := by
  rw [History.perform]
  cases hm : m.applyWith stem d.root with
  | error e =>
    rw [History.apply_of_error (ht.stem_eq ▸ hm), Timeline.apply, ← ht.root_eq, hm]
    exact ⟨rfl, ht⟩
  | ok root =>
    obtain ⟨hanswer, htracks⟩ := ht.record hm
    rw [History.apply_of_ok (ht.stem_eq ▸ hm), hanswer]
    exact ⟨rfl, htracks⟩

/-- Undo finds its tree in the snapshot of the latest step. -/
theorem undo (ht : Tracks stem h d t) :
    (History.perform .undo h d).1.onTimeline? = some t.undo.1 ∧
      Tracks stem (History.perform .undo h d).2.1 (History.perform .undo h d).2.2 t.undo.2 := by
  obtain ⟨maxLevels, past, present, future, phase⟩ := t
  obtain ⟨hstem, hmax, hroot, -, hundoes, hredoes⟩ := id ht
  have hmax' := h.maxLevels_finish.trans hmax
  generalize hsteps : h.finish.past = steps at hundoes
  rw [History.perform]
  cases hundoes with
  | nil =>
    rw [History.undo_of_nil hsteps]
    exact ⟨rfl, ht.finish⟩
  | cons hleads hrest =>
    rw [History.undo_of_cons hsteps]
    refine ⟨rfl, of_closed h.openStep_finish hstem hmax' hleads.snapshot_eq rfl hrest ?_⟩
    exact .cons hleads hredoes

/-- Redo finds its tree by replaying the step, which fits as it did when it was done. -/
theorem redo (ht : Tracks stem h d t) :
    (History.perform .redo h d).1.onTimeline? = some t.redo.1 ∧
      Tracks stem (History.perform .redo h d).2.1 (History.perform .redo h d).2.2 t.redo.2 := by
  obtain ⟨maxLevels, past, present, future, phase⟩ := t
  obtain ⟨rfl, hmax, rfl, -, hundoes, hredoes⟩ := id ht
  have hmax' := h.maxLevels_finish.trans hmax
  generalize hsteps : h.finish.future = steps at hredoes
  rw [History.perform]
  cases hredoes with
  | nil =>
    rw [History.redo_of_nil hsteps]
    exact ⟨rfl, ht.finish⟩
  | cons hleads hrest =>
    obtain ⟨d', hreplay, hroot', hstem'⟩ := Step.replay_of_applyAll hleads.replays
    rw [History.redo_of_replay hsteps hreplay]
    refine ⟨rfl, of_closed h.openStep_finish hstem' hmax' hroot' rfl ?_ hrest⟩
    exact .cons hleads hundoes

theorem perform (ht : Tracks stem h d t) {c : History.Command} (hc : c.isInside) :
    (History.perform c h d).1.onTimeline? = some (t.perform stem c).1 ∧
      Tracks stem (History.perform c h d).2.1 (History.perform c h d).2.2 (t.perform stem c).2 := by
  cases c with
  | apply m => exact ht.apply m
  | begin => exact ⟨rfl, ht.begin⟩
  | finish => exact ⟨rfl, ht.finish⟩
  | describe text => exact ⟨rfl, ht.describe text⟩
  | undo => exact ht.undo
  | redo => exact ht.redo
  | clear => exact ⟨rfl, of_closed rfl ht.stem_eq ht.maxLevels_eq ht.root_eq rfl .nil .nil⟩
  | outside change => exact absurd hc (by simp [History.Command.isInside])

/-- From states that stand at the same place, all commands give the same answers and trees. -/
theorem trace_eq {cs : List History.Command} (ht : Tracks stem h d t) (hcs : ∀ c ∈ cs, c.isInside) :
    (History.trace cs h d).map (fun r => (r.1.onTimeline?, r.2)) =
      (t.trace stem cs).map fun r => (some r.1, r.2) := by
  induction cs generalizing h d t with
  | nil => rfl
  | cons c rest ih =>
    obtain ⟨hanswer, hnext⟩ := ht.perform (hcs c List.mem_cons_self)
    rw [History.trace, Timeline.trace, List.map_cons, List.map_cons, hanswer, hnext.root_eq,
      ih hnext fun c hc => hcs c (List.mem_cons_of_mem _ hc)]

end Tracks

/-- **The history is a timeline.**  Whatever the bound, the document and the commands, the answers
and the trees are those of the timeline that begins with the tree of the document. -/
theorem trace_eq_timeline (maxLevels : Nat) (d : Document) (cs : List History.Command)
    (hcs : ∀ c ∈ cs, c.isInside) :
    (History.trace cs (.ofMaxLevels maxLevels) d).map (fun r => (r.1.onTimeline?, r.2)) =
      ((Timeline.start maxLevels d.root).trace d.freshKeyPrefix cs).map fun r => (some r.1, r.2) :=
  (Tracks.start maxLevels d).trace_eq hcs

/-- A lone mutation and a step of two, with room for one step: the later step comes back whole,
and the earlier one is forgotten. -/
theorem trace_eq_timeline_bounded :
    let cs : List History.Command :=
      [.apply (.setFilterValue [.index 0] ".a"), .begin, .apply (.setFilterValue [.index 0] ".b"),
        .apply (.insertSibling [.index 0] .array), .undo, .redo, .undo, .undo]
    (∀ c ∈ cs, c.isInside) ∧
      (History.trace cs (.ofMaxLevels 1) .new).map (fun r => (r.1.onTimeline?, r.2)) =
        [(some .applied, [.filter ".a"]), (some .silent, [.filter ".a"]),
          (some .applied, [.filter ".b"]), (some .applied, [.filter ".b", .array []]),
          (some (.undone true), [.filter ".a"]),
          (some (.redone true), [.filter ".b", .array []]),
          (some (.undone true), [.filter ".a"]), (some (.undone false), [.filter ".a"])] :=
  ⟨by decide, (trace_eq_timeline 1 .new _ (by decide)).trans (by decide)⟩

end FilterEditor
