import FilterEditor.Mutation.InPlace
import FilterEditor.Proofs.Place
import FilterEditor.Tree.Slot

/-!
# Reading and writing go the same way

There are two walks along a path: one reads, the other opens the place for writing, and every
mutation goes the second one.  They never part (`Slot.map_target_walk?`): where one arrives the
other does, at the same thing.  And to write into an open place is `Target.write` of the whole
(`Slot.write?_of_walk?`), so the laws of reading after a write carry over to slots.

Above the place a write changes what a container holds and nothing of its outline
(`Target.sameOutline_put`).
-/

namespace FilterEditor

/-! ## The outline of a place -/

namespace Target

/-- Two places of one sort with the same selectors below them, in the same order. -/
inductive SameOutline : Target → Target → Prop
  | pipeline {p q : Pipeline} : p.length = q.length → SameOutline (pipeline p) (pipeline q)
  | array {branches branches' : List Pipeline} : branches.length = branches'.length →
      SameOutline (node (.array branches)) (node (.array branches'))
  | object {entries entries' : Entries Pipeline} : Entries.keys entries = Entries.keys entries' →
      SameOutline (node (.object entries)) (node (.object entries'))

variable {t u v w : Target} {s : Selector} {p q : Path}

theorem sameOutline_put (h : t.step? s = some u) (hv : v.isNode = u.isNode) :
    SameOutline t (t.put s v) := by
  cases step?_eq_some_iff.mp h with
  | index hn =>
    cases v with
    | pipeline q => cases hv
    | node n => exact .pipeline List.length_set.symm
  | branch hq =>
    cases v with
    | node n => cases hv
    | pipeline q => exact .array List.length_set.symm
  | key hq =>
    cases v with
    | node n => cases hv
    | pipeline q =>
      refine .object ?_
      rw [Entries.keys_put, if_pos (Entries.mem_keys_of_get? hq)]

/-- **Above the place**, a write keeps every outline. -/
theorem sameOutline_write (h : t.walk? p = some u) (hv : v.isNode = u.isNode) (hq : q <+: p)
    (hne : q ≠ p) :
    ∃ w w', t.walk? q = some w ∧ (t.write p v).walk? q = some w' ∧ SameOutline w w' := by
  obtain ⟨rest, rfl⟩ := hq
  cases rest with
  | nil => exact absurd (List.append_nil q).symm hne
  | cons s rest =>
    rw [walk?_append, Option.bind_eq_some_iff] at h
    obtain ⟨w, hw, hbelow⟩ := h
    obtain ⟨z, hz, hrest⟩ := walk?_cons_eq_some.mp hbelow
    refine ⟨w, w.write (s :: rest) v, hw, ?_, ?_⟩
    · rw [write_append hw]
      exact walk?_write_self hw (isNode_write hbelow hv)
    · rw [write_cons hz]
      exact sameOutline_put hz (isNode_write hrest hv)

end Target

namespace Slot

variable {slot below slot' : Slot} {s : Selector} {path : Path} {x : Target}

/-! ## One step -/

/-- The second place stands under the selector in the first, and writes through it. -/
inductive Below : Slot → Selector → Slot → Prop
  | index {p : Pipeline} {put : Pipeline → Pipeline} {i : Nat} {n : Node} : p[i]? = some n →
      Below (pipeline p put) (.index i) (node n fun n' => put (p.set i n'))
  | branch {branches : List Pipeline} {put : Node → Pipeline} {b : Nat} {p : Pipeline} :
      branches[b]? = some p →
      Below (node (.array branches) put) (.branch b)
        (pipeline p fun p' => put (.array (branches.set b p')))
  | key {entries : Entries Pipeline} {put : Node → Pipeline} {k : String} {p : Pipeline} :
      Entries.get? k entries = some p →
      Below (node (.object entries) put) (.key k)
        (pipeline p fun p' => put (.object (Entries.put k p' entries)))

theorem below_of_step? (h : slot.step? s = some below) : Below slot s below := by
  unfold step? at h
  split at h
  · obtain ⟨n, hn, rfl⟩ := Option.map_eq_some_iff.mp h
    exact .index hn
  · obtain ⟨p, hp, rfl⟩ := Option.map_eq_some_iff.mp h
    exact .branch hp
  · obtain ⟨p, hp, rfl⟩ := Option.map_eq_some_iff.mp h
    exact .key hp
  · cases h

theorem map_target_step? (slot : Slot) (s : Selector) :
    (slot.step? s).map target = slot.target.step? s := by
  cases slot with
  | pipeline p put => cases s <;> simp [step?, target, Target.step?, Function.comp_def]
  | node n put =>
    cases n with
    | filter value => cases s <;> rfl
    | array branches => cases s <;> simp [step?, target, Target.step?, Function.comp_def]
    | object entries => cases s <;> simp [step?, target, Target.step?, Function.comp_def]

theorem Below.write?_eq (h : Below slot s below) (hx : x.isNode = below.target.isNode) :
    below.write? x = slot.write? (slot.target.put s x) := by
  cases h with
  | index =>
    cases x with
    | pipeline q => cases hx
    | node n => rfl
  | branch =>
    cases x with
    | node n => cases hx
    | pipeline q => rfl
  | key =>
    cases x with
    | node n => cases hx
    | pipeline q => rfl

theorem write?_target (slot : Slot) : slot.write? slot.target = some slot.whole := by
  cases slot <;> rfl

/-! ## Whole paths -/

theorem walk?_cons (slot : Slot) (s : Selector) (path : Path) :
    slot.walk? (s :: path) = (slot.step? s).bind fun below => below.walk? path := rfl

/-- **The two walks arrive together**, at the same thing. -/
theorem map_target_walk? (slot : Slot) (path : Path) :
    (slot.walk? path).map target = slot.target.walk? path := by
  induction path generalizing slot with
  | nil => rfl
  | cons s rest ih =>
    rw [walk?_cons, Target.walk?_cons, ← map_target_step?]
    cases slot.step? s with
    | none => rfl
    | some below => exact ih below

theorem target_walk? (h : slot.walk? path = some slot') :
    slot.target.walk? path = some slot'.target := by
  rw [← map_target_walk?, h]
  rfl

/-- **What is written into an open place is written at its path.** -/
theorem write?_of_walk? (h : slot.walk? path = some slot')
    (hx : x.isNode = slot'.target.isNode) :
    slot'.write? x = slot.write? (slot.target.write path x) := by
  induction path generalizing slot with
  | nil =>
    cases h
    rfl
  | cons s rest ih =>
    rw [walk?_cons, Option.bind_eq_some_iff] at h
    obtain ⟨below, hbelow, hrest⟩ := h
    have hstep : slot.target.step? s = some below.target := by
      rw [← map_target_step?, hbelow]
      rfl
    have hsort : (below.target.write rest x).isNode = below.target.isNode :=
      Target.isNode_write (target_walk? hrest) hx
    rw [ih hrest, (below_of_step? hbelow).write?_eq hsort, Target.write_cons hstep]

theorem whole_of_walk? (h : slot.walk? path = some slot') : slot'.whole = slot.whole := by
  have hwrite := write?_of_walk? h (x := slot'.target) rfl
  rw [Target.write_self (target_walk? h), write?_target, write?_target] at hwrite
  exact Option.some.inj hwrite

/-! ## Work in a place -/

/-- Work on what stands in the place.  What the work leaves stands there afterwards. -/
def run (slot : Slot) (onNode : Work Node Unit) (onPipeline : Work Pipeline Unit) :
    EStateM.Result MutationError Pipeline Unit :=
  match slot with
  | node n put => Work.onPart onNode n put
  | pipeline p put => Work.onPart onPipeline p put

theorem Below.run_eq (h : Below slot s below) (job : Job) (rest : Path) :
    slot.run (job.node (s :: rest)) (job.pipeline (s :: rest)) =
      below.run (job.node rest) (job.pipeline rest) := by
  cases h with
  | index hn => exact Work.onPart_onPart (by rw [Job.pipeline, hn]) _
  | branch hp => exact Work.onPart_onPart (by rw [Job.node, hp]) _
  | key hp => exact Work.onPart_onPart (by rw [Job.node, hp]) _

theorem run_of_step?_eq_none (h : slot.step? s = none) (job : Job) (rest : Path) :
    slot.run (job.node (s :: rest)) (job.pipeline (s :: rest)) = .error job.missing slot.whole := by
  cases slot with
  | pipeline p put =>
    cases s with
    | branch b => rfl
    | key k => rfl
    | index i =>
      have hn : p[i]? = none := Option.map_eq_none_iff.mp h
      rw [run, Work.onPart, Job.pipeline, hn]
      rfl
  | node n put =>
    cases n with
    | filter value => cases s <;> rfl
    | array branches =>
      cases s with
      | index i => rfl
      | key k => rfl
      | branch b =>
        have hp : branches[b]? = none := Option.map_eq_none_iff.mp h
        rw [run, Work.onPart, Job.node, hp]
        rfl
    | object entries =>
      cases s with
      | index i => rfl
      | branch b => rfl
      | key k =>
        have hp : Entries.get? k entries = none := Option.map_eq_none_iff.mp h
        rw [run, Work.onPart, Job.node, hp]
        rfl

theorem run_walk? (job : Job) (slot : Slot) (path : Path) :
    slot.run (job.node path) (job.pipeline path) =
      match slot.walk? path with
      | none => .error job.missing slot.whole
      | some slot' => slot'.run job.onNode job.onPipeline := by
  induction path generalizing slot with
  | nil =>
    cases slot with
    | pipeline p put => rfl
    | node n put => cases n <;> rfl
  | cons s rest ih =>
    rw [walk?_cons]
    cases hstep : slot.step? s with
    | none => exact run_of_step?_eq_none hstep job rest
    | some below =>
      have hopened : slot.walk? [s] = some below := by
        rw [walk?_cons, hstep]
        rfl
      rw [(below_of_step? hstep).run_eq, ← whole_of_walk? hopened]
      exact ih below

end Slot

/-- The work of a job is done in the place that its path opens. -/
theorem Job.pipeline_eq_run (job : Job) (path : Path) (root : Pipeline) :
    job.pipeline path root =
      match root.slot? path with
      | none => .error job.missing root
      | some slot => slot.run job.onNode job.onPipeline := by
  have hwhole : (Slot.pipeline root id).run (job.node path) (job.pipeline path) =
      job.pipeline path root := by
    rw [Slot.run, Work.onPart]
    cases job.pipeline path root <;> rfl
  rw [← hwhole, Slot.run_walk?]
  rfl

namespace Pipeline

/-- **Reading and writing go the same way, and a write is local.**  A place is opened for writing
just when it can be read, as the same thing, and there the work of every job is done.  To write
back what was read changes nothing.  After a write of anything of the same sort, one reads it at the
path; off the path everything is as it was; and on the way there all containers have the outline
that they had. -/
theorem writing_is_local (root : Pipeline) (path : Path) :
    (root.slot? path).map Slot.target = root.resolve? path ∧
      (∀ job : Job, job.pipeline path root =
        match root.slot? path with
        | none => .error job.missing root
        | some slot => slot.run job.onNode job.onPipeline) ∧
      ∀ slot, root.slot? path = some slot →
        slot.write? slot.target = some root ∧
          ∀ x : Target, x.isNode = slot.target.isNode → ∃ root', slot.write? x = some root' ∧
            root'.resolve? path = some x ∧
            (∀ q : Path, ¬ path <+: q → ¬ q <+: path → root'.resolve? q = root.resolve? q) ∧
            ∀ q : Path, q <+: path → q ≠ path → ∃ t t', root.resolve? q = some t ∧
              root'.resolve? q = some t' ∧ t.SameOutline t' := by
  refine ⟨Slot.map_target_walk? _ path, fun job => job.pipeline_eq_run path root, ?_⟩
  intro slot hslot
  have hwalk : (Target.pipeline root).walk? path = some slot.target := Slot.target_walk? hslot
  refine ⟨?_, fun x hx => ?_⟩
  · rw [Slot.write?_target, Slot.whole_of_walk? hslot]
    rfl
  · obtain ⟨root', hwrite⟩ := Target.exists_write_eq_pipeline hwalk hx
    have hread : ∀ q, root'.resolve? q = ((Target.pipeline root).write path x).walk? q := by
      intro q
      rw [hwrite]
      rfl
    refine ⟨root', ?_, ?_, fun q hpq hqp => ?_, fun q hq hne => ?_⟩
    · rw [Slot.write?_of_walk? hslot hx, Slot.target, hwrite]
      rfl
    · rw [hread]
      exact Target.walk?_write_self hwalk hx
    · rw [hread]
      exact Target.walk?_write_apart hwalk hx hpq hqp
    · rw [hread]
      exact Target.sameOutline_write hwalk hx hq hne

/-- A branch below two arrays and two objects is emptied. -/
theorem writing_is_local_nested :
    let inner : Pipeline := [.array [[.filter ".x"], [.object [("l", [.filter ".y"]), ("m", [])]]]]
    let root : Pipeline :=
      [.filter ".", .array [[], [.object [("a", [.filter ".z"]), ("k", inner)]]]]
    let outer : Path := [.index 1, .branch 1, .index 0]
    let path : Path := outer ++ [.key "k", .index 0, .branch 1, .index 0, .key "l"]
    ∃ slot root', root.slot? path = some slot ∧ slot.target = .pipeline [.filter ".y"] ∧
      slot.write? slot.target = some root ∧ slot.write? (.pipeline []) = some root' ∧
      root'.resolve? path = some (.pipeline []) ∧
      root'.resolve? (outer ++ [.key "a"]) = some (.pipeline [.filter ".z"]) ∧
      ∃ t t', root.resolve? outer = some t ∧ root'.resolve? outer = some t' ∧ t.SameOutline t' := by
  intro inner root outer path
  obtain ⟨hagree, -, hwriting⟩ := writing_is_local root path
  have hread : root.resolve? path = some (.pipeline [.filter ".y"]) := by decide +kernel
  rw [hread, Option.map_eq_some_iff] at hagree
  obtain ⟨slot, hslot, htarget⟩ := hagree
  obtain ⟨hback, hwrite⟩ := hwriting slot hslot
  obtain ⟨root', hroot', hself, hapart, habove⟩ := hwrite (.pipeline []) (by rw [htarget]; rfl)
  refine ⟨slot, root', hslot, htarget, hback, hroot', hself, ?_, ?_⟩
  · have hother : root.resolve? (outer ++ [.key "a"]) = some (.pipeline [.filter ".z"]) := by
      decide +kernel
    exact (hapart _ (by decide) (by decide)).trans hother
  · exact habove outer (List.prefix_append outer _) (by decide)

end Pipeline

end FilterEditor
