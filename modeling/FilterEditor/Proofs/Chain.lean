import FilterEditor.Proofs.Place
import FilterEditor.Selection

/-!
# Ancestor chains

Cutting a tree down to a path takes the steps that a walk along the path takes, and it fails where
the walk fails.  What is left depends on two things only, the place at the end of the path and the
containers that the selectors ask for (`Target.prune?_eq`).  So a chain is built from the inside:
`Target.around` puts one place into a container of its own, and `Target.chain` does so for each
selector of a path.

In such a chain every position is the first one, and only keys are left to tell.  The place is found
there under the collapsed path (`Target.walk?_chain`), and the collapsed path has the same chain
(`Target.chain_collapse`).
-/

namespace FilterEditor

/-- The selector of the same element when it is the only one. -/
def Selector.collapse : Selector → Selector
  | index _ => index 0
  | branch _ => branch 0
  | key k => key k

/-- The path to the same place when nothing stands beside it or beside what is above it. -/
def Path.collapse (path : Path) : Path :=
  path.map Selector.collapse

namespace Target

/-- The container that a selector asks for, with one place in it.  A place of the wrong sort stays
as it is. -/
def around : Selector → Target → Target
  | .index _, node n => pipeline [n]
  | .branch _, pipeline p => node (.array [p])
  | .key k, pipeline p => node (.object [(k, p)])
  | _, t => t

/-- The place is of the sort that a selector leads to: a node in a pipeline, or a branch. -/
inductive Fits : Selector → Target → Prop
  | index {i : Nat} {n : Node} : Fits (.index i) (node n)
  | branch {b : Nat} {p : Pipeline} : Fits (.branch b) (pipeline p)
  | key {k : String} {p : Pipeline} : Fits (.key k) (pipeline p)

/-- The containers that a path asks for, one in the other, around the place at its end. -/
def chain (path : Path) (t : Target) : Target :=
  path.foldr around t

def prune? (path : Path) : Target → Option Target
  | node n => (Node.prune? path n).map node
  | pipeline p => (Pipeline.prune? path p).map pipeline

/-- The third place is of the kind of the first, and all that it holds is one child under the
selector. -/
inductive Narrows : Target → Selector → Target → Prop
  | pipeline {p : Pipeline} {i : Nat} {n : Node} :
      Narrows (pipeline p) (.index i) (pipeline [n])
  | array {branches : List Pipeline} {b : Nat} {q : Pipeline} :
      Narrows (node (.array branches)) (.branch b) (node (.array [q]))
  | object {entries : Entries Pipeline} {k : String} {q : Pipeline} :
      Narrows (node (.object entries)) (.key k) (node (.object [(k, q)]))

variable {t u v w : Target} {x : Selector} {path : Path}

/-! ## Pruning builds a chain -/

theorem prune?_nil (t : Target) : t.prune? [] = some t := by
  cases t with
  | pipeline p => rfl
  | node n => cases n <;> rfl

theorem prune?_cons (x : Selector) (rest : Path) (t : Target) :
    t.prune? (x :: rest) = (t.step? x).bind fun u => (u.prune? rest).map (around x) := by
  cases t with
  | pipeline p =>
    cases x with
    | branch b => rfl
    | key k => rfl
    | index i =>
      rw [prune?, Pipeline.prune?, step?]
      cases p[i]? with
      | none => rfl
      | some n =>
        show ((Node.prune? rest n).map _).map pipeline = ((Node.prune? rest n).map node).map _
        rw [Option.map_map, Option.map_map]
        rfl
  | node n =>
    cases n with
    | filter value => cases x <;> rfl
    | array branches =>
      cases x with
      | index i => rfl
      | key k => rfl
      | branch b =>
        rw [prune?, Node.prune?, step?]
        cases branches[b]? with
        | none => rfl
        | some p =>
          show ((Pipeline.prune? rest p).map _).map node = ((Pipeline.prune? rest p).map pipeline).map _
          rw [Option.map_map, Option.map_map]
          rfl
    | object entries =>
      cases x with
      | index i => rfl
      | branch b => rfl
      | key k =>
        rw [prune?, Node.prune?, step?]
        cases Entries.get? k entries with
        | none => rfl
        | some p =>
          show ((Pipeline.prune? rest p).map _).map node = ((Pipeline.prune? rest p).map pipeline).map _
          rw [Option.map_map, Option.map_map]
          rfl

/-- **Pruning is a walk and a chain.** -/
theorem prune?_eq (path : Path) (t : Target) :
    t.prune? path = (t.walk? path).map (chain path) := by
  induction path generalizing t with
  | nil => exact prune?_nil t
  | cons x rest ih =>
    rw [prune?_cons, walk?_cons]
    cases t.step? x with
    | none => rfl
    | some u =>
      show (u.prune? rest).map (around x) = (u.walk? rest).map (chain (x :: rest))
      rw [ih u, Option.map_map]
      rfl

/-! ## What a chain holds -/

theorem chain_append (p q : Path) (t : Target) : chain (p ++ q) t = chain p (chain q t) :=
  List.foldr_append

theorem around_collapse (x : Selector) : around x.collapse = around x := by
  funext t
  cases x <;> cases t <;> rfl

/-- Positions do not show in a chain. -/
theorem chain_collapse (path : Path) (t : Target) : chain path.collapse t = chain path t := by
  induction path with
  | nil => rfl
  | cons x rest ih =>
    show around x.collapse (chain (Path.collapse rest) t) = around x (chain rest t)
    rw [around_collapse, ih]

theorem fits_of_step? (h : t.step? x = some u) (hv : v.isNode = u.isNode) : Fits x v := by
  cases step?_eq_some_iff.mp h with
  | index hn =>
    cases v with
    | pipeline q => cases hv
    | node n => exact .index
  | branch hq =>
    cases v with
    | node n => cases hv
    | pipeline q => exact .branch
  | key hq =>
    cases v with
    | node n => cases hv
    | pipeline q => exact .key

theorem narrows_around (h : t.step? x = some u) (hv : v.isNode = u.isNode) :
    t.Narrows x (around x v) := by
  have hfits : Fits x v := fits_of_step? h hv
  cases step?_eq_some_iff.mp h with
  | index hn =>
    cases hfits with
    | index => exact .pipeline
  | branch hq =>
    cases hfits with
    | branch => exact .array
  | key hq =>
    cases hfits with
    | key => exact .object

theorem Narrows.isNode_eq (h : t.Narrows x v) : v.isNode = t.isNode := by
  cases h <;> rfl

theorem isNode_chain (h : t.walk? path = some u) (hv : v.isNode = u.isNode) :
    (chain path v).isNode = t.isNode := by
  induction path generalizing t with
  | nil =>
    cases h
    exact hv
  | cons x rest ih =>
    obtain ⟨w, hw, hrest⟩ := walk?_cons_eq_some.mp h
    exact (narrows_around hw (ih hrest)).isNode_eq

theorem step?_around (h : Fits x v) : (around x v).step? x.collapse = some v := by
  cases h with
  | index => rfl
  | branch => rfl
  | key => simp [around, Selector.collapse, step?, Entries.get?]

theorem put_around (hv : Fits x v) (hw : Fits x w) :
    (around x v).put x.collapse w = around x w := by
  cases hv with
  | index =>
    cases hw
    rfl
  | branch =>
    cases hw
    rfl
  | key =>
    cases hw
    simp [around, Selector.collapse, put, Entries.put]

/-- The place is found in its chain under the collapsed path. -/
theorem walk?_chain (h : t.walk? path = some u) (hv : v.isNode = u.isNode) :
    (chain path v).walk? path.collapse = some v := by
  induction path generalizing t with
  | nil => rfl
  | cons x rest ih =>
    obtain ⟨z, hz, hrest⟩ := walk?_cons_eq_some.mp h
    have hfits : Fits x (chain rest v) := fits_of_step? hz (isNode_chain hrest hv)
    show (around x (chain rest v)).walk? (x.collapse :: Path.collapse rest) = some v
    rw [walk?_cons, step?_around hfits, Option.bind_some]
    exact ih hrest

theorem write_chain (h : t.walk? path = some u) (hv : v.isNode = u.isNode)
    (hw : w.isNode = u.isNode) : (chain path v).write path.collapse w = chain path w := by
  induction path generalizing t with
  | nil => rfl
  | cons x rest ih =>
    obtain ⟨z, hz, hrest⟩ := walk?_cons_eq_some.mp h
    have hfits : Fits x (chain rest v) := fits_of_step? hz (isNode_chain hrest hv)
    have hfits' : Fits x (chain rest w) := fits_of_step? hz (isNode_chain hrest hw)
    show (around x (chain rest v)).write (x.collapse :: Path.collapse rest) w = _
    rw [write_cons (step?_around hfits), ih hrest, put_around hfits hfits']
    rfl

end Target

namespace Pipeline

variable {root t : Pipeline} {path : Path}

theorem chain?_eq_some_iff : chain? root path = some t ↔
    path ≠ [] ∧ ∃ u, root.resolve? path = some u ∧ Target.chain path u = .pipeline t := by
  have hprune : (prune? path root).map Target.pipeline =
      (root.resolve? path).map (Target.chain path) := Target.prune?_eq path (.pipeline root)
  have hsome : prune? path root = some t ↔
      (prune? path root).map Target.pipeline = some (.pipeline t) := by
    cases prune? path root <;> simp
  by_cases hroot : path = []
  · simp [chain?, hroot]
  · rw [chain?, if_neg hroot, hsome, hprune, Option.map_eq_some_iff]
    simp [hroot]

theorem exists_chain? {u : Target} (hne : path ≠ []) (hu : root.resolve? path = some u) :
    ∃ t, chain? root path = some t ∧ Target.chain path u = .pipeline t := by
  have hsort : (Target.chain path u).isNode = false := Target.isNode_chain hu rfl
  obtain ⟨t, ht⟩ := Target.isNode_eq_false_iff.mp hsort
  exact ⟨t, chain?_eq_some_iff.mpr ⟨hne, u, hu, ht⟩, ht⟩

theorem chain?_isSome_iff :
    (chain? root path).isSome ↔ path ≠ [] ∧ (root.resolve? path).isSome := by
  constructor
  · intro h
    obtain ⟨t, ht⟩ := Option.isSome_iff_exists.mp h
    obtain ⟨hne, u, hu, -⟩ := chain?_eq_some_iff.mp ht
    rw [hu]
    exact ⟨hne, rfl⟩
  · rintro ⟨hne, h⟩
    obtain ⟨u, hu⟩ := Option.isSome_iff_exists.mp h
    obtain ⟨t, ht, -⟩ := exists_chain? hne hu
    rw [ht]
    rfl

theorem preview?_isSome_iff :
    (preview? root path).isSome ↔ path ≠ [] ∧ (root.resolve? path).isSome := by
  rw [preview?, Option.isSome_map, chain?_isSome_iff]

/-- **The ancestor chain is exact.**  A place has one when it is not the root and its path leads
somewhere.  Above the place each container of the chain is of the kind that it has in the tree and
holds one child alone, under the same key; the place itself stands at the end, whole; and the chain
is its own chain. -/
theorem ancestor_chain_exact (root : Pipeline) (path : Path) :
    ((chain? root path).isSome ↔ path ≠ [] ∧ (root.resolve? path).isSome) ∧
      ∀ t, chain? root path = some t →
        (∀ above x below, path = above ++ x :: below →
          ∃ w w', root.resolve? above = some w ∧ t.resolve? above.collapse = some w' ∧
            w.Narrows x w') ∧
        t.resolve? path.collapse = root.resolve? path ∧
        chain? t path.collapse = some t := by
  refine ⟨chain?_isSome_iff, fun t ht => ?_⟩
  obtain ⟨hne, u, hu, hchain⟩ := chain?_eq_some_iff.mp ht
  have hplace : t.resolve? path.collapse = some u := by
    rw [resolve?, ← hchain]
    exact Target.walk?_chain hu rfl
  refine ⟨?_, hplace.trans hu.symm, ?_⟩
  · rintro above x below rfl
    rw [resolve?, Target.walk?_append, Option.bind_eq_some_iff] at hu
    obtain ⟨w, hw, hbelow⟩ := hu
    obtain ⟨z, hz, hrest⟩ := Target.walk?_cons_eq_some.mp hbelow
    have hnarrow : w.Narrows x (Target.chain (x :: below) u) :=
      Target.narrows_around hz (Target.isNode_chain hrest rfl)
    refine ⟨w, Target.chain (x :: below) u, hw, ?_, hnarrow⟩
    rw [resolve?, ← hchain, Target.chain_append]
    exact Target.walk?_chain hw hnarrow.isNode_eq
  · have hcollapsed : path.collapse ≠ [] := fun h => hne (List.map_eq_nil_iff.mp h)
    exact chain?_eq_some_iff.mpr ⟨hcollapsed, u, hplace, (Target.chain_collapse path u).trans hchain⟩

/-- A branch under a key of an object in an array, of which everything else is cut away. -/
theorem ancestor_chain_exact_nested :
    let branch : Pipeline := [.filter ".y", .array []]
    let root : Pipeline :=
      [.filter ".", .array [[.filter ".x"], [.object [("j", []), ("k", branch)], .filter ".z"]]]
    let path : Path := [.index 1, .branch 1, .index 0, .key "k"]
    let t : Pipeline := [.array [[.object [("k", branch)]]]]
    chain? root path = some t ∧ t.resolve? path.collapse = some (.pipeline branch) ∧
      chain? t path.collapse = some t := by
  intro branch root path t
  have ht : chain? root path = some t := by decide
  obtain ⟨-, hexact⟩ := ancestor_chain_exact root path
  obtain ⟨-, hplace, hagain⟩ := hexact t ht
  have hbranch : root.resolve? path = some (.pipeline branch) := by decide
  exact ⟨ht, hplace.trans hbranch, hagain⟩

end Pipeline

end FilterEditor
