import FilterEditor.Proofs.Place
import Mathlib.Data.List.Chain
import Mathlib.Data.List.Induction

/-!
# The grammar of paths

A walk is by turns at a pipeline and at a node: an index leads from a pipeline to one of its nodes,
and a branch selector leads from a node to one of its branches (`Target.Child.isNode_eq`).  So where
a walk can be is written in its path.  The selectors take turns, an index first (`Path.Alternates`),
and the last of them tells whether the walk has come to a node (`Pipeline.isNode_of_resolve?`).

The grammar is no wider than it has to be.  The place at the end of a path can be exchanged for one
that has a child under the next selector, if it is the turn of that selector; so every path that
alternates leads somewhere in some tree (`Path.Alternates.exists_resolve?`).

A walk keeps nothing in hand but the place that it has reached.  A path can therefore be cut
anywhere, and what is below the cut can be read in the part alone: in the pipeline reached, or in
the pipeline that has the node reached and nothing else.
-/

namespace FilterEditor

/-- Indices and branch selectors take turns in the path, and an index comes first. -/
structure Path.Alternates (path : Path) : Prop where
  first : ∀ x ∈ path.head?, x.isBranch = false
  turns : path.IsChain fun x y => y.isBranch = !x.isBranch

instance (path : Path) : Decidable path.Alternates :=
  decidable_of_iff ((∀ x ∈ path.head?, x.isBranch = false) ∧
      path.IsChain fun x y => y.isBranch = !x.isBranch)
    ⟨fun h => ⟨h.1, h.2⟩, fun h => ⟨h.first, h.turns⟩⟩

variable {root : Pipeline} {path above : Path} {x : Selector} {t u : Target}

/-! ## One more selector -/

theorem Target.exists_child (x : Selector) : ∃ t u : Target, t.isNode = x.isBranch ∧ t.Child x u := by
  cases x with
  | index i =>
    refine ⟨.pipeline (List.replicate (i + 1) default), .node default, rfl, .index ?_⟩
    rw [List.getElem?_replicate, if_pos (Nat.lt_succ_self i)]
  | branch b =>
    refine ⟨.node (.array (List.replicate (b + 1) [])), .pipeline [], rfl, .branch ?_⟩
    rw [List.getElem?_replicate, if_pos (Nat.lt_succ_self b)]
  | key k =>
    refine ⟨.node (.object [(k, [])]), .pipeline [], rfl, .key ?_⟩
    rw [Entries.get?, if_pos rfl]

namespace Path

theorem isNodePath_concat (path : Path) (x : Selector) :
    (path ++ [x]).isNodePath = !x.isBranch := by
  rw [isNodePath, List.getLast?_concat]
  cases x <;> rfl

theorem isNodePath_eq_false_iff :
    path.isNodePath = false ↔ path = [] ∨ ∃ x ∈ path.getLast?, x.isBranch = true := by
  rcases path.eq_nil_or_concat' with rfl | ⟨above, x, rfl⟩
  · simp [isNodePath]
  · simp [isNodePath_concat]

/-- Whose turn it is shows in the end of the path so far. -/
theorem alternates_concat_iff :
    (path ++ [x]).Alternates ↔ path.Alternates ∧ x.isBranch = path.isNodePath := by
  rcases path.eq_nil_or_concat' with rfl | ⟨above, y, rfl⟩
  · constructor
    · intro h
      exact ⟨⟨nofun, .nil⟩, h.first x rfl⟩
    · rintro ⟨-, hx⟩
      refine ⟨?_, .singleton x⟩
      rintro _ ⟨⟩
      exact hx
  · have hhead : (above ++ [y] ++ [x]).head? = (above ++ [y]).head? := by
      rw [List.head?_append, Option.or_of_isSome (by simp)]
    have hchain : (above ++ [y] ++ [x]).IsChain (fun x y => y.isBranch = !x.isBranch) ↔
        (above ++ [y]).IsChain (fun x y => y.isBranch = !x.isBranch) ∧
          x.isBranch = !y.isBranch := by
      rw [List.isChain_append]
      simp
    rw [isNodePath_concat]
    constructor
    · rintro ⟨hfirst, hturns⟩
      rw [hhead] at hfirst
      obtain ⟨hturns, hx⟩ := hchain.mp hturns
      exact ⟨⟨hfirst, hturns⟩, hx⟩
    · rintro ⟨⟨hfirst, hturns⟩, hx⟩
      rw [← hhead] at hfirst
      exact ⟨hfirst, hchain.mpr ⟨hturns, hx⟩⟩

end Path

/-! ## Whole paths -/

/-- **The last selector tells the sort of the place.** -/
theorem Pipeline.isNode_of_resolve? (h : root.resolve? path = some u) :
    u.isNode = path.isNodePath := by
  rcases path.eq_nil_or_concat' with rfl | ⟨above, x, rfl⟩
  · cases h
    rfl
  · obtain ⟨t, -, hchild⟩ := resolve?_concat_eq_some_iff.mp h
    rw [Path.isNodePath_concat, hchild.isNode_eq.2]

/-- **A path that leads somewhere alternates.** -/
theorem Pipeline.alternates_of_resolve? (h : root.resolve? path = some u) : path.Alternates := by
  induction path using List.reverseRecOn generalizing u with
  | nil => exact ⟨nofun, .nil⟩
  | append_singleton above x ih =>
    obtain ⟨t, habove, hchild⟩ := resolve?_concat_eq_some_iff.mp h
    refine Path.alternates_concat_iff.mpr ⟨ih habove, ?_⟩
    rw [← isNode_of_resolve? habove, hchild.isNode_eq.1]

/-- **A path that alternates leads somewhere** in some tree. -/
theorem Path.Alternates.exists_resolve? (h : path.Alternates) :
    ∃ (root : Pipeline) (u : Target), root.resolve? path = some u := by
  induction path using List.reverseRecOn with
  | nil => exact ⟨[], .pipeline [], rfl⟩
  | append_singleton above x ih =>
    obtain ⟨habove, hturn⟩ := Path.alternates_concat_iff.mp h
    obtain ⟨root, u, hu⟩ := ih habove
    -- what stands at the end gives way to a place with a child under the new selector
    obtain ⟨t, v, hsort, hchild⟩ := Target.exists_child x
    have hsame : t.isNode = u.isNode := by
      rw [hsort, hturn, Pipeline.isNode_of_resolve? hu]
    obtain ⟨root', hroot'⟩ := Target.exists_write_eq_pipeline hu hsame
    have hplace : root'.resolve? above = some t := by
      rw [Pipeline.resolve?, ← hroot']
      exact Target.walk?_write_self hu hsame
    exact ⟨root', v, Pipeline.resolve?_concat hplace hchild⟩

/-! ## Cutting a path -/

namespace Pipeline

/-- Below a place, a path goes on from there. -/
theorem resolve?_append (h : root.resolve? above = some t) (below : Path) :
    root.resolve? (above ++ below) = t.walk? below := by
  rw [resolve?, Target.walk?_append, ← resolve?, h, Option.bind_some]

theorem resolve?_singleton (n : Node) (path : Path) :
    resolve? [n] (.index 0 :: path) = (Target.node n).walk? path := rfl

theorem resolve?_isSome_of_prefix (h : (root.resolve? path).isSome) (habove : above <+: path) :
    (root.resolve? above).isSome := by
  obtain ⟨below, rfl⟩ := habove
  rw [resolve?, Target.walk?_append] at h
  exact Option.isSome_of_isSome_bind h

/-- **Paths lead on from the places on their way, and they keep to the grammar.**  Below a pipeline
a path leads to what it leads to in that pipeline, and below a node to what it leads to in the
pipeline of this node alone.  When a path leads somewhere, so does every beginning of it; the path
alternates; it leads to a node just when it ends with an index, and to a pipeline just when it is
empty or ends with a branch selector.  No path that alternates is ruled out: each leads somewhere
in some tree. -/
theorem resolution_is_compositional (root : Pipeline) (path : Path) :
    (∀ p, root.resolve? path = some (.pipeline p) →
      ∀ below, root.resolve? (path ++ below) = p.resolve? below) ∧
    (∀ n, root.resolve? path = some (.node n) →
      ∀ below, root.resolve? (path ++ below) = resolve? [n] (.index 0 :: below)) ∧
    (∀ u, root.resolve? path = some u →
      (∀ above, above <+: path → (root.resolve? above).isSome) ∧
      path.Alternates ∧
      ((∃ n, u = .node n) ↔ path.isNodePath = true) ∧
      ((∃ p, u = .pipeline p) ↔ path = [] ∨ ∃ x ∈ path.getLast?, x.isBranch = true)) ∧
    (path.Alternates → ∃ root' : Pipeline, (root'.resolve? path).isSome) := by
  refine ⟨fun p hp below => resolve?_append hp below, fun n hn below => ?_, fun u hu => ?_, ?_⟩
  · rw [resolve?_append hn, resolve?_singleton]
  · have hsort : u.isNode = path.isNodePath := isNode_of_resolve? hu
    refine ⟨fun above habove => ?_, alternates_of_resolve? hu, ?_, ?_⟩
    · exact resolve?_isSome_of_prefix (Option.isSome_of_mem hu) habove
    · rw [← Target.isNode_eq_true_iff, hsort]
    · rw [← Target.isNode_eq_false_iff, hsort, Path.isNodePath_eq_false_iff]
  · intro h
    obtain ⟨root', u, hu⟩ := h.exists_resolve?
    exact ⟨root', Option.isSome_of_mem hu⟩

/-- A path through an object and an array, cut below the key and cut below the array. -/
theorem resolution_is_compositional_nested :
    let array : Node := .array [[], [.filter ".y"]]
    let items : Pipeline := [.filter ".x", array]
    let root : Pipeline := [.filter ".", .object [("j", []), ("k", items)]]
    let toItems : Path := [.index 1, .key "k"]
    let toArray : Path := toItems ++ [.index 1]
    let toFilter : Path := toArray ++ [.branch 1, .index 0]
    root.resolve? toItems = some (.pipeline items) ∧
      root.resolve? toFilter = items.resolve? [.index 1, .branch 1, .index 0] ∧
      root.resolve? (toItems ++ [.branch 0]) = items.resolve? [.branch 0] ∧
      root.resolve? toArray = some (.node array) ∧
      root.resolve? toFilter = resolve? [array] [.index 0, .branch 1, .index 0] ∧
      root.resolve? toFilter = some (.node (.filter ".y")) ∧
      toArray <+: toFilter ∧ (root.resolve? toArray).isSome ∧
      toFilter.Alternates ∧ toFilter.isNodePath = true ∧
      (∃ x ∈ toItems.getLast?, x.isBranch = true) ∧
      ∃ root' : Pipeline, (root'.resolve? toFilter).isSome := by
  intro array items root toItems toArray toFilter
  have hitems : root.resolve? toItems = some (.pipeline items) := by decide
  have harray : root.resolve? toArray = some (.node array) := by decide
  have hfilter : root.resolve? toFilter = some (.node (.filter ".y")) := by decide
  have habove : toArray <+: toFilter := by decide
  obtain ⟨hpipeline, -, hbranch, -⟩ := resolution_is_compositional root toItems
  obtain ⟨-, hnode, -, -⟩ := resolution_is_compositional root toArray
  obtain ⟨-, -, hgrammar, hresolves⟩ := resolution_is_compositional root toFilter
  obtain ⟨hway, halternates, hends, -⟩ := hgrammar _ hfilter
  obtain ⟨-, -, -, hopens⟩ := hbranch _ hitems
  have hlast := (hopens.mp ⟨_, rfl⟩).resolve_left (by decide)
  exact ⟨hitems, hpipeline items hitems _, hpipeline items hitems _, harray,
    hnode array harray _, hfilter, habove, hway toArray habove, halternates,
    hends.mp ⟨_, rfl⟩, hlast, hresolves (by decide)⟩

end Pipeline

end FilterEditor
