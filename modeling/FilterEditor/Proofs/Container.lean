import FilterEditor.Mutation.Apply
import FilterEditor.Proofs.Place

/-!
# A mutation changes one container

Each mutation looks at one place, its `container`, and changes that place alone.  `Acts` lists the
ways in which it does, one rule for each: which place it finds, what it asks of it, and what it
leaves there.  The rules know nothing of the tree around the container.

`applyWith_eq_ok_iff` says that applying a mutation is exactly this: the container is found, a rule
fits, and the result is written back.  What is true of mutations is proved from here by going
through the rules.
-/

namespace FilterEditor

namespace Path

@[simp] theorem split?_nil : split? [] = none := rfl

@[simp] theorem split?_concat (p : Path) (s : Selector) : split? (p ++ [s]) = some (p, s) :=
  split?_eq_some_iff.mpr rfl

theorem eq_nil_or_concat (p : Path) : p = [] ∨ ∃ parent last, p = parent ++ [last] := by
  cases h : p.split? with
  | none => exact Or.inl (split?_eq_none_iff.mp h)
  | some r => exact Or.inr ⟨r.1, r.2, split?_eq_some_iff.mp h⟩

end Path

namespace Edit

variable {ε : Type} {missing error : ε} {u u' : Target}

def refuse (error : ε) : Edit ε :=
  ⟨error, fun _ => .error error, fun _ => .error error⟩

def insertFront (kind : Kind) : Edit MutationError :=
  .ofPipeline (.notFound []) fun p => .ok (kind.blankNode :: p)

theorem ofNode_eq_ok_iff {f : Node → Except ε Node} : (ofNode missing f).onTarget u = .ok u' ↔
    ∃ n n', u = .node n ∧ f n = .ok n' ∧ .node n' = u' := by
  cases u with
  | node n =>
    rw [onTarget, map_eq_ok_iff]
    simp [ofNode]
  | pipeline p => simp [onTarget, ofNode, Except.map]

theorem ofPipeline_eq_ok_iff {f : Pipeline → Except ε Pipeline} :
    (ofPipeline missing f).onTarget u = .ok u' ↔
      ∃ p p', u = .pipeline p ∧ f p = .ok p' ∧ .pipeline p' = u' := by
  cases u with
  | node n => simp [onTarget, ofPipeline, Except.map]
  | pipeline p =>
    rw [onTarget, map_eq_ok_iff]
    simp [ofPipeline]

theorem refuse_ne_ok : (refuse error).onTarget u ≠ .ok u' := by
  cases u <;> simp [onTarget, refuse, Except.map]

mutual

theorem pipeline_refuse (error : ε) : ∀ (path : Path) (p : Pipeline),
    (refuse error).pipeline path p = .error error
  | [], _ => rfl
  | .index i :: rest, p => by
    rw [pipeline]
    cases p[i]? with
    | none => rfl
    | some n => simp only [node_refuse error rest n, Except.map]
  | .branch _ :: _, _ => rfl
  | .key _ :: _, _ => rfl

theorem node_refuse (error : ε) : ∀ (path : Path) (n : Node),
    (refuse error).node path n = .error error
  | [], _ => rfl
  | .branch b :: rest, .array branches => by
    rw [node]
    cases branches[b]? with
    | none => rfl
    | some p => simp only [pipeline_refuse error rest p, Except.map]
  | .key k :: rest, .object entries => by
    rw [node]
    cases Entries.get? k entries with
    | none => rfl
    | some p => simp only [pipeline_refuse error rest p, Except.map]
  | .index _ :: _, .filter _ | .index _ :: _, .array _ | .index _ :: _, .object _ => rfl
  | .branch _ :: _, .filter _ | .branch _ :: _, .object _ => rfl
  | .key _ :: _, .filter _ | .key _ :: _, .array _ => rfl

end

/-! ## The edits that can fail inside a container -/

theorem dropNode_eq_ok {path : Path} {i : Nat} (h : (dropNode path i).onTarget u = .ok u') :
    ∃ p : Pipeline, u = .pipeline p ∧ i < p.length ∧ u' = .pipeline (p.eraseIdx i) := by
  obtain ⟨p, p', rfl, hp, rfl⟩ := ofPipeline_eq_ok_iff.mp h
  split at hp
  next hi =>
    cases hp
    exact ⟨p, rfl, hi, rfl⟩
  next => cases hp

/-- An item goes by a branch selector, an entry by its key. -/
theorem dropBranch_eq_ok {path parent : Path} {last : Selector}
    (h : (dropBranch path parent last).onTarget u = .ok u') :
    (∃ b branches, last = .branch b ∧ b < branches.length ∧ u = .node (.array branches) ∧
        u' = .node (.array (branches.eraseIdx b))) ∨
      ∃ k entries, last = .key k ∧ k ∈ Entries.keys entries ∧ u = .node (.object entries) ∧
        u' = .node (.object (Entries.erase k entries)) := by
  obtain ⟨n, n', rfl, hn, rfl⟩ := ofNode_eq_ok_iff.mp h
  cases n with
  | filter value => cases last <;> cases hn
  | array branches =>
    cases last with
    | index i => cases hn
    | key k => cases hn
    | branch b =>
      dsimp only at hn
      split at hn
      next hb =>
        cases hn
        exact Or.inl ⟨b, branches, rfl, hb, rfl, rfl⟩
      next => cases hn
  | object entries =>
    cases last with
    | index i => cases hn
    | branch b => cases hn
    | key k =>
      dsimp only at hn
      split at hn
      next hk =>
        cases hn
        exact Or.inr ⟨k, entries, rfl, hk, rfl, rfl⟩
      next => cases hn

theorem renameEntry_eq_ok {path parent : Path} {key newKey : String}
    (h : (renameEntry path parent key newKey).onTarget u = .ok u') :
    ∃ entries, u = .node (.object entries) ∧ (key = newKey ∨ newKey ∉ Entries.keys entries) ∧
      key ∈ Entries.keys entries ∧ u' = .node (.object (Entries.rename key newKey entries)) := by
  obtain ⟨n, n', rfl, hn, rfl⟩ := ofNode_eq_ok_iff.mp h
  cases n with
  | filter value => cases hn
  | array branches => cases hn
  | object entries =>
    dsimp only at hn
    split at hn
    next => cases hn
    next hdup =>
      split at hn
      next hk =>
        cases hn
        refine ⟨entries, rfl, ?_, hk, rfl⟩
        by_cases heq : key = newKey
        · exact Or.inl heq
        · exact Or.inr fun hmem => hdup ⟨heq, hmem⟩
      next => cases hn

end Edit

namespace Mutation

/-- The path to the place that a mutation changes. -/
def container : Mutation → Path
  | setFilterValue path _ | appendBranch path | addProperty path _ => path
  | insertSibling path _ | removeNode path | removeBranch path | renameProperty path _ =>
    path.dropLast

/-- What a mutation does to the place that it changes. -/
def edit (stem : String) : Mutation → Edit MutationError
  | setFilterValue path value => .setValue path value
  | insertSibling path kind =>
    match path.split? with
    | none => .insertFront kind
    | some (parent, .index i) => .insertNode parent i kind
    | some (parent, .branch b) => .insertBranch parent b kind
    | some (parent, .key _) => .insertEntry stem parent kind
  | appendBranch path => .addBranch path
  | removeNode path =>
    match path.split? with
    | some (_, .index i) => .dropNode path i
    | _ => .refuse (.notNodePath path)
  | removeBranch path =>
    match path.split? with
    | none => .refuse .rootBranch
    | some (parent, last) => .dropBranch path parent last
  | addProperty path key => if key = "" then .refuse .emptyKey else .putProperty path key
  | renameProperty path newKey =>
    match path.split? with
    | some (parent, .key key) =>
      if newKey = "" then .refuse .emptyKey else .renameEntry path parent key newKey
    | _ => .refuse (.notEntryPath path)

theorem applyWith_eq (stem : String) (m : Mutation) (root : Pipeline) :
    m.applyWith stem root = (m.edit stem).pipeline m.container root := by
  cases m with
  | setFilterValue path value => rfl
  | appendBranch path => rfl
  | addProperty path key =>
    simp only [applyWith, edit, container]
    split
    · exact (Edit.pipeline_refuse _ path root).symm
    · rfl
  | insertSibling path kind =>
    rcases path.eq_nil_or_concat with rfl | ⟨parent, last, rfl⟩
    · rfl
    · simp only [applyWith, edit, container, Path.split?_concat, List.dropLast_concat]
      cases last <;> rfl
  | removeNode path =>
    rcases path.eq_nil_or_concat with rfl | ⟨parent, last, rfl⟩
    · rfl
    · simp only [applyWith, edit, container, Path.split?_concat, List.dropLast_concat]
      cases last with
      | index i => rfl
      | branch b => exact (Edit.pipeline_refuse _ parent root).symm
      | key k => exact (Edit.pipeline_refuse _ parent root).symm
  | removeBranch path =>
    rcases path.eq_nil_or_concat with rfl | ⟨parent, last, rfl⟩
    · rfl
    · simp only [applyWith, edit, container, Path.split?_concat, List.dropLast_concat]
  | renameProperty path newKey =>
    rcases path.eq_nil_or_concat with rfl | ⟨parent, last, rfl⟩
    · rfl
    · simp only [applyWith, edit, container, Path.split?_concat, List.dropLast_concat]
      cases last with
      | index i => exact (Edit.pipeline_refuse _ parent root).symm
      | branch b => exact (Edit.pipeline_refuse _ parent root).symm
      | key k =>
        dsimp only
        split
        · exact (Edit.pipeline_refuse _ parent root).symm
        · rfl

/-! ## The rules -/

/-- What a mutation finds in its container, and what it leaves there. -/
inductive Acts (stem : String) : Mutation → Target → Target → Prop
  | setFilterValue {path : Path} {value old : String} :
      Acts stem (.setFilterValue path value) (.node (.filter old)) (.node (.filter value))
  | insertFront {kind : Kind} {p : Pipeline} :
      Acts stem (.insertSibling [] kind) (.pipeline p) (.pipeline (kind.blankNode :: p))
  | insertNode {path : Path} {kind : Kind} {i : Nat} {p : Pipeline} :
      path.getLast? = some (.index i) →
      Acts stem (.insertSibling path kind) (.pipeline p)
        (.pipeline (insertAfter i kind.blankNode p))
  | insertBranch {path : Path} {kind : Kind} {b : Nat} {branches : List Pipeline} :
      path.getLast? = some (.branch b) →
      Acts stem (.insertSibling path kind) (.node (.array branches))
        (.node (.array (insertAfter b [kind.blankNode] branches)))
  | insertEntry {path : Path} {kind : Kind} {k : String} {entries : Entries Pipeline} :
      path.getLast? = some (.key k) →
      Acts stem (.insertSibling path kind) (.node (.object entries))
        (.node (.object (Entries.put (Entries.freshKey entries stem) [kind.blankNode] entries)))
  | appendBranch {path : Path} {branches : List Pipeline} :
      Acts stem (.appendBranch path) (.node (.array branches)) (.node (.array (branches ++ [[]])))
  | removeNode {path : Path} {i : Nat} {p : Pipeline} :
      path.getLast? = some (.index i) → i < p.length →
      Acts stem (.removeNode path) (.pipeline p) (.pipeline (p.eraseIdx i))
  | removeItem {path : Path} {b : Nat} {branches : List Pipeline} :
      path.getLast? = some (.branch b) → b < branches.length →
      Acts stem (.removeBranch path) (.node (.array branches))
        (.node (.array (branches.eraseIdx b)))
  | removeEntry {path : Path} {k : String} {entries : Entries Pipeline} :
      path.getLast? = some (.key k) → k ∈ Entries.keys entries →
      Acts stem (.removeBranch path) (.node (.object entries))
        (.node (.object (Entries.erase k entries)))
  | addProperty {path : Path} {key : String} {entries : Entries Pipeline} :
      key ≠ "" →
      Acts stem (.addProperty path key) (.node (.object entries))
        (.node (.object (Entries.put key [.filter ""] entries)))
  | renameProperty {path : Path} {key newKey : String} {entries : Entries Pipeline} :
      path.getLast? = some (.key key) → newKey ≠ "" →
      (key = newKey ∨ newKey ∉ Entries.keys entries) → key ∈ Entries.keys entries →
      Acts stem (.renameProperty path newKey) (.node (.object entries))
        (.node (.object (Entries.rename key newKey entries)))

variable {stem : String} {m : Mutation} {u u' : Target}

theorem Acts.onTarget (h : m.Acts stem u u') : (m.edit stem).onTarget u = .ok u' := by
  cases h with
  | setFilterValue => rfl
  | insertFront => rfl
  | insertNode hl =>
    simp only [edit, Path.split?, hl, Option.map_some]
    rfl
  | insertBranch hl =>
    simp only [edit, Path.split?, hl, Option.map_some]
    rfl
  | insertEntry hl =>
    simp only [edit, Path.split?, hl, Option.map_some]
    rfl
  | appendBranch => rfl
  | removeNode hl hi =>
    simp only [edit, Path.split?, hl, Option.map_some, Edit.dropNode]
    exact Edit.ofPipeline_eq_ok_iff.mpr ⟨_, _, rfl, if_pos hi, rfl⟩
  | removeItem hl hb =>
    simp only [edit, Path.split?, hl, Option.map_some, Edit.dropBranch]
    exact Edit.ofNode_eq_ok_iff.mpr ⟨_, _, rfl, if_pos hb, rfl⟩
  | removeEntry hl hk =>
    simp only [edit, Path.split?, hl, Option.map_some, Edit.dropBranch]
    exact Edit.ofNode_eq_ok_iff.mpr ⟨_, _, rfl, if_pos hk, rfl⟩
  | addProperty hne =>
    rw [edit, if_neg hne]
    rfl
  | renameProperty hl hne hnew hk =>
    simp only [edit, Path.split?, hl, Option.map_some, if_neg hne, Edit.renameEntry]
    refine Edit.ofNode_eq_ok_iff.mpr ⟨_, _, rfl, ?_, rfl⟩
    have hok : ¬(_ ≠ _ ∧ _ ∈ _) := fun hdup => hnew.elim hdup.1 fun hfree => hfree hdup.2
    exact (if_neg hok).trans (if_pos hk)

theorem Acts.of_onTarget (h : (m.edit stem).onTarget u = .ok u') : m.Acts stem u u' := by
  cases m with
  | setFilterValue path value =>
    obtain ⟨n, n', rfl, hn, rfl⟩ := Edit.ofNode_eq_ok_iff.mp h
    cases n <;> cases hn
    exact .setFilterValue
  | insertSibling path kind =>
    rcases path.eq_nil_or_concat with rfl | ⟨parent, last, rfl⟩
    · obtain ⟨p, p', rfl, hp, rfl⟩ := Edit.ofPipeline_eq_ok_iff.mp h
      cases hp
      exact .insertFront
    · rw [edit, Path.split?_concat] at h
      cases last with
      | index i =>
        obtain ⟨p, p', rfl, hp, rfl⟩ := Edit.ofPipeline_eq_ok_iff.mp h
        cases hp
        exact .insertNode List.getLast?_concat
      | branch b =>
        obtain ⟨n, n', rfl, hn, rfl⟩ := Edit.ofNode_eq_ok_iff.mp h
        cases n <;> cases hn
        exact .insertBranch List.getLast?_concat
      | key k =>
        obtain ⟨n, n', rfl, hn, rfl⟩ := Edit.ofNode_eq_ok_iff.mp h
        cases n <;> cases hn
        exact .insertEntry List.getLast?_concat
  | appendBranch path =>
    obtain ⟨n, n', rfl, hn, rfl⟩ := Edit.ofNode_eq_ok_iff.mp h
    cases n <;> cases hn
    exact .appendBranch
  | removeNode path =>
    rcases path.eq_nil_or_concat with rfl | ⟨parent, last, rfl⟩
    · exact absurd h Edit.refuse_ne_ok
    · rw [edit, Path.split?_concat] at h
      cases last with
      | index i =>
        obtain ⟨p, rfl, hi, rfl⟩ := Edit.dropNode_eq_ok h
        exact .removeNode List.getLast?_concat hi
      | branch b => exact absurd h Edit.refuse_ne_ok
      | key k => exact absurd h Edit.refuse_ne_ok
  | removeBranch path =>
    rcases path.eq_nil_or_concat with rfl | ⟨parent, last, rfl⟩
    · exact absurd h Edit.refuse_ne_ok
    · rw [edit, Path.split?_concat] at h
      rcases Edit.dropBranch_eq_ok h with
        ⟨b, branches, rfl, hb, rfl, rfl⟩ | ⟨k, entries, rfl, hk, rfl, rfl⟩
      · exact .removeItem List.getLast?_concat hb
      · exact .removeEntry List.getLast?_concat hk
  | addProperty path key =>
    rw [edit] at h
    split at h
    next => exact absurd h Edit.refuse_ne_ok
    next hne =>
      obtain ⟨n, n', rfl, hn, rfl⟩ := Edit.ofNode_eq_ok_iff.mp h
      cases n <;> cases hn
      exact .addProperty hne
  | renameProperty path newKey =>
    rcases path.eq_nil_or_concat with rfl | ⟨parent, last, rfl⟩
    · exact absurd h Edit.refuse_ne_ok
    · rw [edit, Path.split?_concat] at h
      cases last with
      | index i => exact absurd h Edit.refuse_ne_ok
      | branch b => exact absurd h Edit.refuse_ne_ok
      | key key =>
        dsimp only at h
        split at h
        next => exact absurd h Edit.refuse_ne_ok
        next hne =>
          obtain ⟨entries, rfl, hnew, hk, rfl⟩ := Edit.renameEntry_eq_ok h
          exact .renameProperty List.getLast?_concat hne hnew hk

/-- **A mutation fits exactly when its container is there and a rule fits it**, and then it writes
back what the rule leaves. -/
theorem applyWith_eq_ok_iff {root root' : Pipeline} : m.applyWith stem root = .ok root' ↔
    ∃ u u', root.resolve? m.container = some u ∧ m.Acts stem u u' ∧
      (Target.pipeline root).write m.container u' = .pipeline root' := by
  rw [applyWith_eq, Edit.pipeline_eq_ok_iff]
  constructor
  · rintro ⟨u, u', hu, he, hw⟩
    exact ⟨u, u', hu, .of_onTarget he, hw⟩
  · rintro ⟨u, u', hu, ha, hw⟩
    exact ⟨u, u', hu, ha.onTarget, hw⟩

/-- Of one container the rules leave one thing. -/
theorem Acts.unique {v : Target} (h : m.Acts stem u u') (h' : m.Acts stem u v) : u' = v :=
  Except.ok.inj (h.onTarget.symm.trans h'.onTarget)

theorem Acts.isNode_eq (h : m.Acts stem u u') : u'.isNode = u.isNode := by
  cases h <;> rfl

end Mutation

end FilterEditor
