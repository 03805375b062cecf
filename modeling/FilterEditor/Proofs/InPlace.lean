import FilterEditor.Mutation.InPlace
import FilterEditor.Proofs.Container

/-!
# Work in place is done as a whole or not at all

A mutation writes into the tree before it is known to fit: a removal takes out first and then asks
whether there was anything, and a renaming takes the entry out before it puts it back.  Yet the tree
that a failed mutation leaves is the one it was given.  `Work.atomic f` is the work that replaces a
thing by its change `f`, or leaves it alone when the change is refused, and

    m.work stem = Work.atomic (m.applyWith stem)

says that every mutation is of this sort.  The way there follows the work: from the steps inside one
container (`removeAt_eq`, `removeEntry_eq`, `renameEntry_eq`), over the container as a part of its
node, to the walk from the root (`Job.Does.walks`), where a failure puts back an unchanged part into
every container on the way.
-/

namespace FilterEditor

/-! ## Entries taken out and put back -/

namespace Entries

variable {α : Type} {key newKey : String} {entries : Entries α}

theorem find?_isSome_iff : (find? key entries).isSome ↔ key ∈ keys entries := by
  induction entries with
  | nil => simp [find?]
  | cons entry rest ih =>
    obtain ⟨k, v⟩ := entry
    by_cases h : k = key
    · simp [find?, h]
    · simp [find?, h, ih, Ne.symm h]

theorem mem_keys_of_find? {entry : Nat × α} (h : find? key entries = some entry) :
    key ∈ keys entries := by
  rw [← find?_isSome_iff, h]
  rfl

theorem not_mem_keys_of_find? (h : find? key entries = none) : key ∉ keys entries := by
  rw [← find?_isSome_iff, h]
  exact Bool.false_ne_true

theorem erase_of_not_mem (h : key ∉ keys entries) : erase key entries = entries := by
  induction entries with
  | nil => rfl
  | cons entry rest ih =>
    obtain ⟨k, v⟩ := entry
    rw [keys_cons, List.mem_cons, not_or] at h
    rw [erase, if_neg (Ne.symm h.1), ih h.2]

theorem insertIdx_erase {position : Nat} {value : α}
    (h : find? key entries = some (position, value)) :
    (erase key entries).insertIdx position (newKey, value) = rename key newKey entries := by
  induction entries generalizing position with
  | nil => cases h
  | cons entry rest ih =>
    obtain ⟨k, v⟩ := entry
    by_cases hk : k = key
    · rw [find?, if_pos hk] at h
      cases h
      rw [erase, if_pos hk, rename, if_pos hk]
      rfl
    · rw [find?, if_neg hk, Option.map_eq_some_iff] at h
      obtain ⟨⟨i, w⟩, hi, hiv⟩ := h
      cases hiv
      rw [erase, if_neg hk, rename, if_neg hk, ← ih hi]
      rfl

theorem rename_self (key : String) (entries : Entries α) : rename key key entries = entries := by
  induction entries with
  | nil => rfl
  | cons entry rest ih =>
    obtain ⟨k, v⟩ := entry
    by_cases h : k = key
    · rw [rename, if_pos h, h]
    · rw [rename, if_neg h, ih]

end Entries

/-! ## Work inside a container -/

namespace Work

variable {σ τ α : Type}

/-- The work that makes a change as a whole, or not at all when the change is refused. -/
def atomic (f : σ → Except MutationError σ) : Work σ Unit := fun s =>
  match f s with
  | .ok s' => .ok () s'
  | .error e => .error e s

theorem atomic_of_ok {f : σ → Except MutationError σ} {s s' : σ} (h : f s = .ok s') :
    atomic f s = .ok () s' := by
  rw [atomic, h]

theorem atomic_of_error {f : σ → Except MutationError σ} {s : σ} {e : MutationError}
    (h : f s = .error e) : atomic f s = .error e s := by
  rw [atomic, h]

theorem modify_eq_atomic (f : σ → σ) : (modify f : Work σ Unit) = atomic fun s => .ok (f s) :=
  rfl

/-- A part that is changed as a whole is put back changed, or as it was. -/
theorem onPart_atomic {f : τ → Except MutationError τ} {part : τ} {putBack : τ → σ} {s : σ}
    (h : putBack part = s) : (atomic f).onPart part putBack =
      match (f part).map putBack with
      | .ok s' => .ok () s'
      | .error e => .error e s := by
  cases hf : f part with
  | ok part' =>
    rw [onPart, atomic_of_ok hf]
    rfl
  | error e =>
    rw [onPart, atomic_of_error hf, ← h]
    rfl

theorem onArray_atomic (wrong : MutationError)
    (f : List Pipeline → Except MutationError (List Pipeline)) :
    onArray wrong (atomic f) = atomic fun
      | .array branches => (f branches).map .array
      | _ => .error wrong := by
  funext n
  cases n with
  | filter value => rfl
  | array branches => exact onPart_atomic rfl
  | object entries => rfl

theorem onObject_atomic (wrong : MutationError)
    (f : Entries Pipeline → Except MutationError (Entries Pipeline)) :
    onObject wrong (atomic f) = atomic fun
      | .object entries => (f entries).map .object
      | _ => .error wrong := by
  funext n
  cases n with
  | filter value => rfl
  | array branches => rfl
  | object entries => exact onPart_atomic rfl

theorem setValue_eq (path : Path) (value : String) :
    setValue path value = atomic (Edit.setValue path value).onNode := by
  funext n
  cases n <;> rfl

/-! The steps of work, one after the other. -/

section Steps

variable {β : Type} {w : Work σ α} {k : α → Work σ β} {s s' : σ} {a : α}

theorem get_bind (k : σ → Work σ β) (s : σ) : (get >>= k) s = k s s := rfl

theorem bind_of_ok (h : w s = .ok a s') : (w >>= k) s = k a s' := by
  show EStateM.bind w k s = _
  rw [EStateM.bind, h]

theorem takeOut_apply (key : String) (entries : Entries α) :
    takeOut key entries = .ok (Entries.find? key entries) (Entries.erase key entries) := rfl

end Steps

theorem removeAt_eq (path : Path) (i : Nat) : (removeAt path i : Work (List α) Unit) =
    atomic fun l => if i < l.length then .ok (l.eraseIdx i) else .error (.notFound path) := by
  funext l
  rw [removeAt, get_bind, atomic]
  by_cases h : i < l.length
  · rw [if_pos h, if_neg (by omega : ¬ l.length ≤ i)]
    rfl
  · rw [if_neg h, if_pos (by omega : l.length ≤ i)]
    rfl

/-- The entry is taken out first and missed afterwards; taking out what is not there is no change.
-/
theorem removeEntry_eq (path : Path) (key : String) :
    (removeEntry path key : Work (Entries α) Unit) = atomic fun entries =>
      if key ∈ Entries.keys entries then .ok (Entries.erase key entries)
      else .error (.notFound path) := by
  funext entries
  rw [removeEntry, bind_of_ok (takeOut_apply key entries), atomic]
  cases hfind : Entries.find? key entries with
  | none =>
    have hmem := Entries.not_mem_keys_of_find? hfind
    rw [if_neg hmem, Entries.erase_of_not_mem hmem]
    rfl
  | some entry =>
    rw [if_pos (Entries.mem_keys_of_find? hfind)]
    rfl

theorem renameEntry_eq (path : Path) (key newKey : String) :
    (renameEntry path key newKey : Work (Entries α) Unit) = atomic fun entries =>
      if key ≠ newKey ∧ newKey ∈ Entries.keys entries then .error (.duplicateKey newKey)
      else if key ∈ Entries.keys entries then .ok (Entries.rename key newKey entries)
      else .error (.notFound path) := by
  funext entries
  rw [renameEntry, atomic]
  by_cases hkey : key = newKey
  · subst hkey
    have hfree : ¬ (key ≠ key ∧ key ∈ Entries.keys entries) := fun h => h.1 rfl
    rw [if_pos rfl, get_bind, if_neg hfree]
    by_cases hmem : key ∈ Entries.keys entries
    · rw [if_pos hmem, if_pos hmem, Entries.rename_self]
      rfl
    · rw [if_neg hmem, if_neg hmem]
      rfl
  · rw [if_neg hkey, get_bind]
    by_cases hnew : newKey ∈ Entries.keys entries
    · rw [if_pos hnew, if_pos ⟨hkey, hnew⟩]
      rfl
    · have hfree : ¬ (key ≠ newKey ∧ newKey ∈ Entries.keys entries) := fun h => hnew h.2
      rw [if_neg hnew, if_neg hfree]
      show (takeOut key >>= _ : Work (Entries α) Unit) entries = _
      rw [bind_of_ok (takeOut_apply key entries)]
      cases hfind : Entries.find? key entries with
      | none =>
        have hmem := Entries.not_mem_keys_of_find? hfind
        rw [if_neg hmem, Entries.erase_of_not_mem hmem]
        rfl
      | some entry =>
        rw [if_pos (Entries.mem_keys_of_find? hfind), ← Entries.insertIdx_erase hfind]
        rfl

end Work

/-! ## From the container to the root -/

/-- The work of a job is the change of an edit, made as a whole or not at all. -/
structure Job.Does (job : Job) (e : Edit MutationError) : Prop where
  missing_eq : job.missing = e.missing
  onNode_eq : job.onNode = Work.atomic e.onNode
  onPipeline_eq : job.onPipeline = Work.atomic e.onPipeline

namespace Job.Does

variable {job : Job} {e : Edit MutationError}

theorem ofNode {missing : MutationError} {w : Work Node Unit} {f : Node → Except MutationError Node}
    (h : w = Work.atomic f) : (Job.ofNode missing w).Does (.ofNode missing f) :=
  ⟨rfl, h, rfl⟩

theorem ofPipeline {missing : MutationError} {w : Work Pipeline Unit}
    {f : Pipeline → Except MutationError Pipeline} (h : w = Work.atomic f) :
    (Job.ofPipeline missing w).Does (.ofPipeline missing f) :=
  ⟨rfl, rfl, h⟩

theorem pipeline_cons (h : job.Does e) {x : Selector} {rest : Path}
    (ih : job.node rest = Work.atomic (e.node rest)) (p : Pipeline) :
    job.pipeline (x :: rest) p = Work.atomic (e.pipeline (x :: rest)) p := by
  cases x with
  | branch b => rw [Job.pipeline, Work.atomic, Edit.pipeline, h.missing_eq]
  | key k => rw [Job.pipeline, Work.atomic, Edit.pipeline, h.missing_eq]
  | index i =>
    rw [Job.pipeline, Work.atomic, Edit.pipeline]
    cases hn : p[i]? with
    | none => simp only [h.missing_eq]
    | some n =>
      obtain ⟨hi, hget⟩ := List.getElem?_eq_some_iff.mp hn
      simp only [ih]
      refine Work.onPart_atomic ?_
      rw [← hget]
      exact List.set_getElem_self hi

theorem node_cons (h : job.Does e) {x : Selector} {rest : Path}
    (ih : job.pipeline rest = Work.atomic (e.pipeline rest)) (n : Node) :
    job.node (x :: rest) n = Work.atomic (e.node (x :: rest)) n := by
  cases n with
  | filter value => cases x <;> rw [Job.node, Work.atomic, Edit.node, h.missing_eq] <;> nofun
  | array branches =>
    cases x with
    | index i => rw [Job.node, Work.atomic, Edit.node, h.missing_eq] <;> nofun
    | key k => rw [Job.node, Work.atomic, Edit.node, h.missing_eq] <;> nofun
    | branch b =>
      rw [Job.node, Work.atomic, Edit.node]
      cases hp : branches[b]? with
      | none => simp only [h.missing_eq]
      | some p =>
        obtain ⟨hb, hget⟩ := List.getElem?_eq_some_iff.mp hp
        simp only [ih]
        refine Work.onPart_atomic ?_
        rw [← hget, List.set_getElem_self hb]
  | object entries =>
    cases x with
    | index i => rw [Job.node, Work.atomic, Edit.node, h.missing_eq] <;> nofun
    | branch b => rw [Job.node, Work.atomic, Edit.node, h.missing_eq] <;> nofun
    | key k =>
      rw [Job.node, Work.atomic, Edit.node]
      cases hp : Entries.get? k entries with
      | none => simp only [h.missing_eq]
      | some p =>
        simp only [ih]
        refine Work.onPart_atomic ?_
        rw [Entries.put_of_get? hp]

/-- The walk to a place puts every part back that it has passed, so it is atomic when the work at
the place is. -/
theorem walks (h : job.Does e) (path : Path) :
    job.pipeline path = Work.atomic (e.pipeline path) ∧
      job.node path = Work.atomic (e.node path) := by
  induction path with
  | nil =>
    constructor
    · funext p
      rw [Job.pipeline, h.onPipeline_eq]
      rfl
    · funext n
      have hjob : job.node [] n = job.onNode n := by cases n <;> rfl
      have hedit : Work.atomic (e.node []) n = Work.atomic e.onNode n := by cases n <;> rfl
      rw [hjob, hedit, h.onNode_eq]
  | cons x rest ih => exact ⟨funext (h.pipeline_cons ih.2), funext (h.node_cons ih.1)⟩

theorem pipeline_eq (h : job.Does e) (path : Path) (root : Pipeline) :
    job.pipeline path root = Work.atomic (e.pipeline path) root :=
  congrFun (h.walks path).1 root

end Job.Does

/-! ## Mutations -/

namespace Work

theorem onArray_modify (wrong : MutationError) (f : List Pipeline → List Pipeline) :
    onArray wrong (modify f) = atomic fun
      | .array branches => .ok (.array (f branches))
      | _ => .error wrong :=
  onArray_atomic wrong fun branches => .ok (f branches)

theorem onObject_modify (wrong : MutationError) (f : Entries Pipeline → Entries Pipeline) :
    onObject wrong (modify f) = atomic fun
      | .object entries => .ok (.object (f entries))
      | _ => .error wrong :=
  onObject_atomic wrong fun entries => .ok (f entries)

theorem onArray_removeAt (path parent : Path) (b : Nat) :
    onArray (.selectorMismatch path) (removeAt path b) =
      atomic (Edit.dropBranch path parent (.branch b)).onNode := by
  rw [removeAt_eq, onArray_atomic]
  refine congrArg atomic (funext fun n => ?_)
  cases n with
  | filter value => rfl
  | object entries => rfl
  | array branches =>
    show Except.map Node.array (if b < branches.length then _ else _) =
      if b < branches.length then _ else _
    split <;> rfl

theorem throw_notBranchPath (path parent : Path) (i : Nat) :
    (throw (.notBranchPath path) : Work Node Unit) =
      atomic (Edit.dropBranch path parent (.index i)).onNode := by
  funext n
  cases n <;> rfl

theorem onObject_removeEntry (path parent : Path) (key : String) :
    onObject (.selectorMismatch path) (removeEntry path key) =
      atomic (Edit.dropBranch path parent (.key key)).onNode := by
  rw [removeEntry_eq, onObject_atomic]
  refine congrArg atomic (funext fun n => ?_)
  cases n with
  | filter value => rfl
  | array branches => rfl
  | object entries =>
    show Except.map Node.object (if key ∈ Entries.keys entries then _ else _) =
      if key ∈ Entries.keys entries then _ else _
    split <;> rfl

theorem onObject_renameEntry (path parent : Path) (key newKey : String) :
    onObject (.notObject parent) (renameEntry path key newKey) =
      atomic (Edit.renameEntry path parent key newKey).onNode := by
  rw [renameEntry_eq, onObject_atomic]
  refine congrArg atomic (funext fun n => ?_)
  cases n with
  | filter value => rfl
  | array branches => rfl
  | object entries =>
    simp only [Edit.renameEntry, Edit.ofNode]
    split
    · rfl
    · split <;> rfl

end Work

/-- **A mutation is carried out as a whole or not at all.** -/
theorem Mutation.work_eq (stem : String) (m : Mutation) :
    m.work stem = Work.atomic (m.applyWith stem) := by
  funext root
  cases m with
  | setFilterValue path value =>
    exact (Job.Does.ofNode (Work.setValue_eq path value)).pipeline_eq path root
  | insertSibling path kind =>
    rcases path.eq_nil_or_concat with rfl | ⟨parent, last, rfl⟩
    · rfl
    · simp only [work, Work.atomic, applyWith, Path.split?_concat]
      cases last with
      | index i =>
        exact (Job.Does.ofPipeline (Work.modify_eq_atomic _)).pipeline_eq parent root
      | branch b =>
        exact (Job.Does.ofNode (Work.onArray_modify _ _)).pipeline_eq parent root
      | key k =>
        exact (Job.Does.ofNode (Work.onObject_modify _ _)).pipeline_eq parent root
  | appendBranch path =>
    exact (Job.Does.ofNode (Work.onArray_modify _ _)).pipeline_eq path root
  | removeNode path =>
    rcases path.eq_nil_or_concat with rfl | ⟨parent, last, rfl⟩
    · rfl
    · simp only [work, Work.atomic, applyWith, Path.split?_concat]
      cases last with
      | index i =>
        exact (Job.Does.ofPipeline (Work.removeAt_eq _ i)).pipeline_eq parent root
      | branch b => rfl
      | key k => rfl
  | removeBranch path =>
    rcases path.eq_nil_or_concat with rfl | ⟨parent, last, rfl⟩
    · rfl
    · simp only [work, Work.atomic, applyWith, Path.split?_concat]
      cases last with
      | index i =>
        exact (Job.Does.ofNode (Work.throw_notBranchPath _ parent i)).pipeline_eq parent root
      | branch b =>
        exact (Job.Does.ofNode (Work.onArray_removeAt _ parent b)).pipeline_eq parent root
      | key k =>
        exact (Job.Does.ofNode (Work.onObject_removeEntry _ parent k)).pipeline_eq parent root
  | addProperty path key =>
    by_cases hkey : key = ""
    · simp only [work, Work.atomic, applyWith, if_pos hkey]
      rfl
    · simp only [work, Work.atomic, applyWith, if_neg hkey]
      exact (Job.Does.ofNode (Work.onObject_modify _ _)).pipeline_eq path root
  | renameProperty path newKey =>
    rcases path.eq_nil_or_concat with rfl | ⟨parent, last, rfl⟩
    · rfl
    · simp only [work, Work.atomic, applyWith, Path.split?_concat]
      cases last with
      | index i => rfl
      | branch b => rfl
      | key key =>
        by_cases hkey : newKey = ""
        · simp only [if_pos hkey]
          rfl
        · simp only [if_neg hkey]
          have hentry := Work.onObject_renameEntry (parent ++ [.key key]) parent key newKey
          exact (Job.Does.ofNode hentry).pipeline_eq parent root

theorem Mutation.eq_of_work_eq_error {stem : String} {m : Mutation} {root left : Pipeline}
    {e : MutationError} (h : m.work stem root = .error e left) :
    left = root ∧ m.applyWith stem root = .error e := by
  rw [Mutation.work_eq, Work.atomic] at h
  cases hm : m.applyWith stem root with
  | ok next =>
    rw [hm] at h
    cases h
  | error e' =>
    rw [hm] at h
    cases h
    exact ⟨rfl, rfl⟩

end FilterEditor
