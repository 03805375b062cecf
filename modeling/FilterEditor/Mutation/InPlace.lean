import FilterEditor.Mutation.Apply

/-!
# Carrying out a mutation in place

A tree under edit stands in one place and is overwritten there.  A mutation walks down to the
container that it changes, looks at it and writes into it, once or several times.  It can find out
on the way that it does not fit, and nothing takes back what has been written by then.

`Mutation.work` is this work, write by write.  What it comes to in the end, a new tree or an error,
is what `Mutation.applyWith` says.
-/

namespace FilterEditor

/-- Work on something in place.  It may fail, and what it has written by then stays written. -/
abbrev Work (σ α : Type) := EStateM MutationError σ α

namespace Work

variable {σ τ υ α : Type}

/-- Work on a part of something.  The part goes back as the work leaves it, done or failed. -/
def onPart (w : Work τ α) (part : τ) (putBack : τ → σ) : EStateM.Result MutationError σ α :=
  match w part with
  | .ok a part => .ok a (putBack part)
  | .error e part => .error e (putBack part)

/-- Work that is done on a part of a part. -/
theorem onPart_onPart {w : Work τ α} {whole : τ} {inner : Work υ α} {part : υ} {putBack : υ → τ}
    (h : w whole = inner.onPart part putBack) (put : τ → σ) :
    w.onPart whole put = inner.onPart part fun part' => put (putBack part') := by
  rw [onPart, h, onPart, onPart]
  cases inner part <;> rfl

/-- Work on the branches of an array; a node of another kind is an error. -/
def onArray (wrong : MutationError) (w : Work (List Pipeline) Unit) : Work Node Unit
  | .array branches => w.onPart branches .array
  | n => .error wrong n

def onObject (wrong : MutationError) (w : Work (Entries Pipeline) Unit) : Work Node Unit
  | .object entries => w.onPart entries .object
  | n => .error wrong n

def setValue (path : Path) (value : String) : Work Node Unit := do
  match ← get with
  | .filter _ => set (Node.filter value)
  | _ => throw (.notFilter path)

def removeAt (path : Path) (i : Nat) : Work (List α) Unit := do
  if (← get).length ≤ i then throw (.notFound path)
  modify fun l => l.eraseIdx i

/-- Take out the entry under `key`; the answer is its position and its value, if there was one. -/
def takeOut (key : String) : Work (Entries α) (Option (Nat × α)) := do
  let entry? := Entries.find? key (← get)
  modify (Entries.erase key)
  return entry?

def removeEntry (path : Path) (key : String) : Work (Entries α) Unit := do
  match ← takeOut key with
  | some _ => return
  | none => throw (.notFound path)

/-- Call the entry under `key` by another name: it is taken out and put back where it was.  Under
its own name an entry stays in its place. -/
def renameEntry (path : Path) (key newKey : String) : Work (Entries α) Unit := do
  if key = newKey then
    if key ∈ Entries.keys (← get) then return else throw (.notFound path)
  else
    if newKey ∈ Entries.keys (← get) then throw (.duplicateKey newKey)
    match ← takeOut key with
    | some (position, value) => modify fun entries => entries.insertIdx position (newKey, value)
    | none => throw (.notFound path)

end Work

/-- Work at the place that a path addresses. -/
structure Job where
  /-- The error of a path that leads nowhere. -/
  missing : MutationError
  /-- The work on a node. -/
  onNode : Work Node Unit
  /-- The work on a pipeline. -/
  onPipeline : Work Pipeline Unit

namespace Job

def ofNode (missing : MutationError) (w : Work Node Unit) : Job :=
  ⟨missing, w, throw missing⟩

def ofPipeline (missing : MutationError) (w : Work Pipeline Unit) : Job :=
  ⟨missing, throw missing, w⟩

mutual

def pipeline (job : Job) : Path → Work Pipeline Unit
  | [], p => job.onPipeline p
  | .index i :: rest, p =>
    match p[i]? with
    | none => .error job.missing p
    | some n => Work.onPart (job.node rest) n fun n' => p.set i n'
  | .branch _ :: _, p => .error job.missing p
  | .key _ :: _, p => .error job.missing p

def node (job : Job) : Path → Work Node Unit
  | [], n => job.onNode n
  | .branch b :: rest, .array branches =>
    match branches[b]? with
    | none => .error job.missing (.array branches)
    | some p => Work.onPart (job.pipeline rest) p fun p' => .array (branches.set b p')
  | .key k :: rest, .object entries =>
    match Entries.get? k entries with
    | none => .error job.missing (.object entries)
    | some p => Work.onPart (job.pipeline rest) p fun p' => .object (Entries.put k p' entries)
  | _ :: _, n => .error job.missing n

end

end Job

/-- The work of a mutation on a tree; fresh keys begin with `stem`. -/
def Mutation.work (stem : String) (m : Mutation) : Work Pipeline Unit :=
  match m with
  | setFilterValue path value => (Job.ofNode (.notFound path) (.setValue path value)).pipeline path
  | insertSibling path kind =>
    match path.split? with
    | none => modify fun root => kind.blankNode :: root
    | some (parent, .index i) =>
      (Job.ofPipeline (.notFound parent) (modify (insertAfter i kind.blankNode))).pipeline parent
    | some (parent, .branch b) =>
      (Job.ofNode (.notFound parent)
        (.onArray (.notArray parent) (modify (insertAfter b [kind.blankNode])))).pipeline parent
    | some (parent, .key _) =>
      (Job.ofNode (.notFound parent) (.onObject (.notObject parent) do
        let key := Entries.freshKey (← get) stem
        modify (Entries.put key [kind.blankNode]))).pipeline parent
  | appendBranch path =>
    (Job.ofNode (.notFound path)
      (.onArray (.notArray path) (modify fun branches => branches ++ [[]]))).pipeline path
  | removeNode path =>
    match path.split? with
    | some (parent, .index i) =>
      (Job.ofPipeline (.notFound path) (.removeAt path i)).pipeline parent
    | _ => throw (.notNodePath path)
  | removeBranch path =>
    match path.split? with
    | none => throw .rootBranch
    | some (parent, .index _) =>
      (Job.ofNode (.notFound parent) (throw (.notBranchPath path))).pipeline parent
    | some (parent, .branch b) =>
      (Job.ofNode (.notFound parent)
        (.onArray (.selectorMismatch path) (.removeAt path b))).pipeline parent
    | some (parent, .key k) =>
      (Job.ofNode (.notFound parent)
        (.onObject (.selectorMismatch path) (.removeEntry path k))).pipeline parent
  | addProperty path key =>
    if key = "" then throw .emptyKey
    else
      (Job.ofNode (.notFound path)
        (.onObject (.notObject path) (modify (Entries.put key [.filter ""])))).pipeline path
  | renameProperty path newKey =>
    match path.split? with
    | some (parent, .key key) =>
      if newKey = "" then throw .emptyKey
      else
        (Job.ofNode (.notFound parent)
          (.onObject (.notObject parent) (.renameEntry path key newKey))).pipeline parent
    | _ => throw (.notEntryPath path)

end FilterEditor
