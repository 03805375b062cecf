import FilterEditor.Exchange.Tree
import FilterEditor.Tree.Objects

/-!
# Trees that are built

A tree comes from somewhere: it is put together node by node, or it is read from a text.  Either way
the entries of an object pass through `Node.ofEntries`, where keys that repeat are taken together.
`Node.Built` are the nodes that can be put together.  Their objects have distinct keys
(`Pipeline.Built.keysDistinct`), and what is read is one of them (`Pipeline.built_of_ofText?`).
-/

namespace FilterEditor

/-- A node that is put together from its parts, with any list of keys and branches for an object. -/
inductive Node.Built : Node → Prop
  | filter {value : String} : Node.Built (.filter value)
  | array {branches : List Pipeline} :
      (∀ p ∈ branches, ∀ n ∈ p, Node.Built n) → Node.Built (.array branches)
  | object {pairs : List (String × Pipeline)} :
      (∀ e ∈ pairs, ∀ n ∈ e.2, Node.Built n) → Node.Built (.ofEntries pairs)

def Pipeline.Built (p : Pipeline) : Prop :=
  ∀ n ∈ p, n.Built

theorem Node.Built.keysDistinct {n : Node} (h : n.Built) :
    n.AllObjects fun entries => (Entries.keys entries).Nodup := by
  induction h with
  | filter => exact trivial
  | array _ ih =>
    rw [Node.allObjects_array]
    exact fun p hp => Pipeline.allObjects_iff.mpr (ih p hp)
  | @object pairs _ ih =>
    rw [Node.ofEntries, Node.allObjects_object]
    refine ⟨Entries.nodup_keys_ofList pairs, fun e he => ?_⟩
    exact Pipeline.allObjects_iff.mpr (ih e (Entries.mem_ofList he))

theorem Pipeline.Built.keysDistinct {p : Pipeline} (h : p.Built) : p.KeysDistinct :=
  Pipeline.allObjects_iff.mpr fun n hn => (h n hn).keysDistinct

/-! ## Reading -/

theorem mapM_eq_some_iff {α β : Type} {f : α → Option β} {l : List α} {l' : List β} :
    l.mapM f = some l' ↔ l.map f = l'.map some := by
  induction l generalizing l' with
  | nil => cases l' <;> simp
  | cons a rest ih =>
    rw [List.mapM_cons, List.map_cons]
    cases l' with
    | nil => cases f a <;> cases rest.mapM f <;> simp
    | cons b l' =>
      rw [List.map_cons, List.cons.injEq, ← ih]
      cases f a <;> cases rest.mapM f <;> simp

theorem exists_of_mapM_eq_some {α β : Type} {f : α → Option β} {l : List α} {l' : List β}
    (h : l.mapM f = some l') {b : β} (hb : b ∈ l') : ∃ a ∈ l, f a = some b := by
  have hmem : some b ∈ l.map f := by
    rw [mapM_eq_some_iff.mp h]
    exact List.mem_map_of_mem hb
  exact List.mem_map.mp hmem

theorem Json.items?_eq_some_iff {j : Json} {items : List Json} :
    j.items? = some items ↔ j = .array items := by
  cases j <;> simp [Json.items?]

theorem Pipeline.read?_eq_some_iff {readNode : Json → Option Node} {j : Json} {p : Pipeline} :
    Pipeline.read? readNode j = some p ↔
      ∃ items, j = .array items ∧ items.mapM readNode = some p := by
  rw [Pipeline.read?, Option.bind_eq_some_iff]
  simp only [Json.items?_eq_some_iff]

/-- The three ways in which a node is read. -/
theorem Node.read?_eq_some_iff {inner : Bool} {depth : Nat} {j : Json} {n : Node} :
    Node.read? inner (depth + 1) j = some n ↔
      (∃ value, Node.parts? inner j = some (.filter, .string value) ∧ .filter value = n) ∨
      (∃ items branches, Node.parts? inner j = some (.array, .array items) ∧
        items.mapM (Pipeline.read? (Node.read? true depth)) = some branches ∧
        .array branches = n) ∨
      ∃ members pairs, Node.parts? inner j = some (.object, .object members) ∧
        members.mapM (fun m => (Pipeline.read? (Node.read? true depth) m.2).map (m.1, ·)) =
          some pairs ∧ .ofEntries pairs = n := by
  rw [Node.read?]
  cases Node.parts? inner j with
  | none => simp
  | some parts =>
    obtain ⟨kind, content⟩ := parts
    cases kind with
    | filter => cases content <;> simp [Json.string?]
    | array => cases content <;> simp [Json.items?, Option.bind_eq_some_iff]
    | object => cases content <;> simp [Json.members?, Option.bind_eq_some_iff]

theorem Node.built_of_read? {inner : Bool} {depth : Nat} {j : Json} {n : Node}
    (h : Node.read? inner depth j = some n) : n.Built := by
  induction depth generalizing inner j n with
  | zero => cases h
  | succ depth ih =>
    -- A branch is read node by node.
    have hbranch : ∀ {j p}, Pipeline.read? (Node.read? true depth) j = some p →
        Pipeline.Built p := by
      intro j p hp n hn
      obtain ⟨items, -, hitems⟩ := Pipeline.read?_eq_some_iff.mp hp
      obtain ⟨item, -, hitem⟩ := exists_of_mapM_eq_some hitems hn
      exact ih hitem
    rcases Node.read?_eq_some_iff.mp h with
      ⟨value, -, rfl⟩ | ⟨items, branches, -, hbranches, rfl⟩ | ⟨members, pairs, -, hpairs, rfl⟩
    · exact .filter
    · refine .array fun p hp => ?_
      obtain ⟨item, -, hitem⟩ := exists_of_mapM_eq_some hbranches hp
      exact hbranch hitem
    · refine .object fun e he => ?_
      obtain ⟨member, -, hmember⟩ := exists_of_mapM_eq_some hpairs he
      obtain ⟨p, hp, rfl⟩ := Option.map_eq_some_iff.mp hmember
      exact hbranch hp

/-- **What is read is built.** -/
theorem Pipeline.built_of_ofText? {text : String} {p : Pipeline}
    (h : Pipeline.ofText? text = some p) : p.Built := by
  obtain ⟨j, -, hj⟩ := Option.bind_eq_some_iff.mp h
  intro n hn
  obtain ⟨items, -, hitems⟩ := Pipeline.read?_eq_some_iff.mp hj
  obtain ⟨item, -, hitem⟩ := exists_of_mapM_eq_some hitems hn
  exact Node.built_of_read? hitem

end FilterEditor
