import FilterEditor.Document
import FilterEditor.Proofs.Built
import FilterEditor.Proofs.Nesting

/-!
# Trees survive exchange

The text of a tree is read as the same tree, unless it nests too deep to be read at all; and a tree
that was read never does (`exchange_round_trip`).

The text of a tree is JSON that is read back (`Json.parse?_compact`), so what remains is about
`Json`: a node is read from its record (`Node.readBack`), and the record of a node that was read
nests no deeper than what it was read from (`Node.depth_toJson_le_of_read?`), whatever form that
had.
-/

namespace FilterEditor

/-! ## The record of a node -/

theorem Node.toJson_array (branches : List Pipeline) :
    (Node.array branches).toJson =
      .object [("type", .string "array"), ("items", .array (branches.map Pipeline.toJson))] := by
  rw [Node.toJson, Node.branchesToJson_eq_map]

theorem Node.toJson_object (entries : Entries Pipeline) :
    (Node.object entries).toJson =
      .object [("type", .string "object"),
        ("items", .object (entries.map fun e => (e.1, Pipeline.toJson e.2)))] := by
  rw [Node.toJson, Node.entriesToJson_eq_map]

theorem Node.depth_toJson_array (branches : List Pipeline) :
    (Node.array branches).toJson.depth =
      Json.depthOfItems (branches.map Pipeline.toJson) + 2 := by
  simp [Node.toJson_array, Json.depth, Json.depthOfMembers]

theorem Node.depth_toJson_object (entries : Entries Pipeline) :
    (Node.object entries).toJson.depth =
      Json.depthOfMembers (entries.map fun e => (e.1, Pipeline.toJson e.2)) + 2 := by
  simp [Node.toJson_object, Json.depth, Json.depthOfMembers]

theorem Pipeline.depth_toJson_le_iff {p : Pipeline} {d : Nat} :
    (Pipeline.toJson p).depth ≤ d + 1 ↔ ∀ n ∈ p, n.toJson.depth ≤ d := by
  rw [Pipeline.toJson, Json.depth, Nat.add_le_add_iff_right, Pipeline.nodesToJson_eq_map,
    Json.depthOfItems_le_iff]
  exact List.forall_mem_map

/-! ## Reading a record back -/

theorem mapM_map_eq_some {α β : Type} {f : β → Option α} {g : α → β} {l : List α}
    (h : ∀ a ∈ l, f (g a) = some a) : (l.map g).mapM f = some l := by
  rw [mapM_eq_some_iff, List.map_map]
  exact List.map_congr_left h

/-- The node is read from its record wherever it stands, at any depth that is enough for the
record. -/
def Node.ReadBack (n : Node) : Prop :=
  ∀ inner depth, n.toJson.depth ≤ depth → Node.read? inner depth n.toJson = some n

theorem Pipeline.read?_toJson {p : Pipeline} (h : ∀ n ∈ p, n.ReadBack) (inner : Bool) {depth : Nat}
    (hdepth : (Pipeline.toJson p).depth ≤ depth + 1) :
    Pipeline.read? (Node.read? inner depth) (Pipeline.toJson p) = some p := by
  refine Pipeline.read?_eq_some_iff.mpr ⟨p.map Node.toJson, ?_, mapM_map_eq_some ?_⟩
  · rw [Pipeline.toJson, Pipeline.nodesToJson_eq_map]
  · exact fun n hn => h n hn inner depth (Pipeline.depth_toJson_le_iff.mp hdepth n hn)

theorem Node.readBack {n : Node} (hn : n.AllObjects fun entries => (Entries.keys entries).Nodup) :
    n.ReadBack := by
  induction n with
  | filter value =>
    intro inner depth hdepth
    have hrecord : (Node.filter value).toJson.depth = 1 := rfl
    obtain ⟨depth, rfl⟩ : ∃ d, depth = d + 1 := ⟨depth - 1, by omega⟩
    exact Node.read?_eq_some_iff.mpr (.inl ⟨value, rfl, rfl⟩)
  | array branches ih =>
    intro inner depth hdepth
    rw [Node.depth_toJson_array] at hdepth
    obtain ⟨depth, rfl⟩ : ∃ d, depth = d + 2 := ⟨depth - 2, by omega⟩
    rw [Nat.add_le_add_iff_right, Json.depthOfItems_le_iff, List.forall_mem_map] at hdepth
    rw [Node.allObjects_array] at hn
    have hbranch : ∀ p ∈ branches,
        Pipeline.read? (Node.read? true (depth + 1)) (Pipeline.toJson p) = some p := by
      intro p hp
      have hp' := hdepth p hp
      exact Pipeline.read?_toJson
        (fun n hmem => ih p hp n hmem (Pipeline.allObjects_iff.mp (hn p hp) n hmem)) true (by omega)
    rw [Node.toJson_array]
    exact Node.read?_eq_some_iff.mpr (.inr (.inl ⟨_, branches, rfl, mapM_map_eq_some hbranch, rfl⟩))
  | object entries ih =>
    intro inner depth hdepth
    rw [Node.depth_toJson_object] at hdepth
    obtain ⟨depth, rfl⟩ : ∃ d, depth = d + 2 := ⟨depth - 2, by omega⟩
    rw [Nat.add_le_add_iff_right, Json.depthOfMembers_le_iff, List.forall_mem_map] at hdepth
    rw [Node.allObjects_object] at hn
    have hentry : ∀ e ∈ entries,
        (Pipeline.read? (Node.read? true (depth + 1)) (Pipeline.toJson e.2)).map (e.1, ·) = some e := by
      intro e he
      have he' : (Pipeline.toJson e.2).depth ≤ depth := hdepth e he
      rw [Pipeline.read?_toJson (fun n hmem => ih e he n hmem
        (Pipeline.allObjects_iff.mp (hn.2 e he) n hmem)) true (by omega)]
      rfl
    rw [Node.toJson_object]
    refine Node.read?_eq_some_iff.mpr (.inr (.inr ⟨_, entries, rfl, mapM_map_eq_some hentry, ?_⟩))
    rw [Node.ofEntries, Entries.ofList_of_nodup hn.1]

/-! ## What was read nests no deeper -/

theorem Node.depth_lt_of_parts? {inner : Bool} {j content : Json} {kind : Kind}
    (h : Node.parts? inner j = some (kind, content)) : content.depth < j.depth := by
  unfold Node.parts? at h
  split at h
  next members =>
    simp only [Option.bind_eq_bind, Option.bind_eq_some_iff, Option.pure_def, Option.some.injEq,
      Prod.mk.injEq] at h
    obtain ⟨_, -, kind', -, content', hcontent, -, rfl⟩ := h
    have hmember : content'.depth ≤ Json.depthOfMembers members :=
      Json.depth_le_depthOfMembers (Json.mem_of_required? hcontent)
    rw [Json.depth]
    omega
  next tag content' =>
    simp only [Option.bind_eq_bind, Option.bind_eq_some_iff, Option.pure_def, Option.some.injEq,
      Prod.mk.injEq] at h
    obtain ⟨_, -, -, rfl⟩ := h
    simp only [Json.depth, Json.depthOfItems]
    omega
  next => cases h

theorem Pipeline.depth_toJson_le_of_read? {readNode : Json → Option Node} {j : Json} {p : Pipeline}
    (hnode : ∀ {j n}, readNode j = some n → n.toJson.depth ≤ j.depth)
    (h : Pipeline.read? readNode j = some p) : (Pipeline.toJson p).depth ≤ j.depth := by
  obtain ⟨items, rfl, hitems⟩ := Pipeline.read?_eq_some_iff.mp h
  rw [Json.depth, Pipeline.depth_toJson_le_iff]
  intro n hn
  obtain ⟨item, hitem, hread⟩ := exists_of_mapM_eq_some hitems hn
  exact Nat.le_trans (hnode hread) (Json.depth_le_depthOfItems hitem)

/-- The record of a node nests no deeper than what the node was read from. -/
theorem Node.depth_toJson_le_of_read? {inner : Bool} {depth : Nat} {j : Json} {n : Node}
    (h : Node.read? inner depth j = some n) : n.toJson.depth ≤ j.depth := by
  induction depth generalizing inner j n with
  | zero => cases h
  | succ depth ih =>
    rcases Node.read?_eq_some_iff.mp h with ⟨value, hparts, rfl⟩ |
      ⟨items, branches, hparts, hbranches, rfl⟩ | ⟨members, pairs, hparts, hpairs, rfl⟩
    · have hlt := Node.depth_lt_of_parts? hparts
      have hrecord : (Node.filter value).toJson.depth = 1 := rfl
      omega
    · have hlt := Node.depth_lt_of_parts? hparts
      have hitems : Json.depthOfItems (branches.map Pipeline.toJson) ≤ Json.depthOfItems items := by
        rw [Json.depthOfItems_le_iff, List.forall_mem_map]
        intro p hp
        obtain ⟨item, hitem, hread⟩ := exists_of_mapM_eq_some hbranches hp
        exact Nat.le_trans (Pipeline.depth_toJson_le_of_read? ih hread)
          (Json.depth_le_depthOfItems hitem)
      rw [Json.depth] at hlt
      rw [Node.depth_toJson_array]
      omega
    · have hlt := Node.depth_lt_of_parts? hparts
      have hmembers : Json.depthOfMembers ((Entries.ofList pairs).map fun e =>
          (e.1, Pipeline.toJson e.2)) ≤ Json.depthOfMembers members := by
        rw [Json.depthOfMembers_le_iff, List.forall_mem_map]
        intro e he
        obtain ⟨m, hm, hread⟩ := exists_of_mapM_eq_some hpairs (Entries.mem_ofList he)
        obtain ⟨p, hp, rfl⟩ := Option.map_eq_some_iff.mp hread
        exact Nat.le_trans (Pipeline.depth_toJson_le_of_read? ih hp)
          (Json.depth_le_depthOfMembers hm)
      rw [Json.depth] at hlt
      rw [Node.ofEntries, Node.depth_toJson_object]
      omega

/-! ## Texts -/

theorem Pipeline.allNumbers_toJson {f : Numeral → Bool} {p : Pipeline}
    (h : ∀ n ∈ p, n.toJson.allNumbers f) : (Pipeline.toJson p).allNumbers f := by
  rw [Pipeline.toJson, Json.allNumbers, Pipeline.nodesToJson_eq_map, Json.allNumbersOfItems_iff,
    List.forall_mem_map]
  exact h

theorem Node.allNumbers_toJson (f : Numeral → Bool) (n : Node) : n.toJson.allNumbers f := by
  induction n with
  | filter value => rfl
  | array branches ih =>
    have hitems : Json.allNumbersOfItems f (branches.map Pipeline.toJson) := by
      rw [Json.allNumbersOfItems_iff, List.forall_mem_map]
      exact fun p hp => Pipeline.allNumbers_toJson (ih p hp)
    simp [Node.toJson_array, Json.allNumbers, Json.allNumbersOfMembers, hitems]
  | object entries ih =>
    have hmembers : Json.allNumbersOfMembers f
        (entries.map fun e => (e.1, Pipeline.toJson e.2)) := by
      rw [Json.allNumbersOfMembers_iff, List.forall_mem_map]
      exact fun e he => Pipeline.allNumbers_toJson (ih e he)
    simp [Node.toJson_object, Json.allNumbers, Json.allNumbersOfMembers, hmembers]

theorem Json.parseTree?_compact {j : Json} (hj : j.allNumbers Number.fits) :
    Json.parseTree? j.compact = if j.depth ≤ Json.maxDepth then some j else none := by
  rw [Json.parseTree?, Json.parseBounded?, Json.parse?_compact, Option.filter_some]
  split
  next hdepth => simp_all
  next hdepth => simp_all

theorem Pipeline.ofText?_toText {p : Pipeline} (hp : p.KeysDistinct) :
    Pipeline.ofText? (Pipeline.toText p) =
      if (Pipeline.toJson p).depth ≤ Json.maxDepth then some p else none := by
  have hread : Pipeline.ofJson? (Pipeline.toJson p) = some p :=
    Pipeline.read?_toJson (fun n hn => Node.readBack (Pipeline.allObjects_iff.mp hp n hn))
      false (Nat.le_succ _)
  rw [Pipeline.ofText?, Pipeline.toText, Json.parseTree?_compact
    (Pipeline.allNumbers_toJson fun n _ => n.allNumbers_toJson _)]
  split
  · exact hread
  · rfl

theorem Pipeline.depth_toJson_le_of_ofText? {text : String} {p : Pipeline}
    (h : Pipeline.ofText? text = some p) : (Pipeline.toJson p).depth ≤ Json.maxDepth := by
  obtain ⟨j, hj, hp⟩ := Option.bind_eq_some_iff.mp h
  obtain ⟨hbounded, -⟩ := Option.filter_eq_some_iff.mp hj
  obtain ⟨-, hdepth⟩ := Option.filter_eq_some_iff.mp hbounded
  exact Nat.le_trans (Pipeline.depth_toJson_le_of_read? Node.depth_toJson_le_of_read? hp)
    (of_decide_eq_true hdepth)

/-- **Trees survive exchange.**  The text of a document whose objects have distinct keys is read as
the same tree when its brackets and braces nest no deeper than the limit, and is no tree otherwise.
A document that was read, in whatever spelling, is within the limit. -/
theorem exchange_round_trip :
    (∀ d : Document, d.root.KeysDistinct →
      (Json.nesting d.toText ≤ Json.maxDepth →
        Document.ofText d.toText = .ok (.ofRoot d.root)) ∧
      (Json.maxDepth < Json.nesting d.toText →
        ∃ reason, Document.ofText d.toText = .error (.json reason))) ∧
    ∀ text d, Document.ofText text = .ok d →
      Json.nesting d.toText ≤ Json.maxDepth ∧ Document.ofText d.toText = .ok d := by
  have hnesting : ∀ d : Document, Json.nesting d.toText = (Pipeline.toJson d.root).depth :=
    fun d => Json.nesting_compact _
  have hwithin : ∀ d : Document, d.root.KeysDistinct → Json.nesting d.toText ≤ Json.maxDepth →
      Document.ofText d.toText = .ok (.ofRoot d.root) := by
    intro d hd hdepth
    rw [hnesting] at hdepth
    have hread := Pipeline.ofText?_toText hd
    rw [if_pos hdepth] at hread
    exact Document.ofText_eq_ok_iff.mpr ⟨d.root, hread, rfl⟩
  refine ⟨fun d hd => ⟨hwithin d hd, fun hdepth => ?_⟩, fun text d hd => ?_⟩
  · rw [hnesting] at hdepth
    have hread := Pipeline.ofText?_toText hd
    rw [if_neg (by omega)] at hread
    exact ⟨_, by rw [Document.ofText, Document.toText, hread]; rfl⟩
  · obtain ⟨root, hroot, rfl⟩ := Document.ofText_eq_ok_iff.mp hd
    have hdepth : Json.nesting (Document.ofRoot root).toText ≤ Json.maxDepth := by
      rw [hnesting]
      exact Pipeline.depth_toJson_le_of_ofText? hroot
    exact ⟨hdepth, hwithin _ (Pipeline.built_of_ofText? hroot).keysDistinct hdepth⟩

/-- A text with a field that is passed over, fields in another order, a key that repeats, nodes in
the form of a list and kinds given by their numbers; and a tree that nests too deep. -/
theorem exchange_round_trip_spellings :
    let text :=
      "[\x7b\"items\":\x7b\"a\":[],\"b\":[[1,[]]],\"a\":[[\"filter\",\".x\"]," ++
        "\x7b\"value\":\".y\",\"type\":0\x7d]\x7d,\"id\":1,\"type\":\"object\"\x7d]"
    let d : Document := .ofRoot [.object [("a", [.filter ".x", .filter ".y"]), ("b", [.array []])]]
    let deep : Document := .ofRoot (Nat.repeat (fun p => [.array [p]]) 43 [])
    Document.ofText text = .ok d ∧ Document.ofText d.toText = .ok d ∧
      ∃ reason, Document.ofText deep.toText = .error (.json reason) := by
  intro text d deep
  have hread : Document.ofText text = .ok d :=
    Document.ofText_eq_ok_iff.mpr ⟨d.root, by decide +kernel, rfl⟩
  have hdeep : Json.maxDepth < Json.nesting deep.toText := by
    rw [Document.toText, Pipeline.toText, Json.nesting_compact]
    decide +kernel
  have hkeys : deep.root.KeysDistinct := by decide +kernel
  exact ⟨hread, (exchange_round_trip.2 text d hread).2, (exchange_round_trip.1 deep hkeys).2 hdeep⟩

/-- Nodes that stand inside no other are not known by the numbers of their kinds. -/
example : Pipeline.ofText? "[[1,[]]]" = none := by decide +kernel

end FilterEditor
