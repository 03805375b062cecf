import FilterEditor.Expression
import FilterEditor.Proofs.Container

/-!
# The text around a place

Filling or emptying one place can bring in or take away separators, keys and brackets all the way up
to the root.  But whatever stands around a place that shows any text is the same for every such
text, and a place that shows none might as well not be there.  A `Frame` is what a larger text makes
of the text of one of its parts in this sense.

* Joining, keying and enclosing each frame one part (`joinNonEmpty_append_cons`, `keyed_eq_fill`,
  `enclose_eq_fill`), and a frame in a frame is a frame (`Frame.fill_comp`).
* So one step from a place into the tree is a frame (`Target.exists_frame_put`), and by induction on
  the path a whole walk is one (`Target.exists_frame_write`).

`Pipeline.compile_framed` reads the frame of a node: with the node taken out, and with other nodes
put in its place.
-/

namespace FilterEditor

/-! ## Frames -/

/-- What a larger text makes of the text of one part. -/
structure Frame where
  /-- What stands before a part that shows some text. -/
  before : String
  /-- What stands behind it. -/
  behind : String
  /-- The larger text when the part shows none. -/
  bare : String

namespace Frame

def fill (f : Frame) (text : String) : String :=
  if text = "" then f.bare else f.before ++ text ++ f.behind

def whole : Frame :=
  ⟨"", "", ""⟩

def comp (outer inner : Frame) : Frame where
  before := outer.before ++ inner.before
  behind := inner.behind ++ outer.behind
  bare := outer.fill inner.bare

theorem fill_empty (f : Frame) : f.fill "" = f.bare :=
  if_pos rfl

theorem fill_of_ne (f : Frame) {text : String} (h : text ≠ "") :
    f.fill text = f.before ++ text ++ f.behind :=
  if_neg h

/-- A part that shows some text makes the larger text show some. -/
theorem fill_ne_empty (f : Frame) {text : String} (h : text ≠ "") : f.fill text ≠ "" := by
  intro hempty
  rw [fill_of_ne f h, String.append_eq_empty_iff, String.append_eq_empty_iff] at hempty
  exact h hempty.1.2

theorem fill_eq_empty_iff {f : Frame} {text : String} (hbare : f.bare = "") :
    f.fill text = "" ↔ text = "" := by
  constructor
  · exact fun h => Decidable.of_not_not fun hne => f.fill_ne_empty hne h
  · rintro rfl
    rw [fill_empty, hbare]

theorem fill_whole (text : String) : whole.fill text = text := by
  by_cases h : text = ""
  · rw [h, fill_empty]
    rfl
  · rw [fill_of_ne whole h, whole, String.empty_append, String.append_empty]

theorem fill_comp (outer inner : Frame) (text : String) :
    (outer.comp inner).fill text = outer.fill (inner.fill text) := by
  by_cases h : text = ""
  · rw [h, fill_empty, fill_empty]
    rfl
  · rw [fill_of_ne _ h, fill_of_ne outer (inner.fill_ne_empty h), fill_of_ne inner h]
    simp only [comp, String.append_assoc]

end Frame

/-! ## Joining, keying, enclosing -/

theorem intercalate_append_cons (separator text : String) (l₁ l₂ : List String) :
    separator.intercalate (l₁ ++ text :: l₂) =
      String.join (l₁.map (· ++ separator)) ++ separator.intercalate (text :: l₂) := by
  induction l₁ with
  | nil => rw [List.nil_append, List.map_nil, String.join_nil, String.empty_append]
  | cons a rest ih =>
    have hne : rest ++ text :: l₂ ≠ [] := by simp
    rw [List.cons_append, String.intercalate_cons_of_ne_nil hne, ih, List.map_cons,
      String.join_cons]
    simp only [String.append_assoc]

theorem intercalate_cons (separator text : String) (l : List String) :
    separator.intercalate (text :: l) = text ++ String.join (l.map (separator ++ ·)) := by
  induction l generalizing text with
  | nil =>
    rw [List.map_nil, String.join_nil, String.append_empty]
    rfl
  | cons a rest ih =>
    rw [String.intercalate_cons_cons, ih, List.map_cons, String.join_cons, String.append_assoc,
      String.append_assoc]

def Frame.joined (separator : String) (l₁ l₂ : List String) : Frame where
  before := String.join ((l₁.filter (· ≠ "")).map (· ++ separator))
  behind := String.join ((l₂.filter (· ≠ "")).map (separator ++ ·))
  bare := joinNonEmpty separator (l₁ ++ l₂)

/-- A part that shows some text has a separator on each side on which another such part stands. -/
theorem joinNonEmpty_append_cons (separator text : String) (l₁ l₂ : List String) :
    joinNonEmpty separator (l₁ ++ text :: l₂) = (Frame.joined separator l₁ l₂).fill text := by
  by_cases h : text = ""
  · rw [h, Frame.fill_empty]
    simp [joinNonEmpty, Frame.joined]
  · rw [Frame.fill_of_ne _ h, joinNonEmpty, List.filter_append,
      List.filter_cons_of_pos (by simp [h]), intercalate_append_cons, intercalate_cons,
      String.append_assoc]
    rfl

theorem joinNonEmpty_eq_empty_iff {separator : String} {parts : List String} :
    joinNonEmpty separator parts = "" ↔ ∀ text ∈ parts, text = "" := by
  constructor
  · intro h text hmem
    obtain ⟨l₁, l₂, rfl⟩ := List.append_of_mem hmem
    rw [joinNonEmpty_append_cons] at h
    exact Decidable.of_not_not fun hne => Frame.fill_ne_empty _ hne h
  · intro h
    have hnone : parts.filter (· ≠ "") = [] := by
      rw [List.filter_eq_nil_iff]
      intro text hmem
      simp [h text hmem]
    rw [joinNonEmpty, hnone]
    rfl

theorem enclose_eq_fill (opening closing text : String) :
    enclose opening closing text = Frame.fill ⟨opening, closing, ""⟩ text := rfl

theorem keyed_eq_fill (separator key text : String) :
    keyed separator key text = Frame.fill ⟨key ++ separator, "", ""⟩ text := by
  rw [keyed, Frame.fill]
  simp only [String.append_empty]

/-- A key never stands alone. -/
theorem Node.entryText_eq_empty_iff {s : Separators} {e : String × Pipeline} :
    entryText s e = "" ↔ Pipeline.compile s e.2 = "" := by
  rw [entryText, keyed_eq_fill, Frame.fill_eq_empty_iff rfl]

/-! ## Places -/

theorem set_eq_append_cons {α : Type} {l : List α} {i : Nat} {a : α} (h : l[i]? = some a) (b : α) :
    l.set i b = l.take i ++ b :: l.drop (i + 1) := by
  obtain ⟨hi, -⟩ := List.getElem?_eq_some_iff.mp h
  rw [List.set_eq_take_append_cons_drop, if_pos hi]

theorem Entries.exists_put_eq {α : Type} {entries : Entries α} {k : String} {a : α}
    (h : Entries.get? k entries = some a) :
    ∃ l₁ l₂, ∀ b, Entries.put k b entries = l₁ ++ (k, b) :: l₂ := by
  obtain ⟨before, value, behind, hsplits⟩ := exists_splits (mem_keys_of_get? h)
  exact ⟨before, behind, hsplits.put_eq⟩

def Pipeline.frameAt (s : Separators) (p : Pipeline) (i : Nat) : Frame :=
  .joined s.pipe ((p.take i).map (Node.compile s)) ((p.drop (i + 1)).map (Node.compile s))

theorem Pipeline.compile_set {s : Separators} {p : Pipeline} {i : Nat} {old : Node}
    (h : p[i]? = some old) (n : Node) :
    Pipeline.compile s (p.set i n) = (p.frameAt s i).fill (n.compile s) := by
  rw [Pipeline.compile_eq, set_eq_append_cons h, List.map_append, List.map_cons]
  exact joinNonEmpty_append_cons _ _ _ _

theorem Pipeline.bare_frameAt (s : Separators) (p : Pipeline) (i : Nat) :
    (p.frameAt s i).bare = Pipeline.compile s (p.eraseIdx i) := by
  rw [Pipeline.compile_eq, List.eraseIdx_eq_take_drop_succ, List.map_append]
  rfl

namespace Target

def compile (s : Separators) : Target → String
  | node n => n.compile s
  | pipeline p => Pipeline.compile s p

variable {s : Separators} {t u : Target} {x : Selector} {path : Path}

/-- The text of a place frames the text of what is put one step below. -/
theorem exists_frame_put (s : Separators) (h : t.step? x = some u) :
    ∃ f : Frame, ∀ v, v.isNode = u.isNode → (t.put x v).compile s = f.fill (v.compile s) := by
  cases step?_eq_some_iff.mp h with
  | @index p i n hn =>
    refine ⟨p.frameAt s i, fun v hv => ?_⟩
    cases v with
    | pipeline q => cases hv
    | node m => exact Pipeline.compile_set hn m
  | @branch branches b q hq =>
    refine ⟨.comp ⟨"[", "]", ""⟩ (.joined s.item ((branches.take b).map (Pipeline.compile s))
      ((branches.drop (b + 1)).map (Pipeline.compile s))), fun v hv => ?_⟩
    cases v with
    | node m => cases hv
    | pipeline r =>
      show (Node.array (branches.set b r)).compile s = _
      rw [Node.compile_array, set_eq_append_cons hq, List.map_append, List.map_cons,
        joinNonEmpty_append_cons, enclose_eq_fill, Frame.fill_comp]
      rfl
  | @key entries k q hq =>
    obtain ⟨l₁, l₂, hput⟩ := Entries.exists_put_eq hq
    refine ⟨.comp ⟨"\x7b", "\x7d", ""⟩ (.comp (.joined s.item (l₁.map (Node.entryText s))
      (l₂.map (Node.entryText s))) ⟨k ++ s.key, "", ""⟩), fun v hv => ?_⟩
    cases v with
    | node m => cases hv
    | pipeline r =>
      show (Node.object (Entries.put k r entries)).compile s = _
      rw [Node.compile_object, hput, List.map_append, List.map_cons, joinNonEmpty_append_cons,
        enclose_eq_fill, Node.entryText, keyed_eq_fill, Frame.fill_comp, Frame.fill_comp]
      rfl

/-- **The text of a tree frames the text of each of its places.** -/
theorem exists_frame_write (s : Separators) (h : t.walk? path = some u) :
    ∃ f : Frame, ∀ v, v.isNode = u.isNode → (t.write path v).compile s = f.fill (v.compile s) := by
  induction path generalizing t with
  | nil => exact ⟨.whole, fun v _ => (Frame.fill_whole _).symm⟩
  | cons x rest ih =>
    obtain ⟨w, hw, hrest⟩ := walk?_cons_eq_some.mp h
    obtain ⟨inner, hinner⟩ := ih hrest
    obtain ⟨outer, houter⟩ := exists_frame_put s hw
    refine ⟨outer.comp inner, fun v hv => ?_⟩
    rw [write_cons hw, houter _ (isNode_write hrest hv), hinner v hv, Frame.fill_comp]

/-- What is put at a place of the same text makes no difference to the text of the whole. -/
theorem compile_write {v : Target} (h : t.walk? path = some u) (hv : v.isNode = u.isNode)
    (htext : v.compile s = u.compile s) : (t.write path v).compile s = t.compile s := by
  obtain ⟨f, hf⟩ := exists_frame_write s h
  rw [hf v hv, htext, ← hf u rfl, write_self h]

theorem exists_parent_of_walk? {root : Pipeline} {n : Node}
    (h : (pipeline root).walk? path = some (node n)) :
    ∃ parent i p, path = parent ++ [.index i] ∧
      (pipeline root).walk? parent = some (pipeline p) ∧ p[i]? = some n := by
  rcases path.eq_nil_or_concat with rfl | ⟨parent, last, rfl⟩
  · cases h
  · obtain ⟨t, ht, hchild⟩ := Pipeline.resolve?_concat_eq_some_iff.mp h
    cases hchild with
    | @index p i n hn => exact ⟨parent, i, p, rfl, ht, hn⟩

end Target

namespace Pipeline

variable {s : Separators} {root : Pipeline} {path : Path} {old : Node}

theorem walk?_of_node? (h : root.node? path = some old) :
    (Target.pipeline root).walk? path = some (.node old) := by
  obtain ⟨t, ht, hold⟩ := Option.bind_eq_some_iff.mp h
  cases t with
  | pipeline p => cases hold
  | node n =>
    cases hold
    exact ht

theorem exists_withNode? (h : root.node? path = some old) (n : Node) :
    ∃ filled, root.withNode? path n = some filled ∧
      (Target.pipeline root).write path (.node n) = .pipeline filled := by
  have hwalk := walk?_of_node? h
  obtain ⟨filled, hfilled⟩ := Target.exists_write_eq_pipeline (v := .node n) hwalk rfl
  have hedit : (Edit.ofNode () fun _ => .ok n).pipeline path root = .ok filled :=
    Edit.pipeline_eq_ok_iff.mpr ⟨.node old, .node n, hwalk, rfl, hfilled⟩
  exact ⟨filled, by rw [withNode?, hedit]; rfl, hfilled⟩

theorem exists_removeNode {parent : Path} {p : Pipeline} {i : Nat}
    (hparent : (Target.pipeline root).walk? parent = some (.pipeline p)) (hi : p[i]? = some old) :
    ∃ without, (Mutation.removeNode (parent ++ [.index i])).apply root = .ok without ∧
      (Target.pipeline root).write parent (.pipeline (p.eraseIdx i)) = .pipeline without := by
  obtain ⟨hlt, -⟩ := List.getElem?_eq_some_iff.mp hi
  obtain ⟨without, hwithout⟩ :=
    Target.exists_write_eq_pipeline (v := .pipeline (p.eraseIdx i)) hparent rfl
  have hcontainer : (Mutation.removeNode (parent ++ [.index i])).container = parent := by
    rw [Mutation.container, List.dropLast_concat]
  refine ⟨without, ?_, hwithout⟩
  refine Mutation.applyWith_eq_ok_iff.mpr ⟨.pipeline p, .pipeline (p.eraseIdx i), ?_, ?_, ?_⟩
  · rw [hcontainer]
    exact hparent
  · exact .removeNode List.getLast?_concat hlt
  · rw [hcontainer]
    exact hwithout

theorem write_concat_index {parent : Path} {p : Pipeline} {i : Nat}
    (hparent : (Target.pipeline root).walk? parent = some (.pipeline p)) (hi : p[i]? = some old)
    (n : Node) :
    (Target.pipeline root).write (parent ++ [.index i]) (.node n) =
      (Target.pipeline root).write parent (.pipeline (p.set i n)) := by
  rw [Target.write_append hparent, Target.write_cons (Target.step?_eq_some_iff.mpr (.index hi))]
  rfl

/-- **The text of a tree is compositional.**  Two texts depend on the tree around a node alone, and
the text of the tree with any node in that place that shows some text is this text between the two.
With a node that shows none the text is that of the tree from which the node is taken out.  So a
node may be exchanged for any other of the same text. -/
theorem compile_framed (s : Separators) (h : root.node? path = some old) :
    ∃ (before behind : String) (without : Pipeline),
      (Mutation.removeNode path).apply root = .ok without ∧
        ∀ n, ∃ filled, root.withNode? path n = some filled ∧
          (n.compile s ≠ "" →
            Pipeline.compile s filled = before ++ n.compile s ++ behind) ∧
          (n.compile s = "" → Pipeline.compile s filled = Pipeline.compile s without) ∧
          (n.compile s = old.compile s → Pipeline.compile s filled = Pipeline.compile s root) := by
  have hwalk := walk?_of_node? h
  obtain ⟨parent, i, p, rfl, hparent, hi⟩ := Target.exists_parent_of_walk? hwalk
  obtain ⟨without, hremove, hwithout⟩ := exists_removeNode hparent hi
  obtain ⟨outer, houter⟩ := Target.exists_frame_write s hparent
  -- The pipeline around the node stands in the outer frame, and the node in that of the pipeline.
  have hpipeline : ∀ q root', (Target.pipeline root).write parent (.pipeline q) = .pipeline root' →
      Pipeline.compile s root' = outer.fill (Pipeline.compile s q) := by
    intro q root' hwrite
    have hframe := houter (.pipeline q) rfl
    rw [hwrite] at hframe
    exact hframe
  let frame := outer.comp (Pipeline.frameAt s p i)
  have hbare : frame.bare = Pipeline.compile s without := by
    rw [hpipeline _ without hwithout, ← Pipeline.bare_frameAt]
    rfl
  have hfill : ∀ n root', (Target.pipeline root).write (parent ++ [.index i]) (.node n) =
      .pipeline root' → Pipeline.compile s root' = frame.fill (n.compile s) := by
    intro n root' hwrite
    rw [write_concat_index hparent hi] at hwrite
    rw [hpipeline _ root' hwrite, Pipeline.compile_set hi, Frame.fill_comp]
  refine ⟨frame.before, frame.behind, without, hremove, fun n => ?_⟩
  obtain ⟨filled, hfilled, hwrite⟩ := exists_withNode? h n
  refine ⟨filled, hfilled, fun hne => ?_, fun hempty => ?_, fun hsame => ?_⟩
  · rw [hfill n filled hwrite, Frame.fill_of_ne _ hne]
  · rw [hfill n filled hwrite, hempty, Frame.fill_empty, hbare]
  · rw [hfill n filled hwrite, hsame, hfill old root (Target.write_self hwalk)]

/-- A blank filter stands alone under a key; with text in its place the key and the braces appear. -/
theorem compile_framed_under_key :
    let root : Pipeline := [.array [[.object [("k", [.filter " "])]], [.filter ".b"]], .filter ".c"]
    let path : Path := [.index 0, .branch 0, .index 0, .key "k", .index 0]
    root.node? path = some (.filter " ") ∧
      ∃ (before behind : String) (without : Pipeline),
        (Mutation.removeNode path).apply root = .ok without ∧
          ∀ n, ∃ filled, root.withNode? path n = some filled ∧
            (n.compile .compact ≠ "" →
              Pipeline.compile .compact filled = before ++ n.compile .compact ++ behind) ∧
            (n.compile .compact = "" →
              Pipeline.compile .compact filled = Pipeline.compile .compact without) ∧
            (n.compile .compact = (Node.filter " ").compile .compact →
              Pipeline.compile .compact filled = Pipeline.compile .compact root) :=
  ⟨by decide +kernel, compile_framed .compact (by decide +kernel)⟩

end Pipeline

end FilterEditor
