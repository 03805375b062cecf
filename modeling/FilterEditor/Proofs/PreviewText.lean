import FilterEditor.Proofs.Chain
import FilterEditor.Proofs.Framing

/-!
# The text of the preview

In an ancestor chain nothing stands beside anything, so its text has no separators: it is the text
of the place in the brackets of the containers, with their keys (`Target.compile_chain`).  The text
depends on the keys of the path and on the text of the place, and on nothing else.  With the usual
separators the brackets can be written down: all of them if the place has a text, and none if it has
none (`Pipeline.preview_text`).
-/

namespace FilterEditor

theorem joinNonEmpty_singleton (separator text : String) : joinNonEmpty separator [text] = text := by
  by_cases h : text = ""
  · rw [h]
    rfl
  · rw [joinNonEmpty, List.filter_cons_of_pos (by simp [h])]
    rfl

theorem Pipeline.compile_singleton (s : Separators) (n : Node) :
    Pipeline.compile s [n] = n.compile s := by
  rw [compile_eq, List.map_singleton, joinNonEmpty_singleton]

/-- The text of a container, from the text of the one child that it holds under a selector. -/
def Selector.wrap (s : Separators) : Selector → String → String
  | index _, text => text
  | branch _, text => enclose "[" "]" text
  | key k, text => enclose "\x7b" "\x7d" (keyed s.key k text)

theorem Selector.wrap_collapse (s : Separators) (x : Selector) : x.collapse.wrap s = x.wrap s := by
  cases x <;> rfl

namespace Target

variable {t u v : Target} {x : Selector} {path : Path}

theorem compile_around (s : Separators) (h : Fits x v) :
    (around x v).compile s = x.wrap s (v.compile s) := by
  cases h with
  | @index _ n => exact Pipeline.compile_singleton s n
  | @branch _ p =>
    show (Node.array [p]).compile s = enclose "[" "]" (Pipeline.compile s p)
    rw [Node.compile_array, List.map_singleton, joinNonEmpty_singleton]
  | @key k p =>
    show (Node.object [(k, p)]).compile s =
      enclose "\x7b" "\x7d" (keyed s.key k (Pipeline.compile s p))
    rw [Node.compile_object, List.map_singleton, joinNonEmpty_singleton]
    rfl

/-- **The text of a chain is the text of the place in the brackets of its containers.** -/
theorem compile_chain (s : Separators) (h : t.walk? path = some u) (hv : v.isNode = u.isNode) :
    (chain path v).compile s = path.foldr (Selector.wrap s) (v.compile s) := by
  induction path generalizing t with
  | nil => rfl
  | cons x rest ih =>
    obtain ⟨w, hw, hrest⟩ := walk?_cons_eq_some.mp h
    show (around x (chain rest v)).compile s = x.wrap s (rest.foldr (Selector.wrap s) (v.compile s))
    rw [compile_around s (fits_of_step? hw (isNode_chain hrest hv)), ih hrest]

end Target

theorem Path.foldr_wrap_collapse (s : Separators) (path : Path) (text : String) :
    path.collapse.foldr (Selector.wrap s) text = path.foldr (Selector.wrap s) text := by
  rw [collapse, List.foldr_map]
  simp only [Selector.wrap_collapse]

theorem Pipeline.preview?_eq {root : Pipeline} {path : Path} {t : Target} (hne : path ≠ [])
    (ht : root.resolve? path = some t) :
    root.preview? path = some (path.foldr (Selector.wrap .spaced) (t.compile .spaced)) := by
  obtain ⟨c, hc, hchain⟩ := exists_chain? hne ht
  rw [preview?, hc, Option.map_some, ← Target.compile_chain .spaced ht rfl, hchain]
  rfl

/-! ## The text in closed form -/

/-- A text in the brackets of the container that a branch selector goes into, behind its key if it
has one. -/
def Selector.surround : Selector → String → String
  | index _, text => text
  | branch _, text => "[" ++ text ++ "]"
  | key k, text => "\x7b" ++ k ++ ": " ++ text ++ "\x7d"

theorem Selector.wrap_empty (s : Separators) (x : Selector) : x.wrap s "" = "" := by
  cases x <;> rfl

theorem Selector.wrap_of_ne {text : String} (x : Selector) (h : text ≠ "") :
    x.wrap .spaced text = x.surround text := by
  cases x with
  | index i => rfl
  | branch b => exact if_neg h
  | key k =>
    have hkeyed : keyed ": " k text = k ++ ": " ++ text := if_neg h
    have hne : k ++ ": " ++ text ≠ "" := by simp
    show enclose "\x7b" "\x7d" (keyed ": " k text) = "\x7b" ++ k ++ ": " ++ text ++ "\x7d"
    rw [hkeyed, enclose, if_neg hne]
    simp only [String.append_assoc]

theorem Selector.surround_ne_empty {text : String} (x : Selector) (h : text ≠ "") :
    x.surround text ≠ "" := by
  cases x with
  | index i => exact h
  | branch b => simp [surround]
  | key k => simp [surround]

namespace Path

/-- Nothing has no brackets around it, however deep it stands; any other text has all of them. -/
theorem foldr_wrap_spaced (path : Path) (text : String) :
    path.foldr (Selector.wrap .spaced) text =
      if text = "" then "" else path.foldr Selector.surround text := by
  split
  next h =>
    subst h
    induction path with
    | nil => rfl
    | cons x rest ih => rw [List.foldr_cons, ih, Selector.wrap_empty]
  next h =>
    -- The text stays nonempty on the way out, so that each container shows its brackets.
    have hboth : path.foldr (Selector.wrap .spaced) text = path.foldr Selector.surround text ∧
        path.foldr Selector.surround text ≠ "" := by
      induction path with
      | nil => exact ⟨rfl, h⟩
      | cons x rest ih =>
        obtain ⟨heq, hne⟩ := ih
        rw [List.foldr_cons, List.foldr_cons, heq]
        exact ⟨x.wrap_of_ne hne, x.surround_ne_empty hne⟩
    exact hboth.1

theorem foldr_surround_filter (path : Path) (text : String) :
    (path.filter Selector.isBranch).foldr Selector.surround text =
      path.foldr Selector.surround text := by
  induction path with
  | nil => rfl
  | cons x rest ih =>
    cases x with
    | index i => exact ih
    | branch b => exact congrArg (Selector.surround (.branch b)) ih
    | key k => exact congrArg (Selector.surround (.key k)) ih

end Path

namespace Pipeline

/-- **The preview in closed form.**  It is the text of the place, from the inside out in the
brackets of the container at each branch selector, with its key there; of a place without text it
is empty.  So nothing of what stands beside the place or beside what is above it shows, not even how
much of it there is. -/
theorem preview_text {root : Pipeline} {path : Path} {t : Target} (hne : path ≠ [])
    (ht : root.resolve? path = some t) :
    root.preview? path =
        some (if t.compile .spaced = "" then ""
          else (path.filter Selector.isBranch).foldr Selector.surround (t.compile .spaced)) ∧
      ∀ (root' : Pipeline) (path' : Path), path'.collapse = path.collapse →
        root'.resolve? path' = some t → root'.preview? path' = root.preview? path := by
  have hpreview := preview?_eq hne ht
  refine ⟨?_, fun root' path' hpath ht' => ?_⟩
  · rw [hpreview, Path.foldr_wrap_spaced, Path.foldr_surround_filter]
  · have hne' : path' ≠ [] := by
      rintro rfl
      exact hne (List.map_eq_nil_iff.mp hpath.symm)
    rw [hpreview, preview?_eq hne' ht', ← Path.foldr_wrap_collapse _ path', hpath,
      Path.foldr_wrap_collapse]

/-- A filter of a branch, the branch as a whole, and a branch with nothing to show.  The filter
alone in the same containers has the same preview. -/
theorem preview_text_tags :
    let tags : Pipeline :=
      [.array [[.filter " "], [.filter ".tags[]", .filter " ascii_downcase "]]]
    let root : Pipeline := [.filter ".users[]", .object [("id", [.filter ".id"]), ("tags", tags)]]
    let alone : Pipeline := [.object [("tags", [.array [[.filter " ascii_downcase "]]])]]
    let blank : Path := [.index 1, .key "tags", .index 0, .branch 0]
    let branch : Path := [.index 1, .key "tags", .index 0, .branch 1]
    root.preview? blank = some "" ∧
      root.preview? branch = some "\x7btags: [.tags[] | ascii_downcase]\x7d" ∧
      root.preview? (branch ++ [.index 1]) = some "\x7btags: [ascii_downcase]\x7d" ∧
      alone.preview? [.index 0, .key "tags", .index 0, .branch 0, .index 0] =
        root.preview? (branch ++ [.index 1]) := by
  intro tags root alone blank branch
  obtain ⟨hblank, -⟩ :=
    @preview_text root blank (.pipeline [.filter " "]) (by decide) (by decide)
  obtain ⟨hbranch, -⟩ := @preview_text root branch
    (.pipeline [.filter ".tags[]", .filter " ascii_downcase "]) (by decide) (by decide)
  obtain ⟨hfilter, hsame⟩ := @preview_text root (branch ++ [.index 1])
    (.node (.filter " ascii_downcase ")) (by decide) (by decide)
  exact ⟨hblank.trans (by decide +kernel), hbranch.trans (by decide +kernel),
    hfilter.trans (by decide +kernel), hsame alone _ (by decide) (by decide)⟩

end Pipeline

end FilterEditor
