import FilterEditor.Proofs.Rebase

/-!
# A rebased path leads to the same place

A mutation that is addressed to something inside a place changes that place, and to say how, it is
carried out once more on the place alone (`alone?`).  It finds the same container there and changes it
by the same rule (`alone?_eq`): a rule looks at the end of the path only, and the way to the container
gets shorter at its beginning.

Elsewhere a mutation leaves what it does not remove as it was.  `rebase_tracks` puts the two together.
-/

namespace FilterEditor

namespace Mutation

variable {stem : String} {m : Mutation} {u u' : Target}

/-! ## Inside a place -/

/-- Whether a mutation changes the very place that it is addressed to, and not the one around it. -/
def actsAtPath : Mutation → Bool
  | setFilterValue .. | appendBranch .. | addProperty .. => true
  | insertSibling .. | removeNode .. | removeBranch .. | renameProperty .. => false

/-- The mutation is addressed to something below the place at `s`, or changes that place itself. -/
def ActsInside (m : Mutation) (s : Path) : Prop :=
  (s <+: m.path ∧ s ≠ m.path) ∨ (s = m.path ∧ m.actsAtPath = true)

instance (m : Mutation) (s : Path) : Decidable (m.ActsInside s) :=
  inferInstanceAs (Decidable (_ ∨ _))

/-- The mutation takes out or replaces the place at `s`, or one above it. -/
def Removes (m : Mutation) (s : Path) : Prop :=
  match m with
  | removeNode path | removeBranch path => path <+: s
  | addProperty path key => path ++ [.key key] <+: s
  | _ => False

def withPath (m : Mutation) (path : Path) : Mutation :=
  match m with
  | setFilterValue _ value => setFilterValue path value
  | insertSibling _ kind => insertSibling path kind
  | appendBranch _ => appendBranch path
  | removeNode _ => removeNode path
  | removeBranch _ => removeBranch path
  | addProperty _ key => addProperty path key
  | renameProperty _ newKey => renameProperty path newKey

/-- What a mutation that acts inside the place at `s` makes of that place on its own.  A node is put
into a pipeline of its own for that. -/
def alone? (stem : String) (m : Mutation) (s : Path) : Target → Option Target
  | .node n =>
    match (m.withPath (.index 0 :: m.path.drop s.length)).applyWith stem [n] with
    | .ok (n' :: _) => some (.node n')
    | _ => none
  | .pipeline p =>
    match (m.withPath (m.path.drop s.length)).applyWith stem p with
    | .ok p' => some (.pipeline p')
    | .error _ => none

/-- Only what a rule says of the end of the path depends on the path. -/
theorem Acts.withPath {path : Path} (h : m.Acts stem u u')
    (hl : m.actsAtPath = false → path.getLast? = m.path.getLast?) :
    (m.withPath path).Acts stem u u' := by
  cases h with
  | setFilterValue => exact .setFilterValue
  | insertFront =>
    obtain rfl : path = [] := List.getLast?_eq_none_iff.mp (hl rfl)
    exact .insertFront
  | insertNode hlast => exact .insertNode ((hl rfl).trans hlast)
  | insertBranch hlast => exact .insertBranch ((hl rfl).trans hlast)
  | insertEntry hlast => exact .insertEntry ((hl rfl).trans hlast)
  | appendBranch => exact .appendBranch
  | removeNode hlast hi => exact .removeNode ((hl rfl).trans hlast) hi
  | removeItem hlast hb => exact .removeItem ((hl rfl).trans hlast) hb
  | removeEntry hlast hk => exact .removeEntry ((hl rfl).trans hlast) hk
  | addProperty hne => exact .addProperty hne
  | renameProperty hlast hne hnew hk => exact .renameProperty ((hl rfl).trans hlast) hne hnew hk

theorem container_eq (m : Mutation) :
    m.container = if m.actsAtPath then m.path else m.path.dropLast := by
  cases m <;> rfl

theorem container_withPath (m : Mutation) (path : Path) :
    (m.withPath path).container = if m.actsAtPath then path else path.dropLast := by
  cases m <;> rfl

variable {s q : Path} {t : Target}

theorem actsInside_iff (hs : s ≠ []) : m.ActsInside s ↔ s <+: m.container := by
  rw [ActsInside, container_eq]
  cases hm : m.actsAtPath with
  | true =>
    rw [if_pos rfl]
    constructor
    · rintro (⟨h, -⟩ | ⟨rfl, -⟩)
      · exact h
      · exact List.prefix_rfl
    · intro h
      by_cases heq : s = m.path
      · exact Or.inr ⟨heq, rfl⟩
      · exact Or.inl ⟨h, heq⟩
  | false =>
    rw [if_neg Bool.false_ne_true]
    rcases m.path.eq_nil_or_concat with hnil | ⟨parent, last, hlast⟩
    · rw [hnil]
      simp [hs]
    · rw [hlast, List.dropLast_concat, List.prefix_concat_iff]
      constructor
      · rintro (⟨rfl | h, hne⟩ | ⟨-, hfalse⟩)
        · exact absurd rfl hne
        · exact h
        · cases hfalse
      · intro h
        refine Or.inl ⟨Or.inr h, ?_⟩
        rintro rfl
        have hlen := h.length_le
        rw [List.length_append, List.length_singleton] at hlen
        omega

/-- The rest of the path below a place on the way to the container, which leads to the container
from any other place as well. -/
theorem exists_path_below (hs : s ≠ []) (hq : m.container = s ++ q) :
    ∃ r, m.path = s ++ r ∧ ∀ a, (m.withPath (a ++ r)).container = a ++ q ∧
      (m.actsAtPath = false → (a ++ r).getLast? = m.path.getLast?) := by
  rw [container_eq] at hq
  cases hm : m.actsAtPath with
  | true =>
    rw [hm, if_pos rfl] at hq
    refine ⟨q, hq, fun a => ⟨?_, fun hfalse => by cases hfalse⟩⟩
    rw [container_withPath, hm, if_pos rfl]
  | false =>
    rw [hm, if_neg Bool.false_ne_true] at hq
    rcases m.path.eq_nil_or_concat with hnil | ⟨parent, last, hlast⟩
    · rw [hnil, List.dropLast_nil] at hq
      exact absurd (List.append_eq_nil_iff.mp hq.symm).1 hs
    · rw [hlast, List.dropLast_concat] at hq
      refine ⟨q ++ [last], by rw [hlast, hq, List.append_assoc], fun a => ⟨?_, fun _ => ?_⟩⟩
      · rw [container_withPath, hm, if_neg Bool.false_ne_true, ← List.append_assoc,
          List.dropLast_concat]
      · rw [hlast, ← List.append_assoc, List.getLast?_concat, List.getLast?_concat]

theorem alone?_eq (hs : s ≠ []) (hq : m.container = s ++ q) (hu : t.walk? q = some u)
    (h : m.Acts stem u u') : m.alone? stem s t = some (t.write q u') := by
  obtain ⟨r, hr, hbelow⟩ := exists_path_below hs hq
  have hsort := Target.isNode_write hu h.isNode_eq
  have hdrop : m.path.drop s.length = r := by rw [hr, List.drop_left]
  cases t with
  | node n =>
    obtain ⟨hc, hl⟩ := hbelow [.index 0]
    obtain ⟨n', hw⟩ := Target.isNode_eq_true_iff.mp hsort
    have happly : (m.withPath ([.index 0] ++ r)).applyWith stem [n] = .ok [n'] := by
      refine applyWith_eq_ok_iff.mpr ⟨u, u', ?_, h.withPath hl, ?_⟩
      · rw [hc]
        exact hu
      · rw [hc]
        show (Target.pipeline [n]).put (.index 0) ((Target.node n).write q u') = _
        rw [hw]
        rfl
    rw [alone?, hdrop]
    show (match (m.withPath ([.index 0] ++ r)).applyWith stem [n] with
      | .ok (n' :: _) => some (Target.node n')
      | _ => none) = _
    rw [happly, hw]
  | pipeline p =>
    obtain ⟨hc, hl⟩ := hbelow []
    obtain ⟨p', hw⟩ := Target.isNode_eq_false_iff.mp hsort
    have happly : (m.withPath ([] ++ r)).applyWith stem p = .ok p' := by
      refine applyWith_eq_ok_iff.mpr ⟨u, u', ?_, h.withPath hl, ?_⟩
      · rw [hc]
        exact hu
      · rw [hc]
        exact hw
    rw [List.nil_append] at happly
    rw [alone?, hdrop, happly, hw]

/-! ## The main statement -/

/-- An applied mutation takes a place away exactly when it removes or replaces it. -/
theorem rebase_eq_none_iff (h : m.Acts stem u u') : m.rebase s = none ↔ m.Removes s := by
  cases h with
  | setFilterValue => simp [rebase, Removes]
  | insertFront => simp [rebase, Removes]
  | insertNode hl => simp [rebase, Removes, Path.split?, hl]
  | insertBranch hl => simp [rebase, Removes, Path.split?, hl]
  | insertEntry hl => simp [rebase, Removes, Path.split?, hl]
  | appendBranch => simp [rebase, Removes]
  | removeNode hl => simp [rebase, Removes, Path.split?, hl]
  | removeItem hl => simp [rebase, Removes, Path.split?, hl]
  | removeEntry hl => simp [rebase, Removes, Path.split?, hl]
  | addProperty => simp [rebase, Removes]
  | renameProperty hl =>
    simp only [rebase, Removes, Path.split?, hl, Option.map_some]
    split <;> simp

/-- **A rebased path leads to the same place.**  A place is gone exactly when the mutation removes
it.  Otherwise the rebased path leads to a place of the same sort: to the place itself, or, when the
mutation acts inside it, to what the mutation makes of it on its own. -/
theorem rebase_tracks {root root' : Pipeline} (happly : m.applyWith stem root = .ok root')
    (hs : s ≠ []) (ht : root.resolve? s = some t) :
    (m.rebase s = none ↔ m.Removes s) ∧
      ∀ p, m.rebase s = some p →
        ∃ t', root'.resolve? p = some t' ∧ t'.isNode = t.isNode ∧
          (¬ m.ActsInside s → t' = t) ∧ (m.ActsInside s → m.alone? stem s t = some t') := by
  obtain ⟨u, u', hu, hacts, hw⟩ := applyWith_eq_ok_iff.mp happly
  refine ⟨rebase_eq_none_iff hacts, fun p hp => ?_⟩
  rw [actsInside_iff hs]
  rw [Pipeline.resolve?] at hu ht
  rw [Pipeline.resolve?, ← hw]
  rcases hacts.walk?_rebase hu ht hp with ⟨hoff, hwalk⟩ | ⟨q, hq, hbelow, hwalk⟩
  · exact ⟨t, hwalk, rfl, fun _ => rfl, fun hon => absurd hon hoff⟩
  · refine ⟨t.write q u', hwalk, Target.isNode_write hbelow hacts.isNode_eq, fun hoff => ?_,
      fun _ => alone?_eq hs hq hbelow hacts⟩
    exact absurd ⟨q, hq.symm⟩ hoff

/-- A branch between two filters, to which a branch is added inside the place that is followed. -/
theorem rebase_tracks_inside :
    let root : Pipeline := [.filter ".", .object [("a", [.filter ".x", .array [[]]])], .filter ".y"]
    let root' : Pipeline :=
      [.filter ".", .object [("a", [.filter ".x", .array [[], []]])], .filter ".y"]
    let m := appendBranch [.index 1, .key "a", .index 1]
    let s : Path := [.index 1, .key "a"]
    let t := Target.pipeline [.filter ".x", .array [[]]]
    m.applyWith "key" root = .ok root' ∧ s ≠ [] ∧ root.resolve? s = some t ∧ m.ActsInside s ∧
      ∃ t', root'.resolve? s = some t' ∧ m.alone? "key" s t = some t' := by
  intro root root' m s t
  have happly : m.applyWith "key" root = .ok root' := rfl
  have hs : s ≠ [] := by decide
  have ht : root.resolve? s = some t := by decide
  have hinside : m.ActsInside s := by decide
  obtain ⟨-, hmoved⟩ := rebase_tracks happly hs ht
  obtain ⟨t', hresolve, -, -, halone⟩ := hmoved s rfl
  exact ⟨happly, hs, ht, hinside, t', hresolve, halone hinside⟩

end Mutation

end FilterEditor
