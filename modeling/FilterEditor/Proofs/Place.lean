import FilterEditor.Tree.Place

/-!
# Writing at a place

`Target.walk?` reads along a path, and the two functions of `Edit` rebuild the tree along one.  This
file ties them together.  `Target.write` puts a new place at the end of a path, and an edit that
succeeds is a read, a change of what was read, and a write (`Edit.pipeline_eq_ok_iff`).  What a write
does to later reads is said here once:

* `walk?_write_append`: at and below the path, one reads what was written;
* `walk?_write_apart`: off the path, one reads what was there;
* `write_append`: above the path, a write is a write of the place as it is after a shorter write;
* `write_self`: writing what was read changes nothing;
* `write_write`: of two writes at one path the later one counts;
* `write_comm`: writes at two paths apart from each other commute.

A write keeps the sort of the place, a node or a pipeline.  The laws ask for it (`isNode`), for a
pipeline under the selector of a node would leave the tree as it is.
-/

namespace FilterEditor

namespace Target

def isNode : Target → Bool
  | node _ => true
  | pipeline _ => false

/-- The place with another child under a selector.  A child of the wrong sort changes nothing. -/
def put : Target → Selector → Target → Target
  | pipeline p, .index i, node n => pipeline (p.set i n)
  | node (.array branches), .branch b, pipeline q => node (.array (branches.set b q))
  | node (.object entries), .key k, pipeline q => node (.object (Entries.put k q entries))
  | t, _, _ => t

/-- The place with another one at the end of a path; a path that leads nowhere changes nothing. -/
def write : Target → Path → Target → Target
  | _, [], new => new
  | t, s :: rest, new =>
    match t.step? s with
    | none => t
    | some u => t.put s (write u rest new)

variable {t u v : Target} {s x : Selector} {p q : Path}

theorem isNode_eq_true_iff : t.isNode = true ↔ ∃ n, t = node n := by
  cases t <;> simp [isNode]

theorem isNode_eq_false_iff : t.isNode = false ↔ ∃ p, t = pipeline p := by
  cases t <;> simp [isNode]

/-! ## One step -/

/-- The second place stands under the selector in the first. -/
inductive Child : Target → Selector → Target → Prop
  | index {p : Pipeline} {i : Nat} {n : Node} :
      p[i]? = some n → Child (pipeline p) (.index i) (node n)
  | branch {branches : List Pipeline} {b : Nat} {q : Pipeline} :
      branches[b]? = some q → Child (node (.array branches)) (.branch b) (pipeline q)
  | key {entries : Entries Pipeline} {k : String} {q : Pipeline} :
      Entries.get? k entries = some q → Child (node (.object entries)) (.key k) (pipeline q)

theorem step?_eq_some_iff : t.step? s = some u ↔ Child t s u := by
  constructor
  · intro h
    unfold step? at h
    split at h
    · obtain ⟨n, hn, rfl⟩ := Option.map_eq_some_iff.mp h
      exact .index hn
    · obtain ⟨q, hq, rfl⟩ := Option.map_eq_some_iff.mp h
      exact .branch hq
    · obtain ⟨q, hq, rfl⟩ := Option.map_eq_some_iff.mp h
      exact .key hq
    · cases h
  · intro h
    cases h with
    | index hn => simp [step?, hn]
    | branch hq => simp [step?, hq]
    | key hq => simp [step?, hq]

theorem Child.isNode_eq (h : Child t s u) : t.isNode = s.isBranch ∧ u.isNode = !s.isBranch := by
  cases h with
  | index => exact ⟨rfl, rfl⟩
  | branch => exact ⟨rfl, rfl⟩
  | key => exact ⟨rfl, rfl⟩

theorem isNode_put (t : Target) (s : Selector) (v : Target) : (t.put s v).isNode = t.isNode := by
  unfold put
  split <;> rfl

theorem step?_put_self (h : t.step? s = some u) (hv : v.isNode = u.isNode) :
    (t.put s v).step? s = some v := by
  cases step?_eq_some_iff.mp h with
  | index hn =>
    cases v with
    | node n => simp [put, step?, (List.getElem?_eq_some_iff.mp hn).1]
    | pipeline q => cases hv
  | branch hq =>
    cases v with
    | node n => cases hv
    | pipeline q => simp [put, step?, (List.getElem?_eq_some_iff.mp hq).1]
  | key hq =>
    cases v with
    | node n => cases hv
    | pipeline q => simp [put, step?, Entries.get?_put]

theorem step?_put_of_ne (h : s ≠ x) : (t.put s v).step? x = t.step? x := by
  unfold put
  split
  · cases x with
    | index j => simp [step?, List.getElem?_set_ne (fun hij => h (congrArg Selector.index hij))]
    | branch b => rfl
    | key k => rfl
  · cases x with
    | index i => rfl
    | branch c => simp [step?, List.getElem?_set_ne (fun hbc => h (congrArg Selector.branch hbc))]
    | key k => rfl
  · cases x with
    | index i => rfl
    | branch b => rfl
    | key l =>
      have hkl : ¬_ = l := fun hkl => h (congrArg Selector.key hkl)
      simp [step?, Entries.get?_put, hkl]
  · rfl

theorem put_self (h : t.step? s = some u) : t.put s u = t := by
  cases step?_eq_some_iff.mp h with
  | index hn =>
    obtain ⟨hi, rfl⟩ := List.getElem?_eq_some_iff.mp hn
    rw [put, List.set_getElem_self hi]
  | branch hq =>
    obtain ⟨hb, rfl⟩ := List.getElem?_eq_some_iff.mp hq
    rw [put, List.set_getElem_self hb]
  | key hq => rw [put, Entries.put_of_get? hq]

/-! ## Whole paths -/

@[simp] theorem walk?_cons (t : Target) (s : Selector) (p : Path) :
    t.walk? (s :: p) = (t.step? s).bind fun u => u.walk? p := rfl

theorem walk?_cons_eq_some : t.walk? (s :: p) = some v ↔ ∃ u, t.step? s = some u ∧ u.walk? p = some v := by
  rw [walk?_cons, Option.bind_eq_some_iff]

theorem write_cons (h : t.step? s = some u) (p : Path) (v : Target) :
    t.write (s :: p) v = t.put s (u.write p v) := by
  rw [write, h]

theorem isNode_write (h : t.walk? p = some u) (hv : v.isNode = u.isNode) :
    (t.write p v).isNode = t.isNode := by
  cases p with
  | nil =>
    cases h
    exact hv
  | cons s rest =>
    obtain ⟨w, hw, -⟩ := walk?_cons_eq_some.mp h
    rw [write_cons hw, isNode_put]

theorem exists_write_eq_pipeline {root : Pipeline} (h : (pipeline root).walk? p = some u)
    (hv : v.isNode = u.isNode) : ∃ root', (pipeline root).write p v = pipeline root' := by
  have hsort : ((pipeline root).write p v).isNode = false := isNode_write h hv
  exact isNode_eq_false_iff.mp hsort

/-- **At and below the path**, one reads what was written. -/
theorem walk?_write_append (h : t.walk? p = some u) (hv : v.isNode = u.isNode) (q : Path) :
    (t.write p v).walk? (p ++ q) = v.walk? q := by
  induction p generalizing t with
  | nil => rfl
  | cons s rest ih =>
    obtain ⟨w, hw, hrest⟩ := walk?_cons_eq_some.mp h
    rw [write_cons hw, List.cons_append, walk?_cons, step?_put_self hw (isNode_write hrest hv)]
    exact ih hrest

theorem walk?_write_self (h : t.walk? p = some u) (hv : v.isNode = u.isNode) :
    (t.write p v).walk? p = some v := by
  have hself := walk?_write_append h hv []
  rwa [List.append_nil] at hself

/-- **Off the path**, one reads what was there. -/
theorem walk?_write_apart (h : t.walk? p = some u) (hv : v.isNode = u.isNode)
    (hpq : ¬ p <+: q) (hqp : ¬ q <+: p) : (t.write p v).walk? q = t.walk? q := by
  induction p generalizing t q with
  | nil => exact absurd List.nil_prefix hpq
  | cons s rest ih =>
    cases q with
    | nil => exact absurd List.nil_prefix hqp
    | cons x q =>
      obtain ⟨w, hw, hrest⟩ := walk?_cons_eq_some.mp h
      rw [write_cons hw, walk?_cons, walk?_cons]
      by_cases hx : s = x
      · subst hx
        rw [List.cons_prefix_cons] at hpq hqp
        rw [step?_put_self hw (isNode_write hrest hv), hw]
        exact ih hrest (fun hp => hpq ⟨rfl, hp⟩) (fun hq => hqp ⟨rfl, hq⟩)
      · rw [step?_put_of_ne hx]

theorem write_self (h : t.walk? p = some u) : t.write p u = t := by
  induction p generalizing t with
  | nil =>
    cases h
    rfl
  | cons s rest ih =>
    obtain ⟨w, hw, hrest⟩ := walk?_cons_eq_some.mp h
    rw [write_cons hw, ih hrest, put_self hw]

/-- **Above the path**, a write is the write of a place in which something was written. -/
theorem write_append (h : t.walk? p = some u) (q : Path) (v : Target) :
    t.write (p ++ q) v = t.write p (u.write q v) := by
  induction p generalizing t with
  | nil =>
    cases h
    rfl
  | cons s rest ih =>
    obtain ⟨w, hw, hrest⟩ := walk?_cons_eq_some.mp h
    rw [List.cons_append, write_cons hw, write_cons hw, ih hrest]

/-! ## Two writes -/

theorem put_put {w : Target} (h : t.step? s = some u) (hv : v.isNode = u.isNode)
    (hw : w.isNode = u.isNode) : (t.put s v).put s w = t.put s w := by
  cases step?_eq_some_iff.mp h with
  | index hn =>
    cases v with
    | pipeline q => cases hv
    | node n =>
      cases w with
      | pipeline q => cases hw
      | node n' => simp [put]
  | branch hq =>
    cases v with
    | node n => cases hv
    | pipeline q =>
      cases w with
      | node n => cases hw
      | pipeline q' => simp [put]
  | key hq =>
    cases v with
    | node n => cases hv
    | pipeline q =>
      cases w with
      | node n => cases hw
      | pipeline q' => simp [put, Entries.put_put]

theorem put_comm {u' : Target} (hne : s ≠ x) (hs : t.step? s = some u) (hx : t.step? x = some u')
    (v v' : Target) : (t.put s v).put x v' = (t.put x v').put s v := by
  cases step?_eq_some_iff.mp hs with
  | @index p i n hn =>
    cases step?_eq_some_iff.mp hx with
    | @index _ j m hm =>
      have hij : i ≠ j := fun heq => hne (congrArg Selector.index heq)
      cases v <;> cases v' <;> simp [put, List.set_comm _ _ hij]
  | @branch branches b q hq =>
    cases step?_eq_some_iff.mp hx with
    | @branch _ c r hr =>
      have hbc : b ≠ c := fun heq => hne (congrArg Selector.branch heq)
      cases v <;> cases v' <;> simp [put, List.set_comm _ _ hbc]
  | @key entries k q hq =>
    cases step?_eq_some_iff.mp hx with
    | @key _ l r hr =>
      have hkl : k ≠ l := fun heq => hne (congrArg Selector.key heq)
      have hk : k ∈ Entries.keys entries := Entries.mem_keys_of_get? hq
      cases v <;> cases v' <;> simp [put, Entries.put_comm hkl hk]

theorem write_write {w : Target} (h : t.walk? p = some u) (hv : v.isNode = u.isNode)
    (hw : w.isNode = u.isNode) : (t.write p v).write p w = t.write p w := by
  induction p generalizing t with
  | nil => rfl
  | cons s rest ih =>
    obtain ⟨z, hz, hrest⟩ := walk?_cons_eq_some.mp h
    rw [write_cons hz, write_cons hz, write_cons (step?_put_self hz (isNode_write hrest hv)),
      ih hrest, put_put hz (isNode_write hrest hv) (isNode_write hrest hw)]

theorem write_comm {u' v' : Target} (hp : t.walk? p = some u) (hq : t.walk? q = some u')
    (hv : v.isNode = u.isNode) (hv' : v'.isNode = u'.isNode) (hpq : ¬ p <+: q) (hqp : ¬ q <+: p) :
    (t.write p v).write q v' = (t.write q v').write p v := by
  induction p generalizing t q with
  | nil => exact absurd List.nil_prefix hpq
  | cons s rest ih =>
    cases q with
    | nil => exact absurd List.nil_prefix hqp
    | cons x q =>
      obtain ⟨z, hz, hrest⟩ := walk?_cons_eq_some.mp hp
      obtain ⟨z', hz', hrest'⟩ := walk?_cons_eq_some.mp hq
      rw [write_cons hz, write_cons hz']
      by_cases hx : s = x
      · subst hx
        obtain rfl : z = z' := Option.some.inj (hz.symm.trans hz')
        rw [List.cons_prefix_cons] at hpq hqp
        replace hpq : ¬ rest <+: q := fun h => hpq ⟨rfl, h⟩
        replace hqp : ¬ q <+: rest := fun h => hqp ⟨rfl, h⟩
        have hsort : (z.write rest v).isNode = z.isNode := isNode_write hrest hv
        have hsort' : (z.write q v').isNode = z.isNode := isNode_write hrest' hv'
        have hkept : (z.write q v').walk? rest = some u :=
          (walk?_write_apart hrest' hv' hqp hpq).trans hrest
        have hboth : ((z.write q v').write rest v).isNode = z.isNode :=
          (isNode_write hkept hv).trans hsort'
        rw [write_cons (step?_put_self hz hsort), write_cons (step?_put_self hz hsort'),
          ih hrest hrest' hpq hqp, put_put hz hsort hboth, put_put hz hsort' hboth]
      · rw [write_cons ((step?_put_of_ne hx).trans hz'),
          write_cons ((step?_put_of_ne (Ne.symm hx)).trans hz), put_comm hx hz hz']

end Target

namespace Pipeline

variable {root : Pipeline} {path : Path} {x : Selector} {u v : Target}

theorem resolve?_concat_eq_some_iff :
    root.resolve? (path ++ [x]) = some v ↔ ∃ u, root.resolve? path = some u ∧ u.Child x v := by
  rw [resolve?, Target.walk?_append, Option.bind_eq_some_iff]
  refine exists_congr fun u => and_congr_right fun _ => ?_
  rw [Target.walk?_cons_eq_some, ← Target.step?_eq_some_iff]
  constructor
  · rintro ⟨w, hw, hnil⟩
    cases hnil
    exact hw
  · exact fun h => ⟨v, h, rfl⟩

theorem resolve?_concat (hu : root.resolve? path = some u) (h : u.Child x v) :
    root.resolve? (path ++ [x]) = some v :=
  resolve?_concat_eq_some_iff.mpr ⟨u, hu, h⟩

end Pipeline

/-! ## Edits as writes -/

namespace Edit

variable {ε : Type} {e : Edit ε} {t t' u u' : Target} {s : Selector} {p : Path}

def onTarget (e : Edit ε) : Target → Except ε Target
  | .node n => (e.onNode n).map .node
  | .pipeline p => (e.onPipeline p).map .pipeline

def target (e : Edit ε) (path : Path) : Target → Except ε Target
  | .node n => (e.node path n).map .node
  | .pipeline p => (e.pipeline path p).map .pipeline

theorem target_nil (e : Edit ε) (t : Target) : e.target [] t = e.onTarget t := by
  cases t <;> rfl

theorem target_cons (e : Edit ε) (s : Selector) (p : Path) (t : Target) :
    e.target (s :: p) t =
      match t.step? s with
      | none => .error e.missing
      | some u => (e.target p u).map fun v => t.put s v := by
  cases t with
  | pipeline q =>
    cases s with
    | index i =>
      simp only [target, pipeline, Target.step?]
      cases q[i]? with
      | none => rfl
      | some n =>
        simp only [Option.map_some]
        cases e.node p n <;> rfl
    | branch b => rfl
    | key k => rfl
  | node n =>
    cases n with
    | filter value => cases s <;> rfl
    | array branches =>
      cases s with
      | index i => rfl
      | branch b =>
        simp only [target, node, Target.step?]
        cases branches[b]? with
        | none => rfl
        | some q =>
          simp only [Option.map_some]
          cases e.pipeline p q <;> rfl
      | key k => rfl
    | object entries =>
      cases s with
      | index i => rfl
      | branch b => rfl
      | key k =>
        simp only [target, node, Target.step?]
        cases Entries.get? k entries with
        | none => rfl
        | some q =>
          simp only [Option.map_some]
          cases e.pipeline p q <;> rfl

theorem map_eq_ok_iff {α β : Type} {f : α → β} {a : Except ε α} {b : β} :
    a.map f = .ok b ↔ ∃ c, a = .ok c ∧ f c = b := by
  cases a <;> simp [Except.map]

/-- **An edit is a read, a change and a write.** -/
theorem target_eq_ok_iff : e.target p t = .ok t' ↔
    ∃ u u', t.walk? p = some u ∧ e.onTarget u = .ok u' ∧ t.write p u' = t' := by
  induction p generalizing t t' with
  | nil =>
    rw [target_nil]
    constructor
    · intro h
      exact ⟨t, t', rfl, h, rfl⟩
    · rintro ⟨u, u', hu, h, rfl⟩
      cases hu
      exact h
  | cons s rest ih =>
    rw [target_cons, Target.walk?_cons]
    cases hs : t.step? s with
    | none => simp
    | some w =>
      rw [map_eq_ok_iff]
      constructor
      · rintro ⟨w', hw', rfl⟩
        obtain ⟨u, u', hu, he, rfl⟩ := ih.mp hw'
        exact ⟨u, u', hu, he, Target.write_cons hs rest u'⟩
      · rintro ⟨u, u', hu, he, rfl⟩
        exact ⟨w.write rest u', ih.mpr ⟨u, u', hu, he, rfl⟩, (Target.write_cons hs rest u').symm⟩

theorem pipeline_eq_ok_iff {root root' : Pipeline} : e.pipeline p root = .ok root' ↔
    ∃ u u', root.resolve? p = some u ∧ e.onTarget u = .ok u' ∧
      (Target.pipeline root).write p u' = .pipeline root' := by
  have h : e.pipeline p root = .ok root' ↔ e.target p (.pipeline root) = .ok (.pipeline root') := by
    rw [target, map_eq_ok_iff]
    simp
  rw [h]
  exact target_eq_ok_iff

end Edit

end FilterEditor
