import FilterEditor.Proofs.Fits
import FilterEditor.Proofs.ObjectKeys
import Mathlib.Algebra.BigOperators.Ring.Finset
import Mathlib.Data.Set.Card

/-!
# Counting nodes

`Pipeline.count` adds up numbers over a tree and knows nothing of paths.  It is the number of paths
that lead to a node (`Target.encard_nodePaths`), and each mutation changes it by what the mutation
says that it puts in or takes out, wherever in the tree that is (`Mutation.recounts`).

Both go by what stands right below a place, its `children`.  A path to a node is the empty path, if
the place is a node, or leads through one child, and children have selectors of their own as long as
keys are distinct.  The count is made in the same way (`Target.count_eq`).  For the changes, a write
far below changes the count at the top as it does at its own place (`Target.count_write`), so that
only the container is to be looked at, and there counts are sums over a list of which one element
comes, goes or is exchanged.
-/

namespace FilterEditor

/-! ## Sums over lists and entries that change in one place -/

section

variable {α : Type} {l : List α} {i : Nat} {a : α}

theorem sum_map_set (f : α → Nat) (h : l[i]? = some a) (b : α) :
    ((l.set i b).map f).sum + f a = (l.map f).sum + f b := by
  obtain ⟨hi, rfl⟩ := List.getElem?_eq_some_iff.mp h
  have hset := ((List.set_perm_cons_eraseIdx hi b).map f).sum_nat
  have hold := ((List.getElem_cons_eraseIdx_perm hi).map f).sum_nat
  simp only [List.map_cons, List.sum_cons] at hset hold
  omega

theorem sum_map_eraseIdx (f : α → Nat) (h : l[i]? = some a) :
    ((l.eraseIdx i).map f).sum + f a = (l.map f).sum := by
  obtain ⟨hi, rfl⟩ := List.getElem?_eq_some_iff.mp h
  have hold := ((List.getElem_cons_eraseIdx_perm hi).map f).sum_nat
  simp only [List.map_cons, List.sum_cons] at hold
  omega

theorem sum_map_insertAfter (f : α → Nat) (i : Nat) (a : α) (l : List α) :
    ((insertAfter i a l).map f).sum = (l.map f).sum + f a := by
  have hnew := ((List.perm_insertIdx a l (Nat.min_le_right (i + 1) l.length)).map f).sum_nat
  simp only [List.map_cons, List.sum_cons] at hnew
  rw [insertAfter, insertionPoint, hnew, Nat.add_comm]

end

namespace Entries

variable {α : Type} {entries : Entries α} {key : String} {value : α}

def total (f : α → Nat) (entries : Entries α) : Nat :=
  (entries.map fun e => f e.2).sum

theorem total_cons (f : α → Nat) (e : String × α) (rest : Entries α) :
    total f (e :: rest) = f e.2 + total f rest := by
  rw [total, List.map_cons, List.sum_cons, ← total]

theorem total_put (f : α → Nat) (key : String) (value : α) (entries : Entries α) :
    total f (put key value entries) + (get? key entries).elim 0 f = total f entries + f value := by
  induction entries with
  | nil => rw [put, get?, total_cons]; exact Nat.add_comm _ _
  | cons e rest ih =>
    obtain ⟨k, v⟩ := e
    rw [put, get?]
    split
    · simp only [total_cons, Option.elim_some]
      omega
    · simp only [total_cons]
      omega

theorem total_erase (f : α → Nat) (key : String) (entries : Entries α) :
    total f (erase key entries) + (get? key entries).elim 0 f = total f entries := by
  induction entries with
  | nil => rfl
  | cons e rest ih =>
    obtain ⟨k, v⟩ := e
    rw [erase, get?]
    split
    · simp only [total_cons, Option.elim_some]
      omega
    · simp only [total_cons]
      omega

theorem total_rename (f : α → Nat) (key newKey : String) (entries : Entries α) :
    total f (rename key newKey entries) = total f entries := by
  have htotal : ∀ es : Entries α, total f es = ((es.map Prod.snd).map f).sum := by
    intro es
    rw [total, List.map_map, Function.comp_def]
  rw [htotal, htotal, map_snd_rename]

theorem mem_iff_get? (h : (keys entries).Nodup) :
    (key, value) ∈ entries ↔ get? key entries = some value := by
  induction entries with
  | nil => simp [get?]
  | cons e rest ih =>
    obtain ⟨k, v⟩ := e
    obtain ⟨hk, hrest⟩ := List.nodup_cons.mp h
    rw [List.mem_cons, ih hrest, get?]
    split
    next heq =>
      subst heq
      have hnone : get? k rest = none := get?_eq_none_iff.mpr hk
      simp [hnone, eq_comm]
    next hne =>
      have hdiffer : (key, value) ≠ (k, v) := fun heq => hne (congrArg Prod.fst heq).symm
      simp [hdiffer]

end Entries

/-! ## Counts as sums -/

theorem Pipeline.count_eq_sum (p : Pipeline) : Pipeline.count p = (p.map Node.count).sum := by
  induction p with
  | nil => rfl
  | cons n rest ih => rw [Pipeline.count, ih, List.map_cons, List.sum_cons]

theorem Node.count_array (branches : List Pipeline) :
    (array branches).count = 1 + (branches.map Pipeline.count).sum := by
  rw [count]
  congr 1
  induction branches with
  | nil => rfl
  | cons p rest ih => rw [branchesCount, ih, List.map_cons, List.sum_cons]

theorem Node.count_object (entries : Entries Pipeline) :
    (object entries).count = 1 + Entries.total Pipeline.count entries := by
  rw [count]
  congr 1
  induction entries with
  | nil => rfl
  | cons e rest ih => rw [entriesCount, ih, Entries.total_cons]

theorem Kind.count_blankNode (kind : Kind) : kind.blankNode.count = 1 := by
  cases kind <;> rfl

namespace Target

variable {t u v : Target} {s : Selector} {path : Path}

def count : Target → Nat
  | node n => n.count
  | pipeline p => Pipeline.count p

/-! ## Children -/

/-- The elements of a list as places, each under the selector of its position. -/
def numbered {α : Type} (selector : Nat → Selector) (place : α → Target) (l : List α) :
    List (Selector × Target) :=
  l.zipIdx.map fun c => (selector c.2, place c.1)

/-- What stands right below a place, with the selectors that lead there. -/
def children : Target → List (Selector × Target)
  | pipeline p => numbered .index node p
  | node (.filter _) => []
  | node (.array branches) => numbered .branch pipeline branches
  | node (.object entries) => entries.map fun e => (.key e.1, pipeline e.2)

section

variable {α : Type} {selector : Nat → Selector} {place : α → Target} {l : List α}

theorem mem_numbered_iff :
    (s, u) ∈ numbered selector place l ↔ ∃ i a, l[i]? = some a ∧ selector i = s ∧ place a = u := by
  rw [numbered, List.mem_map]
  constructor
  · rintro ⟨⟨a, i⟩, hc, heq⟩
    obtain ⟨hs, hu⟩ := Prod.mk.inj heq
    exact ⟨i, a, List.mk_mem_zipIdx_iff_getElem?.mp hc, hs, hu⟩
  · rintro ⟨i, a, ha, rfl, rfl⟩
    exact ⟨(a, i), List.mk_mem_zipIdx_iff_getElem?.mpr ha, rfl⟩

theorem exists_mem_of_mem_numbered {c : Selector × Target} (h : c ∈ numbered selector place l) :
    ∃ a ∈ l, place a = c.2 := by
  obtain ⟨i, a, ha, -, hplace⟩ := mem_numbered_iff.mp h
  exact ⟨a, List.mem_of_getElem? ha, hplace⟩

theorem nodup_numbered (h : Function.Injective selector) :
    ((numbered selector place l).map Prod.fst).Nodup := by
  have hselectors : (numbered selector place l).map Prod.fst =
      (l.zipIdx.map Prod.snd).map selector := by
    rw [numbered, List.map_map, List.map_map, Function.comp_def, Function.comp_def]
  rw [hselectors, List.zipIdx_map_snd]
  exact (List.nodup_range').map h

theorem sum_count_numbered :
    ((numbered selector place l).map fun c => c.2.count).sum =
      (l.map fun a => (place a).count).sum := by
  have hplaces : (numbered selector place l).map (fun c => c.2.count) =
      (l.zipIdx.map Prod.fst).map fun a => (place a).count := by
    rw [numbered, List.map_map, List.map_map, Function.comp_def, Function.comp_def]
  rw [hplaces, List.zipIdx_map_fst]

end

/-- Induction over a place gives a hypothesis for each child. -/
theorem induction {motive : Target → Prop}
    (step : ∀ t : Target, (∀ c ∈ t.children, motive c.2) → motive t) (t : Target) : motive t := by
  have hpipeline : ∀ p : Pipeline, (∀ n ∈ p, motive (node n)) → motive (pipeline p) := by
    intro p hp
    refine step _ fun c hc => ?_
    obtain ⟨n, hn, hplace⟩ := exists_mem_of_mem_numbered hc
    exact hplace ▸ hp n hn
  have hnode : ∀ n, motive (node n) := by
    intro n
    induction n with
    | filter value => exact step _ nofun
    | array branches ih =>
      refine step _ fun c hc => ?_
      obtain ⟨p, hp, hplace⟩ := exists_mem_of_mem_numbered hc
      exact hplace ▸ hpipeline p (ih p hp)
    | object entries ih =>
      refine step _ fun c hc => ?_
      obtain ⟨e, he, rfl⟩ := List.mem_map.mp hc
      exact hpipeline e.2 (ih e he)
  cases t with
  | node n => exact hnode n
  | pipeline p => exact hpipeline p fun n _ => hnode n

/-- The children are what single steps lead to. -/
theorem mem_children_iff (ht : t.AllKeys List.Nodup) :
    (s, u) ∈ t.children ↔ t.step? s = some u := by
  rw [step?_eq_some_iff]
  cases t with
  | pipeline p =>
    rw [children, mem_numbered_iff]
    constructor
    · rintro ⟨i, n, hn, rfl, rfl⟩
      exact .index hn
    · rintro ⟨hn⟩
      exact ⟨_, _, hn, rfl, rfl⟩
  | node n =>
    cases n with
    | filter value => exact ⟨nofun, nofun⟩
    | array branches =>
      rw [children, mem_numbered_iff]
      constructor
      · rintro ⟨b, q, hq, rfl, rfl⟩
        exact .branch hq
      · rintro (_ | hq | _)
        exact ⟨_, _, hq, rfl, rfl⟩
    | object entries =>
      have hkeys := (allKeys_object.mp ht).1
      rw [children, List.mem_map]
      constructor
      · rintro ⟨⟨k, q⟩, he, heq⟩
        obtain ⟨rfl, rfl⟩ := Prod.mk.inj heq
        exact .key ((Entries.mem_iff_get? hkeys).mp he)
      · rintro (_ | _ | hq)
        exact ⟨(_, _), (Entries.mem_iff_get? hkeys).mpr hq, rfl⟩

theorem nodup_selectors (ht : t.AllKeys List.Nodup) : (t.children.map Prod.fst).Nodup := by
  cases t with
  | pipeline p => exact nodup_numbered fun _ _ => Selector.index.inj
  | node n =>
    cases n with
    | filter value => exact List.nodup_nil
    | array branches => exact nodup_numbered fun _ _ => Selector.branch.inj
    | object entries =>
      have hselectors : (children (node (.object entries))).map Prod.fst =
          (Entries.keys entries).map .key := by
        rw [children, Entries.keys, List.map_map, List.map_map, Function.comp_def,
          Function.comp_def]
      rw [hselectors]
      exact (allKeys_object.mp ht).1.map fun _ _ => Selector.key.inj

theorem count_eq (t : Target) :
    t.count = t.isNode.toNat + (t.children.map fun c => c.2.count).sum := by
  cases t with
  | pipeline p =>
    rw [children, sum_count_numbered, count, Pipeline.count_eq_sum]
    exact (Nat.zero_add _).symm
  | node n =>
    cases n with
    | filter value => rfl
    | array branches =>
      rw [children, sum_count_numbered, count, Node.count_array]
      rfl
    | object entries =>
      rw [children, List.map_map, count, Node.count_object]
      rfl

/-! ## Paths to nodes -/

def nodePaths (t : Target) : Set Path :=
  {path | ∃ n, t.walk? path = some (node n)}

/-- The paths that lead to a node through one of the children that are listed. -/
def pathsThrough (cs : List (Selector × Target)) : Set Path :=
  {path | ∃ c ∈ cs, ∃ rest ∈ c.2.nodePaths, c.1 :: rest = path}

theorem encard_pathsThrough {cs : List (Selector × Target)} (h : (cs.map Prod.fst).Nodup) :
    (pathsThrough cs).encard = (cs.map fun c => c.2.nodePaths.encard).sum := by
  induction cs with
  | nil => simp [pathsThrough]
  | cons c cs ih =>
    obtain ⟨hnew, hrest⟩ := List.nodup_cons.mp h
    have hsplit : pathsThrough (c :: cs) = (c.1 :: ·) '' c.2.nodePaths ∪ pathsThrough cs := by
      ext path
      simp [pathsThrough]
    have hapart : Disjoint ((c.1 :: ·) '' c.2.nodePaths) (pathsThrough cs) := by
      rw [Set.disjoint_left]
      rintro _ ⟨rest, -, rfl⟩ ⟨d, hd, rest', -, heq⟩
      rw [← (List.cons.inj heq).1] at hnew
      exact hnew (List.mem_map_of_mem hd)
    rw [hsplit, Set.encard_union_eq hapart, List.cons_injective.encard_image, ih hrest,
      List.map_cons, List.sum_cons]

theorem nodePaths_eq (ht : t.AllKeys List.Nodup) :
    t.nodePaths = {path | path = [] ∧ t.isNode} ∪ pathsThrough t.children := by
  ext path
  cases path with
  | nil => cases t <;> simp [nodePaths, pathsThrough, walk?, isNode]
  | cons s rest =>
    have hthrough : s :: rest ∈ pathsThrough t.children ↔
        ∃ u, t.step? s = some u ∧ rest ∈ u.nodePaths := by
      constructor
      · rintro ⟨⟨x, u⟩, hc, _, hrest, heq⟩
        obtain ⟨rfl, rfl⟩ := List.cons.inj heq
        exact ⟨u, (mem_children_iff ht).mp hc, hrest⟩
      · rintro ⟨u, hu, hrest⟩
        exact ⟨(s, u), (mem_children_iff ht).mpr hu, rest, hrest, rfl⟩
    rw [Set.mem_union, hthrough]
    simp only [nodePaths, Set.mem_ofPred_eq, walk?_cons_eq_some, reduceCtorEq, false_and, false_or]
    constructor
    · rintro ⟨n, u, hu, hn⟩
      exact ⟨u, hu, n, hn⟩
    · rintro ⟨u, hu, n, hn⟩
      exact ⟨n, u, hu, hn⟩

/-- **The count is the number of paths to nodes.** -/
theorem encard_nodePaths (ht : t.AllKeys List.Nodup) : t.nodePaths.encard = t.count := by
  induction t using Target.induction with
  | step t ih =>
    have hhere : {path : Path | path = [] ∧ t.isNode}.encard = (t.isNode.toNat : ℕ∞) := by
      cases t.isNode <;> simp
    have hapart : Disjoint {path : Path | path = [] ∧ t.isNode} (pathsThrough t.children) := by
      rw [Set.disjoint_left]
      rintro _ ⟨rfl, -⟩ ⟨c, -, rest, -, heq⟩
      cases heq
    have hbelow : t.children.map (fun c => c.2.nodePaths.encard) =
        t.children.map fun c => (c.2.count : ℕ∞) :=
      List.map_congr_left fun c hc => ih c hc (ht.step ((mem_children_iff ht).mp hc))
    rw [nodePaths_eq ht, Set.encard_union_eq hapart, hhere, encard_pathsThrough (nodup_selectors ht),
      hbelow, count_eq, Nat.cast_add, Nat.cast_list_sum, List.map_map]
    rfl

/-! ## Counts after a write -/

theorem count_put (h : t.step? s = some u) (hv : v.isNode = u.isNode) :
    (t.put s v).count + u.count = t.count + v.count := by
  cases step?_eq_some_iff.mp h with
  | @index p i n hn =>
    cases v with
    | pipeline q => cases hv
    | node m =>
      simp only [put, count, Pipeline.count_eq_sum]
      exact sum_map_set Node.count hn m
  | @branch branches b q hq =>
    cases v with
    | node n => cases hv
    | pipeline r =>
      have hsum := sum_map_set Pipeline.count hq r
      simp only [put, count, Node.count_array]
      omega
  | @key entries k q hq =>
    cases v with
    | node n => cases hv
    | pipeline r =>
      have htotal := Entries.total_put Pipeline.count k r entries
      rw [hq, Option.elim_some] at htotal
      simp only [put, count, Node.count_object]
      omega

/-- **A write changes the count of the whole as it does at its place.** -/
theorem count_write (h : t.walk? path = some u) (hv : v.isNode = u.isNode) :
    (t.write path v).count + u.count = t.count + v.count := by
  induction path generalizing t with
  | nil =>
    cases h
    exact Nat.add_comm _ _
  | cons s rest ih =>
    obtain ⟨w, hw, hrest⟩ := walk?_cons_eq_some.mp h
    have hput := count_put hw (isNode_write hrest hv)
    have hwrite := ih hrest
    rw [write_cons hw]
    omega

end Target

/-! ## Counts after a mutation -/

theorem Pipeline.node?_eq_some_iff {root : Pipeline} {path : Path} {n : Node} :
    root.node? path = some n ↔ root.resolve? path = some (.node n) := by
  refine ⟨walk?_of_node?, fun h => ?_⟩
  rw [node?, h]
  rfl

theorem Pipeline.pipeline?_concat_key {root : Pipeline} {path : Path} {entries : Entries Pipeline}
    (h : root.resolve? path = some (.node (.object entries))) (k : String) :
    root.pipeline? (path ++ [.key k]) = Entries.get? k entries := by
  rw [resolve?] at h
  rw [pipeline?, resolve?, Target.walk?_append, h, Option.bind_some, Target.walk?_cons,
    Target.step?]
  cases Entries.get? k entries <;> rfl

namespace Mutation

/-- How the count after a mutation is told from the count before it. -/
def Recounts (root root' : Pipeline) : Mutation → Prop
  | setFilterValue .. | appendBranch _ | renameProperty .. =>
    Pipeline.count root' = Pipeline.count root
  | insertSibling .. => Pipeline.count root' = Pipeline.count root + 1
  | removeNode path =>
    ∃ n, root.node? path = some n ∧ Pipeline.count root' + n.count = Pipeline.count root
  | removeBranch path =>
    ∃ p, root.pipeline? path = some p ∧
      Pipeline.count root' + Pipeline.count p = Pipeline.count root
  | addProperty path key =>
    Pipeline.count root' + (root.pipeline? (path ++ [.key key])).elim 0 Pipeline.count =
      Pipeline.count root + 1

variable {stem : String} {m : Mutation} {root root' : Pipeline}

/-- **A mutation changes the count by what it puts in and takes out.** -/
theorem recounts (h : m.applyWith stem root = .ok root') : m.Recounts root root' := by
  obtain ⟨u, u', hu, hacts, hw⟩ := applyWith_eq_ok_iff.mp h
  have hwrite := Target.count_write hu hacts.isNode_eq
  rw [hw] at hwrite
  cases hacts with
  | setFilterValue =>
    simp only [Target.count, Node.count] at hwrite
    exact Nat.add_right_cancel hwrite
  | @insertFront kind p =>
    simp only [Target.count, Pipeline.count, Kind.count_blankNode] at hwrite
    simp only [Recounts]
    omega
  | @insertNode path kind i p =>
    simp only [Target.count, Pipeline.count_eq_sum, sum_map_insertAfter, Kind.count_blankNode]
      at hwrite
    simp only [Recounts, Pipeline.count_eq_sum]
    omega
  | @insertBranch path kind b branches =>
    have hblank : Pipeline.count [kind.blankNode] = 1 := Kind.count_blankNode kind
    simp only [Target.count, Node.count_array, sum_map_insertAfter, hblank] at hwrite
    simp only [Recounts]
    omega
  | @insertEntry path kind k entries =>
    have hblank : Pipeline.count [kind.blankNode] = 1 := Kind.count_blankNode kind
    have hfree := Entries.get?_eq_none_iff.mpr (Entries.freshKey_not_mem entries stem)
    have htotal := Entries.total_put Pipeline.count (Entries.freshKey entries stem)
      [kind.blankNode] entries
    rw [hfree, Option.elim_none, hblank] at htotal
    simp only [Target.count, Node.count_object] at hwrite
    simp only [Recounts]
    omega
  | @appendBranch path branches =>
    simp only [Target.count, Node.count_array, List.map_append, List.map_cons, List.map_nil,
      List.sum_append, List.sum_cons, List.sum_nil, Pipeline.count] at hwrite
    simp only [Recounts]
    omega
  | @removeNode path i p hlast hi =>
    have hn : p[i]? = some p[i] := List.getElem?_eq_getElem hi
    have hsum := sum_map_eraseIdx Node.count hn
    obtain ⟨parent, rfl, hparent⟩ := Path.exists_parent hlast hu
    simp only [Target.count, Pipeline.count_eq_sum] at hwrite
    refine ⟨p[i], ?_, ?_⟩
    · exact Pipeline.node?_eq_some_iff.mpr (Pipeline.resolve?_concat hparent (.index hn))
    · simp only [Pipeline.count_eq_sum]
      omega
  | @removeItem path b branches hlast hb =>
    have hp : branches[b]? = some branches[b] := List.getElem?_eq_getElem hb
    have hsum := sum_map_eraseIdx Pipeline.count hp
    obtain ⟨parent, rfl, hparent⟩ := Path.exists_parent hlast hu
    simp only [Target.count, Node.count_array] at hwrite
    refine ⟨branches[b], ?_, ?_⟩
    · rw [Pipeline.pipeline?, Pipeline.resolve?_concat hparent (.branch hp)]
      rfl
    · omega
  | @removeEntry path k entries hlast hk =>
    obtain ⟨p, hp⟩ := Option.isSome_iff_exists.mp (Entries.get?_isSome_iff.mpr hk)
    have htotal := Entries.total_erase Pipeline.count k entries
    rw [hp, Option.elim_some] at htotal
    obtain ⟨parent, rfl, hparent⟩ := Path.exists_parent hlast hu
    simp only [Target.count, Node.count_object] at hwrite
    refine ⟨p, ?_, ?_⟩
    · rw [Pipeline.pipeline?_concat_key hparent, hp]
    · omega
  | @addProperty path key entries hkey =>
    have hold : root.pipeline? (path ++ [.key key]) = Entries.get? key entries :=
      Pipeline.pipeline?_concat_key hu key
    have hblank : Pipeline.count [.filter ""] = 1 := rfl
    have htotal := Entries.total_put Pipeline.count key [.filter ""] entries
    rw [hblank] at htotal
    simp only [Target.count, Node.count_object] at hwrite
    simp only [Recounts, hold]
    omega
  | @renameProperty path key newKey entries hlast hne hnew hk =>
    simp only [Target.count, Node.count_object, Entries.total_rename] at hwrite
    exact Nat.add_right_cancel hwrite

end Mutation

/-- **Counting nodes agrees with addressing them and with editing.**  Where keys do not repeat, a
tree has as many nodes as there are paths that lead to a node; and of every mutation that fits one
can say beforehand how the count changes. -/
theorem node_count_agrees {root : Pipeline} (hkeys : root.KeysDistinct) :
    {path | ∃ n, root.node? path = some n}.encard = Pipeline.count root ∧
      ∀ stem m root', Mutation.applyWith stem m root = .ok root' → m.Recounts root root' := by
  refine ⟨?_, fun stem m root' => Mutation.recounts⟩
  have hpaths : {path | ∃ n, root.node? path = some n} = (Target.pipeline root).nodePaths := by
    simp only [Pipeline.node?_eq_some_iff]
    rfl
  rw [hpaths]
  exact Target.encard_nodePaths hkeys

/-- A branch of three nodes is replaced by a blank filter, and a branch of two is taken out. -/
theorem node_count_agrees_nested :
    let root : Pipeline := [.filter ".", .object [("a", [.array [[.filter ".x", .filter ".y"], []]]),
      ("b", [.object []])], .array []]
    let replaced : Pipeline :=
      [.filter ".", .object [("a", [.filter ""]), ("b", [.object []])], .array []]
    let removed : Pipeline :=
      [.filter ".", .object [("a", [.array [[]]]), ("b", [.object []])], .array []]
    let inner : Path := [.index 1, .key "a"]
    root.KeysDistinct ∧ {path | ∃ n, root.node? path = some n}.encard = 7 ∧
      (Mutation.addProperty [.index 1] "a").apply root = .ok replaced ∧
      Pipeline.count replaced + 3 = 7 + 1 ∧
      (Mutation.removeBranch (inner ++ [.index 0, .branch 0])).apply root = .ok removed ∧
      ∃ p, root.pipeline? (inner ++ [.index 0, .branch 0]) = some p ∧
        Pipeline.count removed + Pipeline.count p = 7 := by
  intro root replaced removed inner
  have hkeys : root.KeysDistinct := by decide
  obtain ⟨hpaths, hrecounts⟩ := node_count_agrees hkeys
  have hreplaced : (Mutation.addProperty [.index 1] "a").apply root = .ok replaced := by decide
  have hremoved : (Mutation.removeBranch (inner ++ [.index 0, .branch 0])).apply root =
      .ok removed := by decide
  exact ⟨hkeys, hpaths, hreplaced, hrecounts _ _ _ hreplaced, hremoved, hrecounts _ _ _ hremoved⟩

end FilterEditor
