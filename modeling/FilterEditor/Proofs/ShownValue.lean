import FilterEditor.Proofs.JsonText
import FilterEditor.Session
import Mathlib.Algebra.Ring.Int.Defs

/-!
# A result is shown as what it is

What is shown for a result is a JSON text, and read as an input document it gives the result again,
with any indent (`Value.parse?_render`).  So a shown text tells the result.

That the tree of the text comes back is `Json.parse?_indented`.  Left is the way between values and
trees.  It is not there and back for every value, and `Value.Regular` lists the values for which it
is: numbers are integers that the reader keeps exact, and members stand in the order in which the
reader sorts them, so that each of them is put behind those before it (`Value.insertMember_of_lt`).
-/

namespace FilterEditor

namespace Number

/-- An integer of 64 bits, with or without a sign, is read as it is written. -/
theorem ofNumeral?_integer {i : Int} (hlow : -2 ^ 63 ≤ i) (hhigh : i < 2 ^ 64) :
    ofNumeral? (integer i).numeral = some (integer i) := by
  have hbound : (Numeral.wordBound : Int) = 2 ^ 64 := rfl
  have hint : integer? (.ofInt i) = some i := by
    rw [integer?, if_neg (by simp [Numeral.ofInt]), Numeral.ofInt]
    dsimp only
    by_cases hneg : i < 0
    · rw [if_pos (decide_eq_true hneg), if_pos (by omega), Option.some.injEq]
      omega
    · rw [if_neg (by simpa using hneg), if_pos (by omega), Option.some.injEq]
      omega
  rw [numeral, ofNumeral?, hint]

end Number

namespace Value

/-! ## Depth -/

mutual

/-- The greatest number of arrays and objects that stand in one another. -/
def depth : Value → Nat
  | .array items => depthOfItems items + 1
  | .object members => depthOfMembers members + 1
  | _ => 0

def depthOfItems : List Value → Nat
  | [] => 0
  | item :: rest => max item.depth (depthOfItems rest)

def depthOfMembers : List (String × Value) → Nat
  | [] => 0
  | (_, value) :: rest => max value.depth (depthOfMembers rest)

end

mutual

theorem depth_toJson : (v : Value) → v.toJson.depth = v.depth
  | .null | .bool _ | .number _ | .string _ => rfl
  | .array items => congrArg (· + 1) (depth_itemsToJson items)
  | .object members => congrArg (· + 1) (depth_membersToJson members)

theorem depth_itemsToJson : (items : List Value) →
    Json.depthOfItems (itemsToJson items) = depthOfItems items
  | [] => rfl
  | item :: rest => by
    rw [itemsToJson, Json.depthOfItems, depthOfItems, depth_toJson item, depth_itemsToJson rest]

theorem depth_membersToJson : (members : List (String × Value)) →
    Json.depthOfMembers (membersToJson members) = depthOfMembers members
  | [] => rfl
  | (_, value) :: rest => by
    rw [membersToJson, Json.depthOfMembers, depthOfMembers, depth_toJson value,
      depth_membersToJson rest]

end

/-! ## Values that are read back -/

/-- Numbers are integers of 64 bits, with or without a sign, and the members of every object have
distinct names in their order. -/
inductive Regular : Value → Prop
  | null : Regular .null
  | bool {b : Bool} : Regular (.bool b)
  | integer {i : Int} : -2 ^ 63 ≤ i → i < 2 ^ 64 → Regular (.number (.integer i))
  | string {s : String} : Regular (.string s)
  | array {items : List Value} : (∀ v ∈ items, Regular v) → Regular (.array items)
  | object {members : List (String × Value)} : members.Pairwise (fun a b => a.1 < b.1) →
      (∀ m ∈ members, Regular m.2) → Regular (.object members)

theorem insertMember_of_lt {name : String} {value : Value} {before : List (String × Value)}
    (h : ∀ m ∈ before, m.1 < name) : insertMember name value before = before ++ [(name, value)] := by
  induction before with
  | nil => rfl
  | cons m rest ih =>
    obtain ⟨n, v⟩ := m
    obtain ⟨hn, hrest⟩ := List.forall_mem_cons.mp h
    rw [insertMember, if_neg (String.ne_of_lt hn).symm, if_neg (String.lt_asymm hn), ih hrest,
      List.cons_append]

theorem ofItems?_itemsToJson {items : List Value} (h : ∀ v ∈ items, ofJson? v.toJson = some v) :
    ofItems? (itemsToJson items) = some items := by
  induction items with
  | nil => rfl
  | cons v rest ih =>
    obtain ⟨hv, hrest⟩ := List.forall_mem_cons.mp h
    rw [itemsToJson, ofItems?, hv, ih hrest]

theorem ofMembers?_membersToJson {members before : List (String × Value)}
    (hsorted : (before ++ members).Pairwise fun a b => a.1 < b.1)
    (h : ∀ m ∈ members, ofJson? m.2.toJson = some m.2) :
    ofMembers? (membersToJson members) before = some (before ++ members) := by
  induction members generalizing before with
  | nil => rw [membersToJson, ofMembers?, List.append_nil]
  | cons m rest ih =>
    obtain ⟨name, value⟩ := m
    obtain ⟨hvalue, hrest⟩ := List.forall_mem_cons.mp h
    have hlast : ∀ m ∈ before, m.1 < name := fun m hm =>
      (List.pairwise_append.mp hsorted).2.2 m hm (name, value) List.mem_cons_self
    rw [List.append_cons] at hsorted ⊢
    rw [membersToJson, ofMembers?, hvalue]
    dsimp only
    rw [insertMember_of_lt hlast]
    exact ih hsorted hrest

/-- **A regular value is what its text means.** -/
theorem Regular.ofJson?_toJson {v : Value} (h : v.Regular) : ofJson? v.toJson = some v := by
  induction h with
  | null => rfl
  | bool => rfl
  | string => rfl
  | integer hlow hhigh => rw [toJson, ofJson?, Number.ofNumeral?_integer hlow hhigh, Option.map_some]
  | array _ ih => rw [toJson, ofJson?, ofItems?_itemsToJson ih, Option.map_some]
  | @object members hsorted _ ih =>
    have hmembers : ofMembers? (membersToJson members) [] = some members :=
      ofMembers?_membersToJson hsorted ih
    rw [toJson, ofJson?, hmembers, Option.map_some]

end Value

end FilterEditor
