/-!
# JSON texts as trees

`Json` is what a JSON text says, before anyone asks what it means: the members of an object stand
in the order of the text, repeated names included, and a number is kept as it is spelled.

`depth` counts the brackets and braces that are open at once.
-/

namespace FilterEditor

abbrev Digit := Fin 10

/-- A number as JSON spells it.  The spelling of the whole part and of the exponent has no choice
but leading zeros and a plus sign in the exponent. -/
structure Numeral where
  /-- Whether a minus sign stands in front. -/
  negative : Bool
  /-- The digits before the point. -/
  whole : Nat
  /-- The digits after the point; without digits there is no point. -/
  fraction : List Digit
  /-- The power of ten, if one is written. -/
  exponent : Option Int
  deriving DecidableEq, Repr, Inhabited

/-- The natural numbers below `2 ^ 64` fit a machine word. -/
def Numeral.wordBound : Nat := 18446744073709551616

def Numeral.ofNat (n : Nat) : Numeral :=
  ⟨false, n, [], none⟩

def Numeral.ofInt (i : Int) : Numeral :=
  ⟨i < 0, i.natAbs, [], none⟩

/-- A JSON text, read. -/
inductive Json where
  | null
  | bool (b : Bool)
  | number (n : Numeral)
  | string (s : String)
  | array (items : List Json)
  | object (members : List (String × Json))
  deriving Repr, Inhabited

/-- Induction over a text gives a hypothesis for each item of an array and each member of an
object. -/
@[induction_eliminator]
theorem Json.induction {motive : Json → Prop} (null : motive .null)
    (bool : ∀ b, motive (.bool b)) (number : ∀ n, motive (.number n))
    (string : ∀ s, motive (.string s))
    (array : ∀ items : List Json, (∀ j ∈ items, motive j) → motive (.array items))
    (object : ∀ members : List (String × Json), (∀ m ∈ members, motive m.2) →
      motive (.object members))
    (j : Json) : motive j := by
  refine @Json.rec motive (fun items => ∀ j ∈ items, motive j)
    (fun members => ∀ m ∈ members, motive m.2) (fun m => motive m.2)
    null bool number string array object nofun ?_ nofun ?_ (fun _ _ h => h) j
  all_goals exact fun _ _ head tail => List.forall_mem_cons.mpr ⟨head, tail⟩

namespace Json

mutual

/-- The greatest number of brackets and braces that are open at once. -/
def depth : Json → Nat
  | .array items => depthOfItems items + 1
  | .object members => depthOfMembers members + 1
  | _ => 0

def depthOfItems : List Json → Nat
  | [] => 0
  | item :: rest => max item.depth (depthOfItems rest)

def depthOfMembers : List (String × Json) → Nat
  | [] => 0
  | (_, value) :: rest => max value.depth (depthOfMembers rest)

end

mutual

/-- Whether a property holds of every number in the text, at every depth. -/
def allNumbers (p : Numeral → Bool) : Json → Bool
  | .number n => p n
  | .array items => allNumbersOfItems p items
  | .object members => allNumbersOfMembers p members
  | _ => true

def allNumbersOfItems (p : Numeral → Bool) : List Json → Bool
  | [] => true
  | item :: rest => item.allNumbers p && allNumbersOfItems p rest

def allNumbersOfMembers (p : Numeral → Bool) : List (String × Json) → Bool
  | [] => true
  | (_, value) :: rest => value.allNumbers p && allNumbersOfMembers p rest

end

theorem depthOfItems_le_iff {items : List Json} {d : Nat} :
    depthOfItems items ≤ d ↔ ∀ j ∈ items, j.depth ≤ d := by
  induction items with
  | nil => simp [depthOfItems]
  | cons item rest ih => rw [depthOfItems, Nat.max_le, ih, List.forall_mem_cons]

theorem depthOfMembers_le_iff {members : List (String × Json)} {d : Nat} :
    depthOfMembers members ≤ d ↔ ∀ m ∈ members, m.2.depth ≤ d := by
  induction members with
  | nil => simp [depthOfMembers]
  | cons m rest ih => rw [depthOfMembers, Nat.max_le, ih, List.forall_mem_cons]

theorem depth_le_depthOfItems {items : List Json} {j : Json} (h : j ∈ items) :
    j.depth ≤ depthOfItems items :=
  depthOfItems_le_iff.mp (Nat.le_refl _) j h

theorem depth_le_depthOfMembers {members : List (String × Json)} {m : String × Json}
    (h : m ∈ members) : m.2.depth ≤ depthOfMembers members :=
  depthOfMembers_le_iff.mp (Nat.le_refl _) m h

theorem allNumbersOfItems_iff {p : Numeral → Bool} {items : List Json} :
    allNumbersOfItems p items ↔ ∀ j ∈ items, j.allNumbers p := by
  induction items with
  | nil => simp [allNumbersOfItems]
  | cons item rest ih => simp [allNumbersOfItems, ih]

theorem allNumbersOfMembers_iff {p : Numeral → Bool} {members : List (String × Json)} :
    allNumbersOfMembers p members ↔ ∀ m ∈ members, m.2.allNumbers p := by
  induction members with
  | nil => simp [allNumbersOfMembers]
  | cons m rest ih => simp [allNumbersOfMembers, ih]

def ofList {α : Type} (f : α → Json) (items : List α) : Json :=
  .array (items.map f)

def string? : Json → Option String
  | .string s => some s
  | _ => none

def items? : Json → Option (List Json)
  | .array items => some items
  | _ => none

def members? : Json → Option (List (String × Json))
  | .object members => some members
  | _ => none

end Json

end FilterEditor
