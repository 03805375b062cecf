import FilterEditor.Json.Basic

/-!
# Records in JSON

How the data of the library stand in JSON.  A record is an object with a member for each field, in
any order; members of other names are passed over, a field that stands twice is refused.  A record
may also be a list of its fields in their order.  A position is a plain natural number below
`2 ^ 64`.
-/

namespace FilterEditor.Json

def named (name : String) (members : List (String × Json)) : List Json :=
  members.filterMap fun m => if m.1 = name then some m.2 else none

/-- The value of the only member called `name`. -/
def required? (name : String) (members : List (String × Json)) : Option Json :=
  match named name members with
  | [j] => some j
  | _ => none

theorem mem_of_required? {name : String} {members : List (String × Json)} {j : Json}
    (h : required? name members = some j) : (name, j) ∈ members := by
  rw [required?] at h
  split at h
  next j' hnamed =>
    obtain rfl := Option.some.inj h
    have hmem : j' ∈ named name members := by rw [hnamed]; exact List.mem_singleton_self j'
    obtain ⟨m, hm, hvalue⟩ := List.mem_filterMap.mp hmem
    split at hvalue
    next hname =>
      rw [← hname, ← Option.some.inj hvalue]
      exact hm
    next => cases hvalue
  next => cases h

/-- The value of the member called `name`, which may be missing but not stand twice. -/
def optional? (name : String) (members : List (String × Json)) : Option (Option Json) :=
  match named name members with
  | [] => some none
  | [j] => some (some j)
  | _ => none

/-- The fields of a record, all of which are needed. -/
def fields? (names : List String) : Json → Option (List Json)
  | .object members => names.mapM fun name => required? name members
  | .array items => if items.length = names.length then some items else none
  | _ => none

/-- The fields of a record that may be missing; in a list those at the end. -/
def optionalFields? (names : List String) : Json → Option (List (Option Json))
  | .object members => names.mapM fun name => optional? name members
  | .array items =>
    if items.length ≤ names.length then
      some (items.map some ++ List.replicate (names.length - items.length) none)
    else none
  | _ => none

/-- What a field says, or what holds without it. -/
def readOr {α : Type} (fallback : α) (read? : Json → Option α) : Option Json → Option α
  | none => some fallback
  | some j => read? j

/-- A natural number below `2 ^ 64`, spelled without sign, point and exponent. -/
def natural? : Json → Option Nat
  | .number ⟨false, n, [], none⟩ => if n < Numeral.wordBound then some n else none
  | _ => none

def ofNat (n : Nat) : Json :=
  .number (.ofNat n)

end FilterEditor.Json
