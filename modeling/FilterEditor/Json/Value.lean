import FilterEditor.Json.Number
import FilterEditor.Json.Parser
import FilterEditor.Json.Printer

/-!
# JSON values

A value is what a JSON text means: the members of an object have no order and no repeated name, so
they are kept sorted by name, and of members with one name the last one counts.

`Value.parse?` reads a text and `Value.render` shows a value, an item to a line.
-/

namespace FilterEditor

inductive Value where
  | null
  | bool (b : Bool)
  | number (n : Number)
  | string (s : String)
  | array (items : List Value)
  | object (members : List (String × Value))
  deriving Repr, Inhabited

namespace Value

/-- Put a member at its place among sorted ones, over a member of the same name. -/
def insertMember (name : String) (value : Value) :
    List (String × Value) → List (String × Value)
  | [] => [(name, value)]
  | (n, v) :: rest =>
    if name = n then (name, value) :: rest
    else if name < n then (name, value) :: (n, v) :: rest
    else (n, v) :: insertMember name value rest

mutual

/-- The value that a text means; nothing if a number of it is too great. -/
def ofJson? : Json → Option Value
  | .null => some .null
  | .bool b => some (.bool b)
  | .number n => (Number.ofNumeral? n).map .number
  | .string s => some (.string s)
  | .array items => (ofItems? items).map .array
  | .object members => (ofMembers? members []).map .object

def ofItems? : List Json → Option (List Value)
  | [] => some []
  | item :: rest =>
    match ofJson? item, ofItems? rest with
    | some v, some vs => some (v :: vs)
    | _, _ => none

/-- The members of an object put among the sorted ones that came before. -/
def ofMembers? : List (String × Json) → List (String × Value) → Option (List (String × Value))
  | [], before => some before
  | (name, j) :: rest, before =>
    match ofJson? j with
    | some v => ofMembers? rest (insertMember name v before)
    | none => none

end

mutual

def toJson : Value → Json
  | .null => .null
  | .bool b => .bool b
  | .number n => .number n.numeral
  | .string s => .string s
  | .array items => .array (itemsToJson items)
  | .object members => .object (membersToJson members)

def itemsToJson : List Value → List Json
  | [] => []
  | v :: rest => v.toJson :: itemsToJson rest

def membersToJson : List (String × Value) → List (String × Json)
  | [] => []
  | (name, v) :: rest => (name, v.toJson) :: membersToJson rest

end

/-- The value of a JSON text that nests at most `Json.maxDepth` deep. -/
def parse? (text : String) : Option Value :=
  (Json.parseBounded? text).bind ofJson?

def compact (v : Value) : String :=
  v.toJson.compact

def render (indent : Nat) (v : Value) : String :=
  v.toJson.indented indent

def member? (name : String) : Value → Option Value
  | .object members => members.lookup name
  | _ => none

end Value

end FilterEditor
