import FilterEditor.Exchange.Record
import FilterEditor.Json.Number
import FilterEditor.Json.Parser
import FilterEditor.Json.Printer
import FilterEditor.Tree.Node

/-!
# Trees in JSON

A node is a record of its kind and its content: the text of a filter, the list of an array's
branches, or an object with a member for each entry.  A pipeline is the list of its nodes.  The
entries of an object keep the order of the text; of entries with one key the first gives the place
and the last the branch.

A reader that is inside a node already is less strict about the tag of the next one: the number of a
kind stands for its name there.  The nodes of the whole tree itself need the name.

A text is read only if all of it, what is passed over included, nests at most `Json.maxDepth` deep
and has no number that is too great.
-/

namespace FilterEditor

namespace Kind

def toJson (k : Kind) : Json :=
  .string k.name

/-- The kind that a JSON tree stands for: its name, alone or as the name of an empty member. -/
def ofJson? : Json → Option Kind
  | .string s => ofName? s
  | .object [(s, .null)] => ofName? s
  | _ => none

def ofText? (text : String) : Option Kind :=
  (Json.parse? text).bind ofJson?

def ofNumber? (n : Nat) : Option Kind :=
  [filter, array, object][n]?

/-- The kind that the tag of a node gives, by its name and inside another node also by its number. -/
def ofTag? (inner : Bool) : Json → Option Kind
  | .string s => ofName? s
  | j => if inner then j.natural?.bind ofNumber? else none

def contentName : Kind → String
  | filter => "value"
  | array => "items"
  | object => "items"

end Kind

/-! ## Writing -/

mutual

def Node.toJson : Node → Json
  | .filter value => .object [("type", .string "filter"), ("value", .string value)]
  | .array branches =>
    .object [("type", .string "array"), ("items", .array (Node.branchesToJson branches))]
  | .object entries =>
    .object [("type", .string "object"), ("items", .object (Node.entriesToJson entries))]

def Pipeline.nodesToJson : List Node → List Json
  | [] => []
  | n :: rest => n.toJson :: Pipeline.nodesToJson rest

def Node.branchesToJson : List (List Node) → List Json
  | [] => []
  | branch :: rest => .array (Pipeline.nodesToJson branch) :: Node.branchesToJson rest

def Node.entriesToJson : List (String × List Node) → List (String × Json)
  | [] => []
  | (key, branch) :: rest =>
    (key, .array (Pipeline.nodesToJson branch)) :: Node.entriesToJson rest

end

def Pipeline.toJson (p : Pipeline) : Json :=
  .array (Pipeline.nodesToJson p)

theorem Pipeline.nodesToJson_eq_map (p : Pipeline) :
    Pipeline.nodesToJson p = p.map Node.toJson := by
  induction p with
  | nil => rfl
  | cons n rest ih => rw [Pipeline.nodesToJson, ih, List.map_cons]

theorem Node.branchesToJson_eq_map (branches : List Pipeline) :
    Node.branchesToJson branches = branches.map Pipeline.toJson := by
  induction branches with
  | nil => rfl
  | cons branch rest ih => rw [Node.branchesToJson, ih, List.map_cons, Pipeline.toJson]

theorem Node.entriesToJson_eq_map (entries : Entries Pipeline) :
    Node.entriesToJson entries = entries.map fun e => (e.1, Pipeline.toJson e.2) := by
  induction entries with
  | nil => rfl
  | cons e rest ih => rw [Node.entriesToJson, ih, List.map_cons, Pipeline.toJson]

/-! ## Reading -/

/-- The kind and the content of a node, which may stand inside another one. -/
def Node.parts? (inner : Bool) : Json → Option (Kind × Json)
  | .object members => do
    let tag ← Json.required? "type" members
    let kind ← Kind.ofTag? inner tag
    let content ← Json.required? kind.contentName members
    return (kind, content)
  | .array [tag, content] => do
    let kind ← Kind.ofTag? inner tag
    return (kind, content)
  | _ => none

/-- The pipeline that a JSON tree stands for, given how its nodes are read. -/
def Pipeline.read? (readNode : Json → Option Node) (j : Json) : Option Pipeline :=
  j.items?.bind fun items => items.mapM readNode

/-- The node that a JSON tree of at most the given depth stands for.  All nodes below it are inside
a node, wherever it stands itself. -/
def Node.read? (inner : Bool) : Nat → Json → Option Node
  | 0, _ => none
  | depth + 1, j =>
    match Node.parts? inner j with
    | some (.filter, content) => content.string?.map .filter
    | some (.array, content) => do
      let items ← content.items?
      let branches ← items.mapM (Pipeline.read? (Node.read? true depth))
      return .array branches
    | some (.object, content) => do
      let members ← content.members?
      let pairs ← members.mapM fun m => (Pipeline.read? (Node.read? true depth) m.2).map (m.1, ·)
      return .ofEntries pairs
    | none => none

def Node.ofJson? (j : Json) : Option Node :=
  Node.read? false j.depth j

def Pipeline.ofJson? (j : Json) : Option Pipeline :=
  Pipeline.read? (Node.read? false j.depth) j

/-- The JSON tree of a text that may hold trees. -/
def Json.parseTree? (text : String) : Option Json :=
  (Json.parseBounded? text).filter (Json.allNumbers Number.fits)

def Node.toText (n : Node) : String :=
  n.toJson.compact

def Node.ofText? (text : String) : Option Node :=
  (Json.parseTree? text).bind Node.ofJson?

def Pipeline.toText (p : Pipeline) : String :=
  (Pipeline.toJson p).compact

def Pipeline.ofText? (text : String) : Option Pipeline :=
  (Json.parseTree? text).bind Pipeline.ofJson?

end FilterEditor
