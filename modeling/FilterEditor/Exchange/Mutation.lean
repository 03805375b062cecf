import FilterEditor.Exchange.Tree
import FilterEditor.Mutation.Basic

/-!
# Paths and mutations in JSON

A selector is an object with one member, whose name says what kind of selector it is; a path is
the list of its selectors.  A mutation is an object with one member as well: its name says which
mutation it is, its value is the record of the fields.
-/

namespace FilterEditor

def Selector.toJson : Selector → Json
  | index n => .object [("pipelineIndex", .ofNat n)]
  | branch n => .object [("arrayBranch", .ofNat n)]
  | key k => .object [("objectKey", .string k)]

def Selector.ofJson? : Json → Option Selector
  | .object [(name, j)] =>
    if name = "pipelineIndex" then j.natural?.map index
    else if name = "arrayBranch" then j.natural?.map branch
    else if name = "objectKey" then j.string?.map key
    else none
  | _ => none

namespace Path

def toJson (p : Path) : Json :=
  .ofList Selector.toJson p

def ofJson? (j : Json) : Option Path :=
  j.items?.bind fun items => items.mapM Selector.ofJson?

def toText (p : Path) : String :=
  p.toJson.compact

def ofText? (text : String) : Option Path :=
  (Json.parse? text).bind ofJson?

end Path

namespace Mutation

def toJson : Mutation → Json
  | setFilterValue p value =>
    .object [("SetFilterValue", .object [("path", p.toJson), ("value", .string value)])]
  | insertSibling p kind =>
    .object [("InsertSibling", .object [("path", p.toJson), ("kind", kind.toJson)])]
  | appendBranch p => .object [("AppendBranch", .object [("path", p.toJson)])]
  | removeNode p => .object [("RemoveNode", .object [("path", p.toJson)])]
  | removeBranch p => .object [("RemoveBranch", .object [("path", p.toJson)])]
  | addProperty p key =>
    .object [("AddProperty", .object [("path", p.toJson), ("key", .string key)])]
  | renameProperty p newKey =>
    .object [("RenameProperty", .object [("path", p.toJson), ("new_key", .string newKey)])]

/-- A mutation that has a path only. -/
def readPlace? (make : Path → Mutation) (body : Json) : Option Mutation :=
  match body.fields? ["path"] with
  | some [p] => (Path.ofJson? p).map make
  | _ => none

/-- A mutation that has a path and one field more. -/
def readPlaceAnd? {α : Type} (field : String) (read? : Json → Option α)
    (make : Path → α → Mutation) (body : Json) : Option Mutation :=
  match body.fields? ["path", field] with
  | some [p, a] => (Path.ofJson? p).bind fun p => (read? a).map (make p)
  | _ => none

def ofJson? : Json → Option Mutation
  | .object [(name, body)] =>
    if name = "SetFilterValue" then readPlaceAnd? "value" Json.string? setFilterValue body
    else if name = "InsertSibling" then readPlaceAnd? "kind" Kind.ofJson? insertSibling body
    else if name = "AppendBranch" then readPlace? appendBranch body
    else if name = "RemoveNode" then readPlace? removeNode body
    else if name = "RemoveBranch" then readPlace? removeBranch body
    else if name = "AddProperty" then readPlaceAnd? "key" Json.string? addProperty body
    else if name = "RenameProperty" then readPlaceAnd? "new_key" Json.string? renameProperty body
    else none
  | _ => none

def toText (m : Mutation) : String :=
  m.toJson.compact

def ofText? (text : String) : Option Mutation :=
  (Json.parse? text).bind ofJson?

end Mutation

end FilterEditor
