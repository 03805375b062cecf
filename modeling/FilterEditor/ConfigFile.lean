import FilterEditor.EditorError
import FilterEditor.Exchange.Record
import FilterEditor.Json.Parser
import FilterEditor.Json.Printer
import FilterEditor.Tree.Entries

/-!
# Settings of an editor and the file that holds them

The settings of an editing session, each with a value that holds when nothing is said.  As JSON
they are a record in which every field may be missing.

A directory may hold a file with settings.  Without it the usual settings hold; a file that is
there must be readable.
-/

namespace FilterEditor

structure Config where
  /-- How many steps can be undone; zero means all of them. -/
  undoLevels : Nat := 100
  /-- What stands in front of the number in a fresh key. -/
  freshKeyPrefix : String := defaultFreshKeyPrefix
  /-- What is shown when an evaluation fails. -/
  failurePlaceholder : String := "invalid JSON or expression"
  /-- The spaces to a level of shown results. -/
  outputIndent : Nat := 2
  deriving DecidableEq, Repr

namespace Config

/-- The settings that hold when nothing is said. -/
def standard : Config := {}

instance : Inhabited Config := ⟨standard⟩

/-! ## Settings in JSON -/

def toJson (c : Config) : Json :=
  .object [("undoLevels", .ofNat c.undoLevels), ("freshKeyPrefix", .string c.freshKeyPrefix),
    ("failurePlaceholder", .string c.failurePlaceholder), ("outputIndent", .ofNat c.outputIndent)]

def ofJson? (j : Json) : Option Config :=
  match j.optionalFields?
    ["undoLevels", "freshKeyPrefix", "failurePlaceholder", "outputIndent"] with
  | some [levels, stem, placeholder, indent] => do
    let levels ← Json.readOr standard.undoLevels Json.natural? levels
    let stem ← Json.readOr standard.freshKeyPrefix Json.string? stem
    let placeholder ← Json.readOr standard.failurePlaceholder Json.string? placeholder
    let indent ← Json.readOr standard.outputIndent Json.natural? indent
    return ⟨levels, stem, placeholder, indent⟩
  | _ => none

def toText (c : Config) : String :=
  c.toJson.compact

def ofText? (text : String) : Option Config :=
  (Json.parse? text).bind ofJson?

end Config

/-! ## The settings file -/

/-- What stands under a file name. -/
inductive FileContent where
  /-- Nothing. -/
  | absent
  /-- Something that has no content, such as a directory. -/
  | unreadable
  /-- A file with these bytes. -/
  | bytes (content : ByteArray)

namespace Config

def parse (text : String) : Except EditorError Config :=
  match ofText? text with
  | some c => .ok c
  | none => .error (.unreadable "settings")

/-- The settings of a directory whose settings file has the given content. -/
def load : FileContent → Except EditorError Config
  | .absent => .ok standard
  | .unreadable => .error (.io "the settings file cannot be read")
  | .bytes content =>
    match String.fromUTF8? content with
    | some text => parse text
    | none => .error (.io "the settings file is not text")

end Config

end FilterEditor
