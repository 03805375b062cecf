import FilterEditor.Json.Basic

/-!
# Writing JSON

One printer serves the compact and the indented form; a `Layout` says what blank stands at a line
break and after a colon.  Inside quotes only the quote, the backslash and the control characters
below the space are escaped, the ones with a short escape by it and the others by four hexadecimal
digits; every other character stands for itself.
-/

namespace FilterEditor.Json

/-- The blanks between the tokens of a JSON text. -/
structure Layout where
  /-- What stands before an item or a closing bracket, by the number of open brackets. -/
  lineBreak : Nat → List Char
  /-- What stands after a colon. -/
  afterColon : List Char

def Layout.compact : Layout :=
  ⟨fun _ => [], []⟩

/-- An item to a line, indented by `width` spaces to the level. -/
def Layout.indented (width : Nat) : Layout :=
  ⟨fun level => '\n' :: List.replicate (width * level) ' ', [' ']⟩

def digitChar (d : Digit) : Char :=
  Nat.digitChar d

/-- The letter after the backslash for the characters that have a short escape. -/
def shortEscape? (c : Char) : Option Char :=
  match c with
  | '"' => some '"'
  | '\\' => some '\\'
  | '\x08' => some 'b'
  | '\t' => some 't'
  | '\n' => some 'n'
  | '\x0c' => some 'f'
  | '\x0d' => some 'r'
  | _ => none

/-- A character as it is written between quotes. -/
def escape (c : Char) : List Char :=
  match shortEscape? c with
  | some e => ['\\', e]
  | none =>
    if c.toNat < 0x20 then
      ['\\', 'u', '0', '0', Nat.digitChar (c.toNat / 16), Nat.digitChar (c.toNat % 16)]
    else [c]

def writeString (s : String) : List Char :=
  '"' :: (s.toList.flatMap escape ++ ['"'])

def writeExponent (e : Int) : List Char :=
  'e' :: (if e < 0 then '-' else '+') :: Nat.toDigits 10 e.natAbs

def writeNumeral (n : Numeral) : List Char :=
  (if n.negative then ['-'] else []) ++ Nat.toDigits 10 n.whole ++
    (if n.fraction = [] then [] else '.' :: n.fraction.map digitChar) ++
    (n.exponent.map writeExponent).getD []

mutual

/-- The text of a JSON tree inside `level` open brackets. -/
def write (l : Layout) (level : Nat) : Json → List Char
  | .null => ['n', 'u', 'l', 'l']
  | .bool true => ['t', 'r', 'u', 'e']
  | .bool false => ['f', 'a', 'l', 's', 'e']
  | .number n => writeNumeral n
  | .string s => writeString s
  | .array [] => ['[', ']']
  | .array (item :: rest) =>
    '[' :: (l.lineBreak (level + 1) ++ write l (level + 1) item ++
      writeItems l (level + 1) rest ++ l.lineBreak level ++ [']'])
  | .object [] => ['{', '}']
  | .object ((name, value) :: rest) =>
    '{' :: (l.lineBreak (level + 1) ++ writeString name ++ ':' :: l.afterColon ++
      write l (level + 1) value ++ writeMembers l (level + 1) rest ++ l.lineBreak level ++ ['}'])

/-- The items after the first one, each behind a comma. -/
def writeItems (l : Layout) (level : Nat) : List Json → List Char
  | [] => []
  | item :: rest => ',' :: (l.lineBreak level ++ write l level item ++ writeItems l level rest)

def writeMembers (l : Layout) (level : Nat) : List (String × Json) → List Char
  | [] => []
  | (name, value) :: rest =>
    ',' :: (l.lineBreak level ++ writeString name ++ ':' :: l.afterColon ++ write l level value ++
      writeMembers l level rest)

end

def compact (j : Json) : String :=
  String.ofList (j.write .compact 0)

/-- The text of a JSON tree over several lines, `width` spaces to the level. -/
def indented (width : Nat) (j : Json) : String :=
  String.ofList (j.write (.indented width) 0)

end FilterEditor.Json
