import FilterEditor.Json.Basic

/-!
# Reading JSON

The grammar is the strict one: blanks are space, tab, line feed and carriage return; no comments,
no comma before a closing bracket, nothing after the value; no control character inside quotes; a
surrogate escape stands only in front of its other half.

`parse?` reads any depth.  `parseBounded?` is for texts of unknown origin: at most `maxDepth`
brackets and braces may be open at once.  The readers take fuel, since they pass the rest of the
text on; twice the length of the text is more than they use.
-/

namespace FilterEditor.Json

def isGap (c : Char) : Bool :=
  c = ' ' || c = '\t' || c = '\n' || c = '\x0d'

def skipGap (cs : List Char) : List Char :=
  cs.dropWhile isGap

/-! ## Text in quotes -/

def hexValue? (c : Char) : Option Nat :=
  if '0' ≤ c ∧ c ≤ '9' then some (c.toNat - '0'.toNat)
  else if 'a' ≤ c ∧ c ≤ 'f' then some (c.toNat - 'a'.toNat + 10)
  else if 'A' ≤ c ∧ c ≤ 'F' then some (c.toNat - 'A'.toNat + 10)
  else none

/-- The number written by four hexadecimal digits. -/
def codeUnit? (a b c d : Char) : Option Nat := do
  return ((((← hexValue? a) * 16 + (← hexValue? b)) * 16 + (← hexValue? c)) * 16 + (← hexValue? d))

/-- Whether a code unit is the first half of a pair. -/
def isHighSurrogate (u : Nat) : Bool :=
  0xD800 ≤ u && u < 0xDC00

def isLowSurrogate (u : Nat) : Bool :=
  0xDC00 ≤ u && u < 0xE000

def pairedChar (high low : Nat) : Char :=
  Char.ofNat (0x10000 + (high - 0xD800) * 0x400 + (low - 0xDC00))

def unescape? (c : Char) : Option Char :=
  match c with
  | '"' => some '"'
  | '\\' => some '\\'
  | '/' => some '/'
  | 'b' => some '\x08'
  | 'f' => some '\x0c'
  | 'n' => some '\n'
  | 'r' => some '\x0d'
  | 't' => some '\t'
  | _ => none

/-- The characters up to the closing quote, and the text after it. -/
def readQuoted : List Char → Option (List Char × List Char)
  | [] => none
  | '"' :: rest => some ([], rest)
  | '\\' :: 'u' :: a :: b :: c :: d :: rest =>
    match codeUnit? a b c d with
    | none => none
    | some u =>
      if isLowSurrogate u then none
      else if isHighSurrogate u then
        match rest with
        | '\\' :: 'u' :: a' :: b' :: c' :: d' :: rest' =>
          match codeUnit? a' b' c' d' with
          | none => none
          | some v =>
            if isLowSurrogate v then
              (readQuoted rest').map fun r => (pairedChar u v :: r.1, r.2)
            else none
        | _ => none
      else (readQuoted rest).map fun r => (Char.ofNat u :: r.1, r.2)
  | '\\' :: c :: rest =>
    match unescape? c with
    | none => none
    | some e => (readQuoted rest).map fun r => (e :: r.1, r.2)
  | c :: rest =>
    if c = '\\' ∨ c.toNat < 0x20 then none
    else (readQuoted rest).map fun r => (c :: r.1, r.2)

/-! ## Numbers -/

/-- A run of digits, at least one, and the text after it. -/
def readDigits (cs : List Char) : Option (List Char × List Char) :=
  match cs.takeWhile Char.isDigit with
  | [] => none
  | ds => some (ds, cs.dropWhile Char.isDigit)

/-- The digits before the point: a zero stands alone. -/
def readWhole (cs : List Char) : Option (Nat × List Char) :=
  match readDigits cs with
  | some ('0' :: _ :: _, _) => none
  | some (ds, rest) => some (Nat.ofDigitChars 10 ds 0, rest)
  | none => none

def digitOf (c : Char) : Digit :=
  ⟨(c.toNat - '0'.toNat) % 10, Nat.mod_lt _ (by decide)⟩

/-- The digits after the point, if there is a point. -/
def readFraction : List Char → Option (List Digit × List Char)
  | '.' :: rest => (readDigits rest).map fun r => (r.1.map digitOf, r.2)
  | rest => some ([], rest)

def readPower : List Char → Option (Int × List Char)
  | '-' :: rest => (readDigits rest).map fun r => (-Int.ofNat (Nat.ofDigitChars 10 r.1 0), r.2)
  | '+' :: rest => (readDigits rest).map fun r => (Int.ofNat (Nat.ofDigitChars 10 r.1 0), r.2)
  | rest => (readDigits rest).map fun r => (Int.ofNat (Nat.ofDigitChars 10 r.1 0), r.2)

def readExponent : List Char → Option (Option Int × List Char)
  | 'e' :: rest => (readPower rest).map fun r => (some r.1, r.2)
  | 'E' :: rest => (readPower rest).map fun r => (some r.1, r.2)
  | rest => some (none, rest)

def readUnsigned (negative : Bool) (cs : List Char) : Option (Numeral × List Char) := do
  let (whole, cs) ← readWhole cs
  let (fraction, cs) ← readFraction cs
  let (exponent, cs) ← readExponent cs
  return (⟨negative, whole, fraction, exponent⟩, cs)

def readNumeral : List Char → Option (Numeral × List Char)
  | '-' :: rest => readUnsigned true rest
  | rest => readUnsigned false rest

/-! ## Values -/

def readName (cs : List Char) : Option (String × List Char) :=
  match skipGap cs with
  | '"' :: rest =>
    match readQuoted rest with
    | none => none
    | some (name, rest) =>
      match skipGap rest with
      | ':' :: rest' => some (String.ofList name, rest')
      | _ => none
  | _ => none

mutual

/-- A value, and the text after it. -/
def readValue : Nat → List Char → Option (Json × List Char)
  | 0, _ => none
  | fuel + 1, cs =>
    match skipGap cs with
    | 'n' :: 'u' :: 'l' :: 'l' :: rest => some (.null, rest)
    | 't' :: 'r' :: 'u' :: 'e' :: rest => some (.bool true, rest)
    | 'f' :: 'a' :: 'l' :: 's' :: 'e' :: rest => some (.bool false, rest)
    | '"' :: rest => (readQuoted rest).map fun r => (.string (String.ofList r.1), r.2)
    | '[' :: rest =>
      match skipGap rest with
      | ']' :: rest' => some (.array [], rest')
      | rest' => (readItems fuel rest').map fun r => (.array r.1, r.2)
    | '{' :: rest =>
      match skipGap rest with
      | '}' :: rest' => some (.object [], rest')
      | rest' => (readMembers fuel rest').map fun r => (.object r.1, r.2)
    | rest => (readNumeral rest).map fun r => (.number r.1, r.2)

def readItems : Nat → List Char → Option (List Json × List Char)
  | 0, _ => none
  | fuel + 1, cs =>
    match readValue fuel cs with
    | none => none
    | some (item, rest) =>
      match skipGap rest with
      | ']' :: rest' => some ([item], rest')
      | ',' :: rest' => (readItems fuel rest').map fun r => (item :: r.1, r.2)
      | _ => none

def readMembers : Nat → List Char → Option (List (String × Json) × List Char)
  | 0, _ => none
  | fuel + 1, cs =>
    match readName cs with
    | none => none
    | some (name, rest) =>
      match readValue fuel rest with
      | none => none
      | some (value, rest) =>
        match skipGap rest with
        | '}' :: rest' => some ([(name, value)], rest')
        | ',' :: rest' => (readMembers fuel rest').map fun r => ((name, value) :: r.1, r.2)
        | _ => none

end

/-- The tree of a JSON text, or nothing if the text is not JSON. -/
def parse? (text : String) : Option Json :=
  let cs := text.toList
  match readValue (2 * cs.length + 2) cs with
  | some (j, rest) => if skipGap rest = [] then some j else none
  | none => none

/-- How many brackets and braces a text of unknown origin may have open at once. -/
def maxDepth : Nat := 127

/-- The tree of a JSON text that nests at most `maxDepth` deep. -/
def parseBounded? (text : String) : Option Json :=
  (parse? text).filter fun j => j.depth ≤ maxDepth

end FilterEditor.Json
