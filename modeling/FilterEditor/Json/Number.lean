import FilterEditor.Decimal.Shortest
import FilterEditor.Json.Basic

/-!
# Numbers of JSON values

A number without point and exponent between `-2 ^ 63` and `2 ^ 64 - 1` is an integer and stays
exact.  Every other number is a double: the leading digits that fit 64 bits make an integer, and
one multiplication or division by a power of ten brings it to its size, in steps of `10 ^ 308`
when it is further away than that.  A number whose double would be infinite is refused.  Minus
zero is a double, since no integer has a sign of zero.

A double is written with the fewest digits that round to it, see
`Decimal.shortest?`, positionally from `10 ^ -5` up to `10 ^ 16` and with an exponent outside.
-/

namespace FilterEditor

inductive Number where
  | integer (i : Int)
  | double (x : Float)
  deriving Repr, Inhabited

namespace Number

/-- The leading digits of a number below the bound, and how many digits are left out. -/
def leadingDigits (n : Nat) : Nat × Nat :=
  if n < Numeral.wordBound then (n, 0)
  else
    let (lead, left) := leadingDigits (n / 10)
    (lead, left + 1)
termination_by n
decreasing_by
  simp only [Numeral.wordBound] at *
  omega

/-- Append digits to a significand as long as it stays below the bound; the second result counts
them. -/
def appendDigits : Nat → List Digit → Nat × Nat
  | s, [] => (s, 0)
  | s, d :: rest =>
    if s * 10 + d.val < Numeral.wordBound then
      let (s', n) := appendDigits (s * 10 + d.val) rest
      (s', n + 1)
    else (s, 0)

def powerOfTen (n : Nat) : Float :=
  Float.ofScientific 1 false n

/-- The greatest power of ten that a double can hold. -/
def maxPower : Nat := 308

def scaleDown (x : Float) (n : Nat) : Float :=
  if n ≤ maxPower then x / powerOfTen n
  else if x == 0 then x
  else scaleDown (x / powerOfTen maxPower) (n - maxPower)
termination_by n
decreasing_by
  simp only [maxPower] at *
  omega

/-- A double made greater by a power of ten, unless it gets too great. -/
def scaleUp? (x : Float) (n : Nat) : Option Float :=
  if n ≤ maxPower then
    let y := x * powerOfTen n
    if y.isInf then none else some y
  else if x == 0 then some x
  else none

def scale? (significand : Nat) (e : Int) : Option Float :=
  let x := (UInt64.ofNat significand).toFloat
  if e < 0 then some (scaleDown x e.natAbs) else scaleUp? x e.natAbs

def double? (n : Numeral) : Option Float :=
  let (lead, left) := leadingDigits n.whole
  let (significand, appended) := appendDigits lead n.fraction
  let e := (left : Int) - appended + n.exponent.getD 0
  (scale? significand e).map fun x => if n.negative then -x else x

def integer? (n : Numeral) : Option Int :=
  if n.fraction ≠ [] ∨ n.exponent ≠ none then none
  else if n.negative then
    if 0 < n.whole ∧ 2 * n.whole ≤ Numeral.wordBound then some (-(n.whole : Int)) else none
  else if n.whole < Numeral.wordBound then some (n.whole : Int)
  else none

def ofNumeral? (n : Numeral) : Option Number :=
  match integer? n with
  | some i => some (.integer i)
  | none => (double? n).map .double

/-! ## Writing doubles -/

/-- The binary fraction of a double, without its sign; nothing for zero. -/
def binary? (x : Float) : Option Decimal.Binary :=
  let bits := x.toBits.toNat
  let hidden := 1 <<< 52
  let field := bits / hidden % 2048
  let low := bits % hidden
  if field = 0 then
    if low = 0 then none else some ⟨low, -1074, false⟩
  else some ⟨low + hidden, Int.ofNat field - 1075, low = 0 && field ≠ 1⟩

/-- Whether a double has a minus sign; so has one of the zeros. -/
def isNegative (x : Float) : Bool :=
  Numeral.wordBound ≤ 2 * x.toBits.toNat

/-- The least power of ten that is written positionally. -/
def leastPositional : Int := -5

/-- The least power of ten above those that are written positionally. -/
def positionalEnd : Int := 16

def fractionDigits (n width : Nat) : List Digit :=
  (List.range width).map fun i => ⟨n / Nat.pow 10 (width - 1 - i) % 10, Nat.mod_lt _ (by decide)⟩

/-- A numeral with the point in front of the last `places` of its digits. -/
def pointed (negative : Bool) (digits places : Nat) (exponent : Option Int) : Numeral :=
  let unit := Nat.pow 10 places
  ⟨negative, digits / unit, fractionDigits (digits % unit) places, exponent⟩

/-- A decimal as it is spelled: positionally, with one zero behind the point of a whole number, or
with an exponent, and then with a point only where more digits follow. -/
def spell (negative : Bool) (d : Decimal.Point) : Numeral :=
  let count := (Nat.toDigits 10 d.digits).length
  let top := d.power + count - 1
  if leastPositional ≤ top ∧ top < positionalEnd then
    if 0 ≤ d.power then ⟨negative, d.digits * Nat.pow 10 d.power.toNat, [0], none⟩
    else pointed negative d.digits (-d.power).toNat none
  else pointed negative d.digits (count - 1) (some top)

def spellDouble (x : Float) : Numeral :=
  match (binary? x).bind Decimal.shortest? with
  | some d => spell (isNegative x) d
  | none => ⟨isNegative x, 0, [0], none⟩

def numeral : Number → Numeral
  | integer i => .ofInt i
  | double x => spellDouble x

def fits (n : Numeral) : Bool :=
  (ofNumeral? n).isSome

end Number

end FilterEditor
