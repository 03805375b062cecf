/-!
# The shortest decimal of a binary fraction

A positive double is a number `m · 2 ^ q`, and the reals that round to it form an interval around
it.  Of the decimals `c · 10 ^ k` in that interval the shortest are those with the greatest `k`; of
these `shortest?` takes the one nearest to the number, and of two equally near ones the one with
the even `c`.

Everything is exact arithmetic on natural numbers.  An interval is kept over a common denominator.
-/

namespace FilterEditor.Decimal

/-- A positive binary fraction `mantissa · 2 ^ power`. -/
structure Binary where
  mantissa : Nat
  power : Int
  /-- Whether the next smaller number is only half as far away as the next greater one. -/
  closeBelow : Bool
  deriving DecidableEq, Repr

/-- A number with the ends of its rounding interval, all over one denominator. -/
structure Interval where
  low : Nat
  value : Nat
  high : Nat
  denominator : Nat
  /-- Whether the ends belong to the interval. -/
  closed : Bool
  deriving DecidableEq, Repr

/-- A decimal `digits · 10 ^ power`. -/
structure Point where
  digits : Nat
  power : Int
  deriving DecidableEq, Repr

/-- The reals that round to a number: half the way to its neighbours on both sides, the ends
included when the mantissa is even. -/
def Binary.interval (b : Binary) : Interval :=
  let scale := 1 <<< (b.power - 2).toNat
  { low := (4 * b.mantissa - if b.closeBelow then 1 else 2) * scale
    value := 4 * b.mantissa * scale
    high := (4 * b.mantissa + 2) * scale
    denominator := 1 <<< (2 - b.power).toNat
    closed := b.mantissa % 2 = 0 }

def Interval.inUnits (i : Interval) (k : Int) : Interval :=
  { i with
    low := i.low * Nat.pow 10 (-k).toNat
    value := i.value * Nat.pow 10 (-k).toNat
    high := i.high * Nat.pow 10 (-k).toNat
    denominator := i.denominator * Nat.pow 10 k.toNat }

def Interval.contains (i : Interval) (c : Nat) : Bool :=
  if i.closed then i.low ≤ c * i.denominator && c * i.denominator ≤ i.high
  else i.low < c * i.denominator && c * i.denominator < i.high

/-- The integer of an interval that is nearest to its number, if there is any: one of the two
neighbours of the number, the even one of two that are equally near. -/
def Interval.nearest? (i : Interval) : Option Nat :=
  let floor := i.value / i.denominator
  let rest := 2 * (i.value % i.denominator)
  let upper := i.denominator < rest || (rest = i.denominator && floor % 2 = 1)
  if i.contains floor && i.contains (floor + 1) then
    some (if upper then floor + 1 else floor)
  else if i.contains floor then some floor
  else if i.contains (floor + 1) then some (floor + 1)
  else none

/-- A power of ten above all doubles. -/
def coarsest : Int := 310

/-- How many powers of ten, from the coarsest down, are needed to come to one that is finer than the
distance between any two doubles. -/
def gridCount : Nat := 640

/-- The shortest decimal that rounds to a double, nearest to it: the one on the coarsest grid of
powers of ten that has a point in the interval. -/
def shortest? (b : Binary) : Option Point :=
  (List.range gridCount).findSome? fun n =>
    let k := coarsest - Int.ofNat n
    (b.interval.inUnits k).nearest?.map fun c => ⟨c, k⟩

end FilterEditor.Decimal
