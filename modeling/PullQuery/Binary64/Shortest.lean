import PullQuery.Binary64

/-!
# Shortest decimal text of a floating-point number

A finite number is written with the fewest significant digits that read back as the same
number, and among those with the digits nearest to it; of two equally near ones the greater
is taken. The digits are always written positionally, never with an exponent.

## Main definitions

* `Decimal`: digits and a power of ten
* `Binary64.shortest`: the shortest decimal that rounds to a number
* `Binary64.toText`: its text
-/

namespace PullQuery

/-- The decimal number `digits * 10 ^ exponent`. -/
structure Decimal where
  digits : Nat
  exponent : Int
deriving DecidableEq, Repr

namespace Decimal

/-- The same number without the zeros at the end of its digits; `fuel` bounds their count. -/
def trim : Nat → Decimal → Decimal
  | 0, d => d
  | fuel + 1, d =>
    if d.digits ≠ 0 ∧ d.digits % 10 = 0 then trim fuel ⟨d.digits / 10, d.exponent + 1⟩ else d

/-- The digits written positionally, with a point only where there is a fraction. -/
def toText (d : Decimal) : String :=
  let digits := (toString d.digits).toList
  if 0 ≤ d.exponent then
    String.ofList (digits ++ List.replicate d.exponent.toNat '0')
  else
    let places := (-d.exponent).toNat
    let padded := List.replicate (places + 1 - digits.length) '0' ++ digits
    let whole := padded.length - places
    String.ofList (padded.take whole ++ '.' :: padded.drop whole)

end Decimal

namespace Binary64

/-- A nonnegative rational number as a quotient of natural numbers. -/
structure Ratio where
  num : Nat
  den : Nat

def powerOfTen (k : Nat) : Nat := Nat.pow 10 k

/-- The number `n * 2 ^ e`. -/
def Ratio.scaled (n : Nat) (e : Int) : Ratio :=
  if 0 ≤ e then ⟨n <<< e.toNat, 1⟩ else ⟨n, 1 <<< (-e).toNat⟩

/-- How many units of `10 ^ k` fit into the number, rounded down. -/
def Ratio.unitsOfTen (r : Ratio) (k : Int) : Nat :=
  if 0 ≤ k then r.num / (r.den * powerOfTen k.toNat)
  else r.num * powerOfTen (-k).toNat / r.den

/-- Whether the number is at most `units * 10 ^ k`. -/
def Ratio.leDecimal (r : Ratio) (units : Nat) (k : Int) : Bool :=
  if 0 ≤ k then r.num ≤ units * powerOfTen k.toNat * r.den
  else r.num * powerOfTen (-k).toNat ≤ units * r.den

/-- Whether `units * 10 ^ k` is at most the number. -/
def Ratio.geDecimal (r : Ratio) (units : Nat) (k : Int) : Bool :=
  if 0 ≤ k then units * powerOfTen k.toNat * r.den ≤ r.num
  else units * r.den ≤ r.num * powerOfTen (-k).toNat

/-- Fraction and exponent of a finite number: its magnitude is `fraction * 2 ^ exponent`. -/
def decode (x : Binary64) : Nat × Int :=
  let biased : Nat := x.magnitude >>> 52
  let fraction : Nat := x.magnitude % hiddenBit
  if biased = 0 then (fraction, -1074) else (fraction + hiddenBit, Int.ofNat biased - 1075)

/-- The real numbers that round to a given magnitude, with the magnitude itself. -/
structure Interval where
  low : Ratio
  value : Ratio
  high : Ratio
  /-- Whether the two ends round to the magnitude as well. -/
  closed : Bool

/-- The rounding interval of a finite nonzero number. The gap below a power of two is half
the gap above it; the ends belong to the interval exactly when the fraction is even. -/
def interval (x : Binary64) : Interval :=
  let (m, e) := x.decode
  -- In units of a quarter of the last place, half a gap is two units, or one below a power of two.
  let narrow := m = hiddenBit ∧ -1074 < e
  { low := Ratio.scaled (4 * m - if narrow then 1 else 2) (e - 2)
    value := Ratio.scaled (4 * m) (e - 2)
    high := Ratio.scaled (4 * m + 2) (e - 2)
    closed := m % 2 == 0 }

/-- Whether `units * 10 ^ k` lies in the interval. -/
def Interval.contains (i : Interval) (units : Nat) (k : Int) : Bool :=
  if i.closed then i.low.leDecimal units k && i.high.geDecimal units k
  else !i.low.geDecimal units k && !i.high.leDecimal units k

/-- Whether `(units + 1) * 10 ^ k` is at least as near to the value as `units * 10 ^ k`, for
a value between the two: twice the value is then at least their sum. -/
def Interval.upperNearer (i : Interval) (units : Nat) (k : Int) : Bool :=
  Ratio.geDecimal ⟨2 * i.value.num, i.value.den⟩ (2 * units + 1) k

/-- The multiple of `10 ^ k` nearest to the value, if one lies in the interval. -/
def Interval.onGrid? (i : Interval) (k : Int) : Option Decimal :=
  let below := i.value.unitsOfTen k
  match i.contains below k, i.contains (below + 1) k with
  | true, true => some ⟨if i.upperNearer below k then below + 1 else below, k⟩
  | true, false => some ⟨below, k⟩
  | false, true => some ⟨below + 1, k⟩
  | false, false => none

/-- The first grid `10 ^ k`, `10 ^ (k - 1)`, … that has a point in the interval. -/
def Interval.search (i : Interval) : Nat → Int → Decimal
  | 0, k => ⟨i.value.unitsOfTen k, k⟩
  | fuel + 1, k => (i.onGrid? k).getD (i.search fuel (k - 1))

/-- An exponent `k` with `10 ^ k` above the magnitude `m * 2 ^ e`, and close to it:
`30103 / 100000` exceeds the decimal logarithm of two. -/
def leadingExponent (m : Nat) (e : Int) : Int :=
  let binary := e + m.log2 + 1
  (if 0 ≤ binary then binary * 30103 / 100000 else binary * 30102 / 100000) + 1

/-- The shortest decimal that reads back as the magnitude of a finite number. -/
def shortest (x : Binary64) : Decimal :=
  if x.isZero then ⟨0, 0⟩
  else
    let (m, e) := x.decode
    Decimal.trim 20 (x.interval.search 24 (leadingExponent m e))

/-- The text of a number: its shortest decimal with a sign. -/
def toText (x : Binary64) : String :=
  if x.isNaN then "NaN"
  else
    let unsigned := if x.magnitude = infinityBits then "inf" else x.shortest.toText
    if x.isNegative then "-" ++ unsigned else unsigned

end Binary64

end PullQuery
