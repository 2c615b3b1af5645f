/-!
# Binary floating-point numbers

The 64-bit binary floating-point numbers, kept as their interchange bit pattern with a
single NaN. The order places the two zeros together and the NaN above every other number,
so that it is total and numbers can key sorted and hashed structures.

## Main definitions

* `Binary64`, `Binary64.ofBits`: numbers and their canonical bit patterns
* `Binary64.rank`: the position of a number in the order
* `Binary64.ofInt`: an integer rounded to the nearest number, ties to even
* `Binary64.add`, `Binary64.sub`, `Binary64.mul`, `Binary64.div`, `Binary64.neg`
-/

namespace PullQuery

/-- The bit pattern of the only NaN. -/
def Binary64.nanBits : UInt64 := 0x7ff8000000000000

/-- The sign bit. -/
def Binary64.signBit : Nat := 0x8000000000000000

/-- The bit pattern of the positive infinity: all exponent bits and no fraction. -/
def Binary64.infinityBits : Nat := 0x7ff0000000000000

/-- Whether a bit pattern encodes a NaN: all exponent bits set and a nonzero fraction. -/
def Binary64.isNaNBits (bits : UInt64) : Bool := infinityBits < bits.toNat % signBit

/-- A 64-bit binary floating-point number. All NaNs are one value. -/
structure Binary64 where
  bits : UInt64
  canonical : Binary64.isNaNBits bits = true → bits = Binary64.nanBits
deriving DecidableEq

namespace Binary64

@[ext]
theorem ext {x y : Binary64} (h : x.bits = y.bits) : x = y := by
  cases x; cases y; simp_all

/-- The number with a given bit pattern; every NaN pattern gives the same number. -/
def ofBits (bits : UInt64) : Binary64 :=
  if h : isNaNBits bits = true then ⟨nanBits, fun _ => rfl⟩ else ⟨bits, fun h' => absurd h' h⟩

theorem ofBits_bits (x : Binary64) : ofBits x.bits = x := by
  unfold ofBits
  split
  · next h => exact ext (x.canonical h).symm
  · rfl

theorem bits_ofBits_of_not_nan {bits : UInt64} (h : isNaNBits bits = false) :
    (ofBits bits).bits = bits := by
  simp [ofBits, h]

theorem bits_ofBits_of_nan {bits : UInt64} (h : isNaNBits bits = true) :
    (ofBits bits).bits = nanBits := by
  simp [ofBits, h]

def nan : Binary64 := ofBits nanBits

def isNaN (x : Binary64) : Bool := isNaNBits x.bits

/-- Whether the sign bit is set. -/
def isNegative (x : Binary64) : Bool := signBit ≤ x.bits.toNat

/-- The bit pattern without its sign; magnitudes order as these do. -/
def magnitude (x : Binary64) : Nat := x.bits.toNat % signBit

/-- Whether the number is one of the two zeros. -/
def isZero (x : Binary64) : Bool := x.magnitude == 0

/-! ## Order -/

/-- The position of a number in the order: its signed magnitude. Both zeros stand at `0`;
the NaN has no sign and the greatest magnitude. -/
def rank (x : Binary64) : Int := if x.isNegative then -x.magnitude else x.magnitude

instance : Ord Binary64 where
  compare x y := compare x.rank y.rank

theorem compare_def (x y : Binary64) : compare x y = compare x.rank y.rank := rfl

instance : Std.TransOrd Binary64 where
  eq_swap {x y} := by
    simp only [compare_def]
    exact Std.OrientedCmp.eq_swap
  isLE_trans {x y z} := by
    simp only [compare_def]
    exact Std.TransCmp.isLE_trans

/-- Equality of numbers: the two zeros are equal and the NaN equals itself. -/
def sameNumber (x y : Binary64) : Bool := x.rank == y.rank

theorem compare_eq_eq_iff {x y : Binary64} : compare x y = .eq ↔ x.sameNumber y = true := by
  simp [compare_def, sameNumber]

/-! ## Arithmetic -/

/-- The number as a machine float. -/
def toFloat (x : Binary64) : Float := Float.ofBits x.bits

def ofFloat (x : Float) : Binary64 := ofBits x.toBits

def add (x y : Binary64) : Binary64 := ofFloat (x.toFloat + y.toFloat)

def sub (x y : Binary64) : Binary64 := ofFloat (x.toFloat - y.toFloat)

def mul (x y : Binary64) : Binary64 := ofFloat (x.toFloat * y.toFloat)

def div (x y : Binary64) : Binary64 := ofFloat (x.toFloat / y.toFloat)

/-- The number with the opposite sign. -/
def neg (x : Binary64) : Binary64 := ofBits (x.bits ^^^ 0x8000000000000000)

/-- The leading bit of a fraction of 53 bits. A bit pattern leaves it out. -/
def hiddenBit : Nat := 0x10000000000000

/-- A natural number rounded to 53 significant bits, ties to even, as the bit pattern of
a nonnegative number. A carry out of the fraction moves into the exponent by itself. -/
def roundNat (n : Nat) : Nat :=
  if n = 0 then 0
  else
    let scale := n.log2
    let rounded :=
      if scale ≤ 52 then n <<< (52 - scale)
      else
        -- The lowest `drop` bits are rounded away; `half` is the tie.
        let drop := scale - 52
        let kept := n >>> drop
        let rest := n % (1 <<< drop)
        let half := 1 <<< (drop - 1)
        if half < rest ∨ (rest = half ∧ kept % 2 = 1) then kept + 1 else kept
    (scale + 1023) <<< 52 + (rounded - hiddenBit)

/-- The number nearest to an integer of at most 64 bits, ties to even. -/
def ofInt (i : Int) : Binary64 :=
  let size := roundNat i.natAbs
  ofBits (UInt64.ofNat (if i < 0 then signBit + size else size))

end Binary64

end PullQuery
