import Mathlib.Algebra.Order.Field.Power
import Mathlib.Algebra.Order.Ring.Rat
import Mathlib.Order.Monotone.Odd
import Mathlib.Order.WithBot
import Mathlib.Tactic.Positivity
import Mathlib.Tactic.Ring
import PullQuery.Binary64.Shortest

/-!
# The order of floating-point numbers

A bit pattern other than the NaN stands for a rational number or for an infinity. As magnitudes
grow, so do the numbers that they stand for: exponent and fraction lie in the pattern with the
higher weight first, and the hidden bit of a normal number continues the subnormal ones. Numbers
therefore order by rank as they do by value, with the NaN above them all.

## Main definitions

* `Binary64.units`: a magnitude in units of the least positive number
* `Binary64.toRat`, `Binary64.extended`: what a number stands for

## Main results

* `Binary64.strictMono_units`, `Binary64.toRat_lt_toRat`
* `Binary64.compare_eq_compare_extended`: the order is that of the values
* `Binary64.compare_nan`: the NaN is the greatest number
-/

namespace PullQuery

namespace Binary64

/-! ## Magnitudes -/

/-- What a magnitude stands for, in units of the least positive number. -/
def units (magnitude : Nat) : Nat :=
  if magnitude >>> 52 = 0 then magnitude % hiddenBit
  else (magnitude % hiddenBit + hiddenBit) * 2 ^ (magnitude >>> 52 - 1)

theorem units_eq {exponent fraction : Nat} (h : fraction < hiddenBit) :
    units (exponent * hiddenBit + fraction) =
      if exponent = 0 then fraction else (fraction + hiddenBit) * 2 ^ (exponent - 1) := by
  have hfraction : (exponent * hiddenBit + fraction) % hiddenBit = fraction := by
    rw [Nat.mul_add_mod_self_right, Nat.mod_eq_of_lt h]
  have hexponent : (exponent * hiddenBit + fraction) >>> 52 = exponent := by
    rw [Nat.shiftRight_eq_div_pow]
    change (exponent * hiddenBit + fraction) / hiddenBit = exponent
    rw [Nat.mul_comm, Nat.mul_add_div (by decide), Nat.div_eq_of_lt h, Nat.add_zero]
  rw [units, hfraction, hexponent]

/-- The next magnitude stands for a greater number. -/
theorem strictMono_units : StrictMono units := by
  apply strictMono_nat_of_lt_succ
  intro m
  have hfraction : m % hiddenBit < hiddenBit := Nat.mod_lt m (by decide)
  rw [← Nat.div_add_mod' m hiddenBit]
  generalize m / hiddenBit = exponent, m % hiddenBit = fraction at *
  rcases Nat.lt_or_eq_of_le (Nat.succ_le_of_lt hfraction) with hnext | hnext
  -- The next fraction, in the same exponent.
  · rw [Nat.add_assoc, units_eq hfraction, units_eq hnext]
    split
    · exact Nat.lt_succ_self fraction
    · exact Nat.mul_lt_mul_of_pos_right (by omega) (Nat.two_pow_pos _)
  -- The greatest fraction is followed by the least one in the next exponent.
  · have hcarry : exponent * hiddenBit + fraction + 1 = (exponent + 1) * hiddenBit + 0 := by
      rw [Nat.add_assoc, show fraction + 1 = hiddenBit from hnext, Nat.succ_mul, Nat.add_zero]
    rw [hcarry, units_eq hfraction, units_eq (by decide), if_neg (Nat.succ_ne_zero exponent),
      Nat.zero_add, Nat.add_sub_cancel]
    split
    · next hzero =>
      rw [hzero, Nat.pow_zero, Nat.mul_one]
      exact hfraction
    · next hne =>
      obtain ⟨k, rfl⟩ := Nat.exists_eq_succ_of_ne_zero hne
      rw [Nat.succ_sub_one, Nat.pow_succ', ← Nat.mul_assoc]
      exact Nat.mul_lt_mul_of_pos_right (by omega) (Nat.two_pow_pos _)

/-- What a number of a given rank stands for, in units of the least positive number. -/
def signedUnits (rank : Int) : Int :=
  if rank < 0 then -(units rank.natAbs : Int) else units rank.natAbs

theorem signedUnits_natCast (m : Nat) : signedUnits m = units m :=
  if_neg (Int.not_lt.mpr (Int.natCast_nonneg m))

theorem signedUnits_neg (r : Int) : signedUnits (-r) = -signedUnits r := by
  rcases lt_trichotomy r 0 with h | rfl | h
  · simp [signedUnits, h, h.le]
  · rfl
  · simp [signedUnits, h, h.le]

theorem signedUnits_lt_signedUnits {r s : Int} : signedUnits r < signedUnits s ↔ r < s := by
  have hmono : StrictMono signedUnits := by
    refine strictMono_of_odd_strictMonoOn_nonneg signedUnits_neg ?_
    intro r hr s hs hlt
    lift r to Nat using hr
    lift s to Nat using hs
    rw [signedUnits_natCast, signedUnits_natCast]
    exact_mod_cast strictMono_units (by exact_mod_cast hlt)
  exact hmono.lt_iff_lt

/-! ## Values -/

/-- The least positive number. -/
def leastPositive : ℚ := 2 ^ (-1074 : Int)

theorem leastPositive_pos : 0 < leastPositive := by
  unfold leastPositive
  positivity

/-- The rational number that a finite number stands for. -/
def toRat (x : Binary64) : ℚ :=
  (if x.isNegative then -1 else 1) * (x.decode.1 * 2 ^ x.decode.2)

theorem decode_eq (x : Binary64) :
    (x.decode.1 : ℚ) * 2 ^ x.decode.2 = units x.magnitude * leastPositive := by
  simp only [decode, units, leastPositive]
  split
  · rfl
  · next h =>
    have hexponent : (Int.ofNat (x.magnitude >>> 52) - 1075 : Int) =
        ((x.magnitude >>> 52 - 1 : Nat) : Int) + -1074 := by
      rw [Int.ofNat_eq_natCast]
      omega
    rw [hexponent, zpow_add₀ (by norm_num), zpow_natCast, ← mul_assoc]
    norm_cast

theorem toRat_eq (x : Binary64) : x.toRat = signedUnits x.rank * leastPositive := by
  rw [toRat, decode_eq, rank]
  split
  · rw [signedUnits_neg, signedUnits_natCast]
    push_cast
    ring
  · rw [signedUnits_natCast]
    push_cast
    ring

theorem toRat_lt_toRat {x y : Binary64} : x.toRat < y.toRat ↔ x.rank < y.rank := by
  rw [toRat_eq, toRat_eq, mul_lt_mul_iff_left₀ leastPositive_pos, Int.cast_lt,
    signedUnits_lt_signedUnits]

/-- The rational number or the infinity that a number other than the NaN stands for. -/
def extended (x : Binary64) : WithBot (WithTop ℚ) :=
  if x.magnitude < infinityBits then ((x.toRat : WithTop ℚ) : WithBot (WithTop ℚ))
  else if x.isNegative then ⊥ else ⊤

/-! ## Order -/

/-- A number other than the NaN is finite or one of the infinities, whose ranks are the
extreme ones. -/
theorem extended_cases {x : Binary64} (h : x.isNaN = false) :
    (x.extended = ((x.toRat : WithTop ℚ) : WithBot (WithTop ℚ)) ∧
        -(infinityBits : Int) < x.rank ∧ x.rank < infinityBits) ∨
      (x.extended = ⊤ ∧ x.rank = infinityBits) ∨ (x.extended = ⊥ ∧ x.rank = -infinityBits) := by
  have hle : x.magnitude ≤ infinityBits := Nat.le_of_not_lt (of_decide_eq_false h)
  rcases Nat.lt_or_eq_of_le hle with hfinite | hinfinite
  · refine .inl ⟨if_pos hfinite, ?_⟩
    unfold rank
    split <;> omega
  · have hinfinite' : ¬ x.magnitude < infinityBits := by omega
    rw [extended, if_neg hinfinite', rank, hinfinite]
    split
    · exact .inr (.inr ⟨rfl, rfl⟩)
    · exact .inr (.inl ⟨rfl, rfl⟩)

theorem extended_lt_extended {x y : Binary64} (hx : x.isNaN = false) (hy : y.isNaN = false) :
    x.extended < y.extended ↔ x.rank < y.rank := by
  have hpos : 0 < infinityBits := by decide
  obtain ⟨hx, hrank⟩ | ⟨hx, hrank⟩ | ⟨hx, hrank⟩ := extended_cases hx <;>
    obtain ⟨hy, hrank'⟩ | ⟨hy, hrank'⟩ | ⟨hy, hrank'⟩ := extended_cases hy <;>
    rw [hx, hy]
  · rw [WithBot.coe_lt_coe, WithTop.coe_lt_coe, toRat_lt_toRat]
  -- An infinity is beyond every finite number, in value and in rank.
  · exact iff_of_true (WithBot.coe_lt_coe.mpr (WithTop.coe_lt_top _)) (by omega)
  · exact iff_of_false not_lt_bot (by omega)
  · exact iff_of_false not_top_lt (by omega)
  · exact iff_of_false (lt_irrefl _) (by omega)
  · exact iff_of_false not_lt_bot (by omega)
  · exact iff_of_true (WithBot.bot_lt_coe _) (by omega)
  · exact iff_of_true bot_lt_top (by omega)
  · exact iff_of_false (lt_irrefl _) (by omega)

/-- Numbers other than the NaN order as their values do. -/
theorem compare_eq_compare_extended {x y : Binary64} (hx : x.isNaN = false)
    (hy : y.isNaN = false) : compare x y = compare x.extended y.extended := by
  have hless := extended_lt_extended hx hy
  have hgreater := extended_lt_extended hy hx
  rw [compare_def]
  rcases lt_trichotomy x.rank y.rank with h | h | h
  · rw [compare_lt_iff_lt.mpr h, compare_lt_iff_lt.mpr (hless.mpr h)]
  · have hvalues : x.extended = y.extended :=
      le_antisymm (not_lt.mp fun hlt => (hgreater.mp hlt).ne' h)
        (not_lt.mp fun hlt => (hless.mp hlt).ne h)
    rw [compare_eq_iff_eq.mpr h, compare_eq_iff_eq.mpr hvalues]
  · rw [compare_gt_iff_gt.mpr h, compare_gt_iff_gt.mpr (hgreater.mpr h)]

theorem eq_nan {x : Binary64} (h : x.isNaN = true) : x = nan := ext (x.canonical h)

/-- The NaN is greater than every other number. -/
theorem compare_nan {x : Binary64} (h : x.isNaN = false) : compare x nan = .lt := by
  have hpos : 0 < infinityBits := by decide
  have hnan : (infinityBits : Int) < nan.rank := by decide
  rw [compare_def, compare_lt_iff_lt]
  obtain ⟨-, hrank⟩ | ⟨-, hrank⟩ | ⟨-, hrank⟩ := extended_cases h <;> omega

end Binary64

end PullQuery
