import Mathlib.Data.List.Perm.Basic
import PullQuery.Hash.KeyHash

/-!
# Hashes of equal keys

Keys that are equal are the same value, but for the two zeros: these are equal floats with
different bit patterns, and hashes are taken of bit patterns. So the hashes of rows with equal
keys differ in bits that only depend on where the keys are zeros of opposite signs. Whether they
differ at all for a zero is up to the digest.

## Main definitions

* `Binary64.zero`, `Binary64.negativeZero`
* `KeyHasher.SeparatesZeros`: the hashes of the two zeros differ
* `KeyHasher.zeroSkew`: the bits in which the hashes of two lists of equal keys differ

## Main results

* `Value.eq_or_zeros_of_beq`: equal keys are the same value or zeros of opposite signs
* `KeyHasher.SeparatesZeros.hashValue_eq_iff`: of equal keys, only the same value has the same hash
* `KeyHasher.hashValues?_of_beq`: how hashes of rows with equal keys differ
-/

namespace PullQuery

/-! ## The two zeros -/

namespace Binary64

def zero : Binary64 := ofBits 0

def negativeZero : Binary64 := ofBits 0x8000000000000000

/-- The rank and the sign of a float determine its bits. -/
theorem toNat_bits_eq (x : Binary64) :
    (x.isNegative = true ∧ (x.bits.toNat : Int) = 0x8000000000000000 - x.rank ∧ x.rank ≤ 0) ∨
      (x.isNegative = false ∧ (x.bits.toNat : Int) = x.rank ∧ 0 ≤ x.rank) := by
  have hlt := x.bits.toNat_lt
  rw [rank]
  by_cases hx : x.isNegative = true
  · have hsign : signBit ≤ x.bits.toNat := of_decide_eq_true hx
    rw [if_pos hx, magnitude]
    rw [signBit] at hsign ⊢
    exact .inl ⟨hx, by omega, by omega⟩
  · have hsign : ¬ signBit ≤ x.bits.toNat := fun hle => hx (decide_eq_true hle)
    rw [if_neg hx, magnitude]
    rw [signBit] at hsign ⊢
    exact .inr ⟨Bool.eq_false_iff.mpr hx, by omega, by omega⟩

/-- Floats of one rank are the same but for the sign of zero. -/
theorem eq_or_zeros_of_sameNumber {x y : Binary64} (h : x.sameNumber y = true) :
    x = y ∨ x = zero ∧ y = negativeZero ∨ x = negativeZero ∧ y = zero := by
  have hrank : x.rank = y.rank := beq_iff_eq.mp h
  have hbits {z : Binary64} {b : Nat} (hz : z.bits.toNat = b) : z.bits = UInt64.ofNat b :=
    hz ▸ UInt64.ofNat_toNat.symm
  obtain ⟨-, hx, hxsign⟩ | ⟨-, hx, hxsign⟩ := x.toNat_bits_eq <;>
    obtain ⟨-, hy, hysign⟩ | ⟨-, hy, hysign⟩ := y.toNat_bits_eq
  · exact .inl (ext (UInt64.toNat_inj.mp (by omega)))
  -- A rank without a sign is that of zero.
  · exact .inr (.inr ⟨ext (hbits (b := 0x8000000000000000) (by omega)),
      ext (hbits (b := 0) (by omega))⟩)
  · exact .inr (.inl ⟨ext (hbits (b := 0) (by omega)),
      ext (hbits (b := 0x8000000000000000) (by omega))⟩)
  · exact .inl (ext (UInt64.toNat_inj.mp (by omega)))

end Binary64

namespace Value

/-- Equal keys are the same value or zeros of opposite signs. -/
theorem eq_or_zeros_of_beq {v w : Value} (h : (v == w) = true) :
    v = w ∨ v = float64 .zero ∧ w = float64 .negativeZero ∨
      v = float64 .negativeZero ∧ w = float64 .zero := by
  rw [beq_def] at h
  unfold same at h
  split at h
  case h_5 x y =>
    rcases Binary64.eq_or_zeros_of_sameNumber h with rfl | ⟨rfl, rfl⟩ | ⟨rfl, rfl⟩
    · exact .inl rfl
    · exact .inr (.inl ⟨rfl, rfl⟩)
    · exact .inr (.inr ⟨rfl, rfl⟩)
  all_goals first | contradiction | exact .inl rfl | exact .inl (beq_iff_eq.mp h ▸ rfl)

theorem isNull_eq_of_beq {v w : Value} (h : (v == w) = true) : v.isNull = w.isNull := by
  rcases eq_or_zeros_of_beq h with rfl | ⟨rfl, rfl⟩ | ⟨rfl, rfl⟩ <;> rfl

theorem eq_of_beq_of_isNull {v w : Value} (h : (v == w) = true) (hnull : v.isNull = true) :
    v = w := by
  rcases eq_or_zeros_of_beq h with rfl | ⟨rfl, rfl⟩ | ⟨rfl, rfl⟩
  · rfl
  · contradiction
  · contradiction

end Value

/-- Rotates a hash by one bit to the left. -/
def rotateHashLeft (h : UInt32) : UInt32 := h <<< 1 ||| h >>> 31

theorem rotateHashLeft_xor (g h : UInt32) :
    rotateHashLeft (g ^^^ h) = rotateHashLeft g ^^^ rotateHashLeft h := by
  apply UInt32.toBitVec_inj.mp
  ext i hi
  simp [rotateHashLeft]
  grind

namespace KeyHasher

variable {k : KeyHasher} {v w : Value} {vs ws : List Value}

/-! ## Hashes of one key -/

/-- The bits in which the hashes of the two zeros differ. -/
def zeroHashSkew (k : KeyHasher) : UInt32 :=
  k.hashValue (.float64 .zero) ^^^ k.hashValue (.float64 .negativeZero)

/-- Whether the hashes of the two zeros differ, whose bit patterns do. -/
def SeparatesZeros (k : KeyHasher) : Prop :=
  k.hashValue (.float64 .zero) ≠ k.hashValue (.float64 .negativeZero)

theorem separatesZeros_folding (keepNulls : Bool) : (folding keepNulls).SeparatesZeros := by
  show (Value.float64 .zero).keyHash ≠ (Value.float64 .negativeZero).keyHash
  decide

theorem SeparatesZeros.zeroHashSkew_ne_zero (hk : k.SeparatesZeros) : k.zeroHashSkew ≠ 0 :=
  fun h => hk (UInt32.xor_eq_zero_iff.mp h)

/-- The bits in which the hashes of two equal keys differ. -/
def hashSkew (k : KeyHasher) (v w : Value) : UInt32 := if v = w then 0 else k.zeroHashSkew

theorem SeparatesZeros.hashSkew_eq_zero_iff (hk : k.SeparatesZeros) :
    k.hashSkew v w = 0 ↔ v = w := by
  rw [hashSkew]
  split
  · next h => exact iff_of_true rfl h
  · next h => exact iff_of_false hk.zeroHashSkew_ne_zero h

theorem hashValue_xor (h : (v == w) = true) :
    k.hashValue v ^^^ k.hashValue w = k.hashSkew v w := by
  rcases Value.eq_or_zeros_of_beq h with rfl | ⟨rfl, rfl⟩ | ⟨rfl, rfl⟩
  · rw [hashSkew, if_pos rfl, UInt32.xor_self]
  · rfl
  · rw [UInt32.xor_comm]
    rfl

/-- Equal keys have the same hash exactly if they are the same value. -/
theorem SeparatesZeros.hashValue_eq_iff (hk : k.SeparatesZeros) (h : (v == w) = true) :
    k.hashValue v = k.hashValue w ↔ v = w := by
  rw [← hk.hashSkew_eq_zero_iff, ← hashValue_xor h, UInt32.xor_eq_zero_iff]

/-! ## Hashes of several keys -/

/-- The bits in which the hashes of two lists of equal keys differ, from those in which the
hashes of the keys before them do. -/
def zeroSkew (k : KeyHasher) : UInt32 → List Value → List Value → UInt32
  | d, v :: vs, w :: ws => k.zeroSkew (rotateHashLeft d ^^^ k.hashSkew v w) vs ws
  | d, _, _ => d

/-- Rows with the same keys have the same hash. -/
theorem zeroSkew_self (k : KeyHasher) (vs : List Value) : k.zeroSkew 0 vs vs = 0 := by
  induction vs with
  | nil => rfl
  | cons v vs ih =>
    rw [zeroSkew, hashSkew, if_pos rfl]
    exact ih

theorem contribution?_of_beq (h : (v == w) = true) :
    k.contribution? w = (k.contribution? v).map (· ^^^ k.hashSkew v w) := by
  unfold contribution?
  rw [← Value.isNull_eq_of_beq h]
  split
  · -- NULL is equal to itself only, and adds the same to both hashes.
    next hnull =>
    have hsame := Value.eq_of_beq_of_isNull h hnull
    rw [hashSkew, if_pos hsame]
    cases k.keepNulls <;> rfl
  · rw [← hashValue_xor h, Option.map_some, ← UInt32.xor_assoc, UInt32.xor_self,
      UInt32.zero_xor]

theorem combine_of_beq (h : (vs == ws) = true) (g d : UInt32) :
    k.combine (g ^^^ d) ws = (k.combine g vs).map (· ^^^ k.zeroSkew d vs ws) := by
  induction vs generalizing ws g d with
  | nil =>
    cases ws with
    | nil => rfl
    | cons w ws => contradiction
  | cons v vs ih =>
    cases ws with
    | nil => contradiction
    | cons w ws =>
      rw [List.cons_beq_cons, Bool.and_eq_true] at h
      rw [combine, combine, contribution?_of_beq h.1]
      rcases k.contribution? v with _ | c
      · rfl
      · -- One step keeps the difference apart from the hash of the first list.
        have hstep : rotateHashLeft (g ^^^ d) ^^^ (c ^^^ k.hashSkew v w) =
            (rotateHashLeft g ^^^ c) ^^^ (rotateHashLeft d ^^^ k.hashSkew v w) := by
          rw [rotateHashLeft_xor]
          ac_rfl
        change k.combine (rotateHashLeft (g ^^^ d) ^^^ (c ^^^ k.hashSkew v w)) ws =
          (k.combine (rotateHashLeft g ^^^ c) vs).map
            (· ^^^ k.zeroSkew (rotateHashLeft d ^^^ k.hashSkew v w) vs ws)
        rw [hstep]
        exact ih h.2 _ _

/-- The hashes of rows with equal keys differ by the skew of their zeros. -/
theorem hashValues?_of_beq (h : (vs == ws) = true) :
    k.hashValues? ws = (k.hashValues? vs).map (· ^^^ k.zeroSkew 0 vs ws) :=
  combine_of_beq h 0 0

/-- A row with equal keys has the same hash exactly if the skew of the zeros is zero. -/
theorem hashValues?_eq_some_iff {hash : UInt32} (h : (vs == ws) = true)
    (hvs : k.hashValues? vs = some hash) :
    k.hashValues? ws = some hash ↔ k.zeroSkew 0 vs ws = 0 := by
  rw [hashValues?_of_beq h, hvs, Option.map_some, Option.some_inj]
  constructor
  · intro hsame
    -- The common hash cancels.
    have hskew := congrArg (hash ^^^ ·) hsame
    simpa only [← UInt32.xor_assoc, UInt32.xor_self, UInt32.zero_xor] using hskew
  · intro hskew
    rw [hskew, UInt32.xor_zero]

end KeyHasher

end PullQuery
