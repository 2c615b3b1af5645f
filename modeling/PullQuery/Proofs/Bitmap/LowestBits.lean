import Mathlib.Algebra.Order.Group.Nat
import PullQuery.Bitmap.Words

/-!
# Words bit by bit

The places of a word are noted by clearing its lowest bit until no bit is left. One subtracted
from a word turns its lowest bit off and the bits below on, and leaves the bits above as they are,
so that nothing else is cleared.

## Main results

* `testBit_clearLowest`: what is left of a word without its lowest bit
* `mem_places`, `pairwise_places`, `length_places`: the places are those whose bit is set, from the
  lowest, each one once
-/

namespace PullQuery

variable {w : UInt64}

theorem eq_zero_of_testBit (h : ∀ i, w.toNat.testBit i = false) : w = 0 := by
  apply UInt64.toNat_inj.mp
  apply Nat.eq_of_testBit_eq
  intro i
  rw [h, UInt64.toNat_zero, Nat.zero_testBit]

theorem lt_wordBits_of_testBit {i : Nat} (h : w.toNat.testBit i = true) : i < wordBits := by
  apply Nat.lt_of_not_le
  intro hle
  rw [testBit_eq_false_of_wordBits_le w hle] at h
  contradiction

/-- Words are equal if their bits are. -/
theorem eq_of_testBit_eq {v : UInt64}
    (h : ∀ i < wordBits, w.toNat.testBit i = v.toNat.testBit i) : w = v := by
  apply UInt64.toNat_inj.mp
  apply Nat.eq_of_testBit_eq
  intro i
  rcases Nat.lt_or_ge i wordBits with hi | hi
  · exact h i hi
  · rw [testBit_eq_false_of_wordBits_le w hi, testBit_eq_false_of_wordBits_le v hi]

/-! ## The lowest bit -/

/-- The lowest place has its bit set, and no place below has. -/
theorem lowestPlace_spec (h : w ≠ 0) :
    w.toNat.testBit (lowestPlace w) = true ∧
      ∀ i < lowestPlace w, w.toNat.testBit i = false := by
  unfold lowestPlace
  cases hfind : (List.range wordBits).find? fun i => w.toNat.testBit i with
  | none =>
    refine absurd (eq_zero_of_testBit fun i => ?_) h
    rcases Nat.lt_or_ge i wordBits with hi | hi
    · simpa using List.find?_range_eq_none.mp hfind i hi
    · exact testBit_eq_false_of_wordBits_le w hi
  | some place =>
    obtain ⟨hbit, -, hbelow⟩ := List.find?_range_eq_some.mp hfind
    exact ⟨hbit, fun i hi => by simpa using hbelow i hi⟩

/-- One subtracted from a number turns its lowest bit off and the bits below on. -/
theorem testBit_sub_one {n place : Nat} (hbit : n.testBit place = true)
    (hbelow : ∀ i < place, n.testBit i = false) (i : Nat) :
    (n - 1).testBit i = (decide (i < place) || n.testBit i && decide (i ≠ place)) := by
  induction place generalizing n i with
  | zero =>
    -- The number is odd, and only its last bit goes.
    have hodd : n % 2 = 1 := by simpa using hbit
    cases i with
    | zero =>
      have heven : (n - 1) % 2 = 0 := by omega
      simp [heven]
    | succ i =>
      have hhalf : (n - 1) / 2 = n / 2 := by omega
      simp [Nat.testBit_succ, hhalf]
  | succ place ih =>
    -- The number is even, and its half loses one as well.
    have heven : n % 2 = 0 := by simpa using hbelow 0 (Nat.succ_pos place)
    have hpos : n ≠ 0 := by
      rintro rfl
      simp at hbit
    cases i with
    | zero =>
      have hodd : (n - 1) % 2 = 1 := by omega
      simp [hodd]
    | succ i =>
      have hhalf : (n - 1) / 2 = n / 2 - 1 := by omega
      rw [Nat.testBit_succ] at hbit
      have hrest : ∀ j < place, (n / 2).testBit j = false := by
        intro j hj
        rw [← Nat.testBit_succ]
        exact hbelow (j + 1) (Nat.succ_lt_succ hj)
      simp [Nat.testBit_succ, hhalf, ih hbit hrest]

/-- Clearing the lowest bit leaves the others. -/
theorem testBit_clearLowest (h : w ≠ 0) (i : Nat) :
    (w &&& (w - 1)).toNat.testBit i = (w.toNat.testBit i && decide (i ≠ lowestPlace w)) := by
  obtain ⟨hbit, hbelow⟩ := lowestPlace_spec h
  have hone : (1 : UInt64) ≤ w := by
    rw [UInt64.le_iff_toNat_le, UInt64.toNat_one]
    exact Nat.pos_of_ne_zero fun hzero => h (UInt64.toNat_inj.mp hzero)
  rw [UInt64.toNat_and, Nat.testBit_and, UInt64.toNat_sub_of_le _ _ hone, UInt64.toNat_one,
    testBit_sub_one hbit hbelow]
  rcases Nat.lt_trichotomy i (lowestPlace w) with hi | rfl | hi
  · simp [hbelow i hi]
  · simp
  · simp [hi.ne', hi.not_gt]

theorem ones_eq_ones_clearLowest (h : w ≠ 0) : ones w = ones (w &&& (w - 1)) + 1 := by
  have hbit := (lowestPlace_spec h).1
  have hplace := lt_wordBits_of_testBit hbit
  have hcleared : (w &&& (w - 1)).toNat.testBit (lowestPlace w) = false := by
    rw [testBit_clearLowest h]
    simp
  have hset : w = w &&& (w - 1) ||| bitAt (lowestPlace w) := by
    apply eq_of_testBit_eq
    intro i _
    rw [UInt64.toNat_or, Nat.testBit_or, testBit_clearLowest h, testBit_bitAt hplace]
    by_cases hi : i = lowestPlace w
    · simp [hi, hbit]
    · simp [hi, Ne.symm hi]
  conv => lhs; rw [hset]
  exact ones_or_bitAt hplace hcleared

theorem ones_le_wordBits (w : UInt64) : ones w ≤ wordBits :=
  List.countP_le_length.trans_eq List.length_range

/-! ## The places of a word -/

theorem length_places {fuel : Nat} (h : ones w ≤ fuel) : (places fuel w).length = ones w := by
  induction fuel generalizing w with
  | zero => exact (Nat.le_zero.mp h).symm
  | succ fuel ih =>
    rw [places]
    split
    · next hzero =>
      rw [hzero]
      rfl
    · next hne =>
      have hones := ones_eq_ones_clearLowest hne
      rw [List.length_cons, ih (by omega), hones]

theorem mem_places {fuel i : Nat} (h : ones w ≤ fuel) :
    i ∈ places fuel w ↔ w.toNat.testBit i = true := by
  induction fuel generalizing w with
  | zero =>
    by_cases hzero : w = 0
    · simp [hzero, places]
    · have := ones_eq_ones_clearLowest hzero
      omega
  | succ fuel ih =>
    rw [places]
    split
    · next hzero => simp [hzero]
    · next hne =>
      have hones := ones_eq_ones_clearLowest hne
      rw [List.mem_cons, ih (by omega), testBit_clearLowest hne, Bool.and_eq_true,
        decide_eq_true_eq]
      constructor
      · rintro (rfl | ⟨hbit, -⟩)
        · exact (lowestPlace_spec hne).1
        · exact hbit
      · intro hbit
        by_cases hi : i = lowestPlace w
        · exact .inl hi
        · exact .inr ⟨hbit, hi⟩

/-- The places come in increasing order: those that follow the lowest one keep their bit when it is
cleared. -/
theorem pairwise_places {fuel : Nat} (h : ones w ≤ fuel) :
    (places fuel w).Pairwise fun i j => i < j := by
  induction fuel generalizing w with
  | zero => exact List.Pairwise.nil
  | succ fuel ih =>
    rw [places]
    split
    · exact List.Pairwise.nil
    · next hne =>
      have hones := ones_eq_ones_clearLowest hne
      refine List.pairwise_cons.mpr ⟨fun i hi => ?_, ih (by omega)⟩
      rw [mem_places (by omega), testBit_clearLowest hne, Bool.and_eq_true,
        decide_eq_true_eq] at hi
      have hnot : ¬ i < lowestPlace w := by
        intro hlt
        rw [(lowestPlace_spec hne).2 i hlt] at hi
        exact Bool.false_ne_true hi.1
      omega

end PullQuery
