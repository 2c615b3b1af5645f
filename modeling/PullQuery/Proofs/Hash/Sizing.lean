import Mathlib.Algebra.Order.Group.Nat
import PullQuery.Hash.Config

/-!
# The sizes of a hash table

From an estimate of its rows a table gets the least number of batches of which one has room for
its share, among the powers of two up to a limit. All sizes are powers of two within fixed bounds,
and no step of their computation leaves the 64-bit numbers or divides by zero, whatever the budget,
the limit and the estimate are.

## Main definitions

* `word?`, `wordCeilDiv?`: arithmetic on 64-bit numbers that may have no result
* `HashTableConfig.inWords?`: the sizes as this arithmetic gives them
* `HashTableConfig.Tight`: sizes that are the least for an estimate

## Main results

* `nextPowerOfTwo_le_iff`: the next power of two is the least one that is not below a number
* `HashTableConfig.lt_ceilDiv_iff`: the quotient rounded up is the least number of shares
* `HashTableConfig.estimatedMemory_eq`: saturating twice is saturating once
* `HashTableConfig.forEstimate_tight`
-/

namespace PullQuery

/-! ## Powers of two -/

theorem nextPowerOfTwo_eq (n : Nat) : nextPowerOfTwo n = 2 ^ ceilLog2 n := Nat.one_shiftLeft _

theorem isPowerOfTwo_nextPowerOfTwo (n : Nat) : (nextPowerOfTwo n).isPowerOfTwo :=
  ⟨ceilLog2 n, nextPowerOfTwo_eq n⟩

/-- The next power of two is the least one that is not below a number. -/
theorem nextPowerOfTwo_le_iff {n k : Nat} : nextPowerOfTwo n ≤ 2 ^ k ↔ n ≤ 2 ^ k := by
  refine ⟨(le_nextPowerOfTwo n).trans, fun h => ?_⟩
  rw [nextPowerOfTwo_eq]
  apply Nat.pow_le_pow_right (by decide)
  by_contra hlt
  have hbelow := lt_of_lt_ceilLog2 (Nat.not_le.mp hlt)
  rw [Nat.one_shiftLeft] at hbelow
  exact absurd h (Nat.not_le.mpr hbelow)

/-- Half of the next power of two is below the number. -/
theorem nextPowerOfTwo_half_lt {n : Nat} (h : 0 < n) : nextPowerOfTwo n / 2 < n := by
  rw [nextPowerOfTwo_eq]
  rcases hlog : ceilLog2 n with _ | k
  · simpa using h
  · rw [Nat.pow_succ, Nat.mul_div_cancel _ (by decide), ← Nat.one_shiftLeft]
    exact lt_of_lt_ceilLog2 (by omega)

/-! ## Checked arithmetic -/

/-- A number, if it is a 64-bit number. -/
def word? (n : Nat) : Option Nat := if n ≤ maxCount then some n else none

theorem word?_eq_some {n : Nat} (h : n ≤ maxCount) : word? n = some n := if_pos h

theorem saturatingAdd_le (a b : Nat) : saturatingAdd a b ≤ maxCount := Nat.min_le_right ..

theorem saturatingMul_le (a b : Nat) : saturatingMul a b ≤ maxCount := Nat.min_le_right ..

namespace HashTableConfig

/-- A quotient rounded up, if there is one among the 64-bit numbers. -/
def wordCeilDiv? (a b : Nat) : Option Nat := if b = 0 then none else word? (ceilDiv a b)

/-- The quotient rounded up is the least number of shares that suffice. -/
theorem lt_ceilDiv_iff {a b k : Nat} (hb : 0 < b) : k < ceilDiv a b ↔ k * b < a := by
  have hdiv := Nat.div_add_mod a b
  have hle : k ≤ a / b ↔ k * b ≤ a := Nat.le_div_iff_mul_le hb
  unfold ceilDiv
  split
  · next hexact =>
    -- Without a remainder the quotient times the divisor is the number itself.
    rw [hexact, Nat.add_zero] at hdiv
    rw [← Nat.mul_lt_mul_right hb, Nat.mul_comm (a / b), hdiv]
  · next hrest =>
    rw [Nat.lt_succ_iff, hle]
    refine ⟨fun h => Nat.lt_of_le_of_ne h ?_, Nat.le_of_lt⟩
    rintro rfl
    exact hrest (Nat.mul_mod_left k b)

theorem le_ceilDiv_mul (a : Nat) {b : Nat} (hb : 0 < b) : a ≤ ceilDiv a b * b :=
  Nat.not_lt.mp fun h => Nat.lt_irrefl _ ((lt_ceilDiv_iff hb).mpr h)

theorem ceilDiv_le_iff {a b k : Nat} (hb : 0 < b) : ceilDiv a b ≤ k ↔ a ≤ k * b := by
  rw [← Nat.not_lt, lt_ceilDiv_iff hb, Nat.not_lt]

theorem ceilDiv_le_self (a : Nat) {b : Nat} (hb : 0 < b) : ceilDiv a b ≤ a :=
  (ceilDiv_le_iff hb).mpr (Nat.le_mul_of_pos_right a hb)

/-- The memory of the rows saturates as if it were computed at once. -/
theorem estimatedMemory_eq (rows width : Nat) :
    estimatedMemory rows width = min (rows * (width + tupleOverhead)) maxCount := by
  unfold estimatedMemory saturatingMul saturatingAdd
  rcases Nat.le_total (width + tupleOverhead) maxCount with h | h
  · rw [Nat.min_eq_left h]
  · rw [Nat.min_eq_right h]
    rcases rows with _ | rows
    · simp
    · -- One row alone takes all there is.
      have hrow : maxCount ≤ (rows + 1) * maxCount := Nat.le_mul_of_pos_left _ (Nat.succ_pos _)
      have hwide : maxCount ≤ (rows + 1) * (width + tupleOverhead) :=
        hrow.trans (Nat.mul_le_mul_left _ h)
      rw [Nat.min_eq_right hrow, Nat.min_eq_right hwide]

/-! ## Sizes -/

/-- The sizes of a table as arithmetic on 64-bit numbers gives them; none if a step leaves these
numbers or divides by zero. -/
def inWords? (workMem maxBatches rows width : Nat) : Option HashTableConfig := do
  let maxBatches ← word? (nextPowerOfTwo (max 1 (min maxBatches batchLimit)))
  let buckets ← word? (nextPowerOfTwo (max minBuckets (min rows maxBuckets)))
  let rowMemory ← word? (saturatingAdd width tupleOverhead)
  let total ← word? (saturatingMul rows rowMemory)
  if total ≤ workMem then some { workMem, maxBatches, batches := 1, buckets }
  else do
    let wanted ← wordCeilDiv? total (max workMem 1)
    let batches ← word? (nextPowerOfTwo (min wanted maxBatches))
    some { workMem, maxBatches, batches, buckets }

variable (workMem maxBatches rows width : Nat)

theorem maxBatches_le :
    nextPowerOfTwo (max 1 (min maxBatches batchLimit)) ≤ 2 ^ 31 :=
  nextPowerOfTwo_le_iff.mpr (by unfold batchLimit; omega)

theorem le_buckets : 1024 ≤ nextPowerOfTwo (max minBuckets (min rows maxBuckets)) :=
  (Nat.le_max_left ..).trans (le_nextPowerOfTwo _)

theorem buckets_le : nextPowerOfTwo (max minBuckets (min rows maxBuckets)) ≤ 2 ^ 20 :=
  nextPowerOfTwo_le_iff.mpr (by unfold minBuckets maxBuckets; omega)

/-- A number of batches that is cut off at a power of two is not above it. -/
theorem nextPowerOfTwo_min_le (wanted n : Nat) :
    nextPowerOfTwo (min wanted (nextPowerOfTwo n)) ≤ nextPowerOfTwo n := by
  rw [nextPowerOfTwo_eq n]
  exact nextPowerOfTwo_le_iff.mpr (Nat.min_le_right ..)

/-- Every step of the sizing has a result. -/
theorem inWords?_eq_some :
    inWords? workMem maxBatches rows width = some (forEstimate workMem maxBatches rows width) := by
  have hmax := maxBatches_le maxBatches
  have hbuckets := buckets_le rows
  have hpos : 0 < max workMem 1 := by omega
  have hbatches := nextPowerOfTwo_min_le
    (ceilDiv (saturatingMul rows (saturatingAdd width tupleOverhead)) (max workMem 1))
    (max 1 (min maxBatches batchLimit))
  have hlimit : (2 ^ 31 : Nat) ≤ maxCount := by decide
  have hlimit' : (2 ^ 20 : Nat) ≤ maxCount := by decide
  simp only [inWords?, bind, Option.bind, word?_eq_some (hmax.trans hlimit),
    word?_eq_some (hbuckets.trans hlimit'), word?_eq_some (saturatingAdd_le ..),
    word?_eq_some (saturatingMul_le ..), wordCeilDiv?, if_neg (Nat.ne_of_gt hpos),
    word?_eq_some ((ceilDiv_le_self _ hpos).trans (saturatingMul_le ..)),
    word?_eq_some ((hbatches.trans hmax).trans hlimit)]
  unfold forEstimate single estimatedMemory
  dsimp only
  split <;> rfl

section Batches

variable {workMem rows width : Nat}

theorem batches_forEstimate_of_le (h : estimatedMemory rows width ≤ workMem) :
    (forEstimate workMem maxBatches rows width).batches = 1 := by
  simp only [forEstimate, if_pos h]

theorem batches_forEstimate_of_lt (h : workMem < estimatedMemory rows width) :
    (forEstimate workMem maxBatches rows width).batches =
      nextPowerOfTwo (min (ceilDiv (estimatedMemory rows width) (max workMem 1))
        (forEstimate workMem maxBatches rows width).maxBatches) := by
  simp only [forEstimate, if_neg (Nat.not_le.mpr h)]

end Batches

/-- The number of batches suffices for the estimate, unless it is cut off, and no smaller power of
two does. -/
theorem batches_tight {total workMem limit : Nat} (hlimit : limit.isPowerOfTwo)
    (htotal : workMem < total) :
    (nextPowerOfTwo (min (ceilDiv total (max workMem 1)) limit) ≠ limit →
      total ≤ nextPowerOfTwo (min (ceilDiv total (max workMem 1)) limit) * max workMem 1) ∧
    nextPowerOfTwo (min (ceilDiv total (max workMem 1)) limit) / 2 * max workMem 1 < total ∧
    ∀ k, total ≤ 2 ^ k * max workMem 1 →
      nextPowerOfTwo (min (ceilDiv total (max workMem 1)) limit) ≤ 2 ^ k := by
  obtain ⟨m, rfl⟩ := hlimit
  have hpos : 0 < max workMem 1 := by omega
  generalize max workMem 1 = w at hpos ⊢
  have hwanted : 0 < ceilDiv total w := (lt_ceilDiv_iff hpos).mpr (by omega)
  refine ⟨fun hcut => ?_, ?_, fun k hk => ?_⟩
  · -- Were the limit below what is wanted, the number of batches would be the limit.
    rcases Nat.le_total (ceilDiv total w) (2 ^ m) with hle | hle
    · rw [Nat.min_eq_left hle]
      exact (le_ceilDiv_mul total hpos).trans (Nat.mul_le_mul_right w (le_nextPowerOfTwo _))
    · rw [Nat.min_eq_right hle] at hcut
      exact absurd (Nat.le_antisymm (nextPowerOfTwo_le_iff.mpr le_rfl) (le_nextPowerOfTwo _)) hcut
  · have hsome : 0 < min (ceilDiv total w) (2 ^ m) :=
      Nat.lt_min.mpr ⟨hwanted, Nat.two_pow_pos m⟩
    exact (lt_ceilDiv_iff hpos).mp
      ((nextPowerOfTwo_half_lt hsome).trans_le (Nat.min_le_left ..))
  · exact nextPowerOfTwo_le_iff.mpr ((Nat.min_le_left ..).trans ((ceilDiv_le_iff hpos).mpr hk))

/-- Whether sizes are within their bounds and the number of batches is the least for an estimate of
the memory. -/
structure Tight (c : HashTableConfig) (workMem total : Nat) : Prop where
  isPowerOfTwo : c.batches.isPowerOfTwo ∧ c.buckets.isPowerOfTwo ∧ c.maxBatches.isPowerOfTwo
  batches_le : c.batches ≤ c.maxBatches ∧ c.maxBatches ≤ 2 ^ 31
  buckets_mem : 1024 ≤ c.buckets ∧ c.buckets ≤ 2 ^ 20
  /-- What the budget has room for is not divided. -/
  batches_eq_one : total ≤ workMem → c.batches = 1
  /-- Each batch has room for its share, unless there are as many batches as there may be. -/
  le_mul : workMem < total → c.batches ≠ c.maxBatches → total ≤ c.batches * max workMem 1
  half_mul_lt : workMem < total → c.batches / 2 * max workMem 1 < total
  least : workMem < total → ∀ k, total ≤ 2 ^ k * max workMem 1 → c.batches ≤ 2 ^ k

/-- Whatever the budget, the limit of batches and the estimate are, the sizes of a table are
computed without leaving the 64-bit numbers or dividing by zero. They are powers of two within
their bounds, and the number of batches is the least power of two of which each batch has room for
its share of the estimate, or the limit of batches if that is less. -/
theorem forEstimate_tight (workMem maxBatches rows width : Nat) :
    inWords? workMem maxBatches rows width = some (forEstimate workMem maxBatches rows width) ∧
      (forEstimate workMem maxBatches rows width).Tight workMem
        (min (rows * (width + tupleOverhead)) maxCount) := by
  refine ⟨inWords?_eq_some .., ?_⟩
  rw [← estimatedMemory_eq]
  have hlimit : (forEstimate workMem maxBatches rows width).maxBatches.isPowerOfTwo :=
    isPowerOfTwo_nextPowerOfTwo _
  have hbatches : (forEstimate workMem maxBatches rows width).batches.isPowerOfTwo ∧
      (forEstimate workMem maxBatches rows width).batches ≤
        (forEstimate workMem maxBatches rows width).maxBatches := by
    rcases Nat.lt_or_ge workMem (estimatedMemory rows width) with hlarge | hfits
    · rw [batches_forEstimate_of_lt maxBatches hlarge]
      exact ⟨isPowerOfTwo_nextPowerOfTwo _, nextPowerOfTwo_min_le ..⟩
    · rw [batches_forEstimate_of_le maxBatches hfits]
      exact ⟨⟨0, rfl⟩, Nat.pos_of_isPowerOfTwo hlimit⟩
  refine ⟨⟨hbatches.1, isPowerOfTwo_nextPowerOfTwo _, hlimit⟩,
    ⟨hbatches.2, maxBatches_le maxBatches⟩, ⟨le_buckets rows, buckets_le rows⟩,
    batches_forEstimate_of_le maxBatches, ?_, ?_, ?_⟩
  · intro hlarge
    rw [batches_forEstimate_of_lt maxBatches hlarge]
    exact (batches_tight hlimit hlarge).1
  · intro hlarge
    rw [batches_forEstimate_of_lt maxBatches hlarge]
    exact (batches_tight hlimit hlarge).2.1
  · intro hlarge
    rw [batches_forEstimate_of_lt maxBatches hlarge]
    exact (batches_tight hlimit hlarge).2.2

/-- Two rows of the greatest width there is. -/
example : (forEstimate 0x10000 1000 2 maxCount).batches = 1024 := by decide

end HashTableConfig

end PullQuery
