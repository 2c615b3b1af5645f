/-!
# Counts and powers of two

Sizes are summed over lists, and saturate at the greatest 64-bit number where they are only
estimated. Tables are sized by powers of two.

## Main definitions

* `sumBy`: the sum of a size over a list
* `maxCount`, `saturatingAdd`, `saturatingMul`
* `ceilLog2`, `nextPowerOfTwo`

## Main results

* `le_nextPowerOfTwo`, `lt_of_lt_ceilLog2`: the next power of two is the least one that is not
  below a number
-/

namespace PullQuery

/-! ## Sums -/

/-- The sum of the sizes of elements. -/
def sumBy {α : Type} (size : α → Nat) : List α → Nat
  | [] => 0
  | x :: xs => size x + sumBy size xs

@[simp]
theorem sumBy_nil {α : Type} (size : α → Nat) : sumBy size [] = 0 := rfl

@[simp]
theorem sumBy_cons {α : Type} (size : α → Nat) (x : α) (xs : List α) :
    sumBy size (x :: xs) = size x + sumBy size xs := rfl

theorem sumBy_append {α : Type} (size : α → Nat) (xs ys : List α) :
    sumBy size (xs ++ ys) = sumBy size xs + sumBy size ys := by
  induction xs with
  | nil => simp
  | cons x xs ih => simp [ih, Nat.add_assoc]

/-- The order of the elements does not matter to the sum. -/
theorem sumBy_perm {α : Type} (size : α → Nat) {xs ys : List α} (h : xs.Perm ys) :
    sumBy size xs = sumBy size ys := by
  induction h with
  | nil => rfl
  | cons x _ ih => rw [sumBy_cons, sumBy_cons, ih]
  | swap x y xs =>
    simp only [sumBy_cons]
    omega
  | trans _ _ ih ih' => exact ih.trans ih'

theorem le_sumBy_of_mem {α : Type} (size : α → Nat) {x : α} {xs : List α} (h : x ∈ xs) :
    size x ≤ sumBy size xs := by
  induction xs with
  | nil => contradiction
  | cons y ys ih =>
    rw [sumBy_cons]
    rcases List.mem_cons.mp h with rfl | h
    · exact Nat.le_add_right ..
    · exact Nat.le_trans (ih h) (Nat.le_add_left ..)

/-! ## Saturation -/

/-- The greatest 64-bit number. -/
def maxCount : Nat := 0xffffffffffffffff

def saturatingAdd (a b : Nat) : Nat := min (a + b) maxCount

def saturatingMul (a b : Nat) : Nat := min (a * b) maxCount

/-! ## Powers of two -/

/-- The exponent of the least power of two that is not below a number. -/
def ceilLog2 (n : Nat) : Nat := if n ≤ 1 then 0 else (n - 1).log2 + 1

/-- The least power of two that is not below a number. -/
def nextPowerOfTwo (n : Nat) : Nat := 1 <<< ceilLog2 n

theorem le_nextPowerOfTwo (n : Nat) : n ≤ nextPowerOfTwo n := by
  rw [nextPowerOfTwo, Nat.one_shiftLeft]
  unfold ceilLog2
  split
  · next h => simpa using h
  · have := Nat.lt_log2_self (n := n - 1)
    omega

/-- No smaller power of two reaches the number. -/
theorem lt_of_lt_ceilLog2 {n k : Nat} (h : k < ceilLog2 n) : 1 <<< k < n := by
  rw [Nat.one_shiftLeft]
  unfold ceilLog2 at h
  split at h
  · omega
  · next hn =>
    -- A smaller exponent is at most the logarithm of `n - 1`.
    have h₁ : 2 ^ k ≤ 2 ^ (n - 1).log2 := Nat.pow_le_pow_right (by decide) (by omega)
    have h₂ := Nat.log2_self_le (n := n - 1) (by omega)
    omega

end PullQuery
