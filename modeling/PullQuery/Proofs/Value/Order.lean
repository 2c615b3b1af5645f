import PullQuery.Proofs.Index.Multiset
import PullQuery.Proofs.Index.Scan
import PullQuery.Proofs.Value.Floats

/-!
# The order of values

The order of values is total and agrees with their equality: NULL comes first, the type decides
between values of different types, and floating-point numbers order by their values with the NaN
last. Sorted values of which equal neighbours are dropped are therefore pairwise unequal, and one
is left for each value that was there.

## Main results

* `Value.compare_float64`: the order of two floating-point numbers, by cases
* `existsUnique_mem_sortedDistinct`
* `Value.order_total`
-/

namespace PullQuery

/-! ## Sorted values -/

theorem pairwise_ne_sortedDistinct (vs : List Value) :
    (sortedDistinct vs).Pairwise fun v w => (v == w) = false := by
  refine (pairwise_sortedDistinct vs).imp ?_
  intro v w hlt
  rw [Bool.eq_false_iff, ne_eq, ← Value.compare_eq_eq_iff, hlt]
  decide

/-- One of the sorted values is left for each value. -/
theorem existsUnique_mem_sortedDistinct {vs : List Value} {v : Value} (h : v ∈ vs) :
    ∃! k, k ∈ sortedDistinct vs ∧ (v == k) = true := by
  obtain ⟨k, hk, hvk⟩ := exists_mem_sortedDistinct h
  refine ⟨k, ⟨hk, hvk⟩, ?_⟩
  rintro l ⟨hl, hvl⟩
  by_contra hne
  -- Two values that are left are unequal, but both are equal to `v`.
  have hsymm : Std.Symm fun v w : Value => (v == w) = false :=
    ⟨fun v w hvw => Bool.eq_false_iff.mpr fun hwv =>
      Bool.false_ne_true (hvw ▸ Value.beq_symm hwv)⟩
  have hunequal : (l == k) = false := (pairwise_ne_sortedDistinct vs).forall hl hk hne
  have hequal : (l == k) = true := by
    rw [← Value.beq_congr_right hvk]
    exact Value.beq_symm hvl
  exact Bool.false_ne_true (hunequal ▸ hequal)

namespace Value

/-! ## Types -/

theorem typeRank_eq_iff {a b : Value} : a.typeRank = b.typeRank ↔ a.type? = b.type? := by
  cases a <;> cases b <;> simp [typeRank, type?]

theorem compare_null {a : Value} (h : a ≠ null) : compare null a = .lt := by
  cases a <;> first | contradiction | rfl

/-! ## Floating-point numbers -/

/-- The NaN equals itself and is greater than every other number; other numbers order as the
rational numbers and infinities that they stand for. -/
theorem compare_float64 (x y : Binary64) :
    compare (float64 x) (float64 y) =
      match x.isNaN, y.isNaN with
      | true, true => .eq
      | true, false => .gt
      | false, true => .lt
      | false, false => compare x.extended y.extended := by
  change compare x y = _
  cases hx : x.isNaN <;> cases hy : y.isNaN <;> dsimp only
  · exact Binary64.compare_eq_compare_extended hx hy
  · rw [Binary64.eq_nan hy, Binary64.compare_nan hx]
  · have hswap : compare x y = (compare y x).swap := Std.OrientedCmp.eq_swap
    rw [hswap, Binary64.eq_nan hx, Binary64.compare_nan hy]
    rfl
  · rw [Binary64.eq_nan hx, Binary64.eq_nan hy]
    exact Std.ReflCmp.compare_self

/-- The order of values is total and agrees with equality. NULL is the least value, values of
different types order by type, and floating-point numbers as `compare_float64` says. To sort values
and drop equal neighbours leaves values that are pairwise unequal, one for each of the list. -/
theorem order_total (a b c : Value) (vs : List Value) :
    compare a b = (compare b a).swap ∧
      ((compare a b).isLE = true → (compare b c).isLE = true → (compare a c).isLE = true) ∧
      (compare a b = .eq ↔ (a == b) = true) ∧
      (a ≠ null → compare null a = .lt) ∧
      (a.typeRank = b.typeRank ↔ a.type? = b.type?) ∧
      (a.type? ≠ b.type? → compare a b = compare a.typeRank b.typeRank) ∧
      (∀ x y : Binary64, compare (float64 x) (float64 y) =
        match x.isNaN, y.isNaN with
        | true, true => .eq
        | true, false => .gt
        | false, true => .lt
        | false, false => compare x.extended y.extended) ∧
      (sortedDistinct vs).Pairwise (fun v w => (v == w) = false) ∧
      (∀ k ∈ sortedDistinct vs, k ∈ vs) ∧
      ∀ v ∈ vs, ∃! k, k ∈ sortedDistinct vs ∧ (v == k) = true := by
  refine ⟨order_swap a b, order_isLE_trans, compare_eq_eq_iff, compare_null, typeRank_eq_iff, ?_,
    compare_float64, pairwise_ne_sortedDistinct vs, fun _ => mem_of_mem_sortedDistinct,
    fun _ => existsUnique_mem_sortedDistinct⟩
  intro htypes
  exact order_of_typeRank_ne fun hrank => htypes (typeRank_eq_iff.mp hrank)

end Value

end PullQuery
