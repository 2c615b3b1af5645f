import PullQuery.Proofs.Index.Scan

/-!
# Comparisons

The six comparisons of two values come from one order of the two. NULL on either side makes them
all NULL, values that cannot be compared make them all fail, and of any others exactly one is the
lesser or they are equal. Values of one type compare as the keys of an index do.

## Main definitions

* `Value.Comparable`: values of one type, and numbers of any
* `Comparison.opposite`, `Comparison.flip`: the comparison that holds otherwise, and the one that
  holds of the operands in the other order

## Main results

* `Value.exists_compareAs`, `Value.compareAs_of_not_comparable`: the order of two values
* `BinaryOp.apply_comparison_cases`: NULL, a failure, or the order of the values
* `Expr.eval_comparison_opposite`, `Expr.eval_comparison_flip`
* `Expr.comparisons_consistent`
-/

namespace PullQuery

/-! ## The order of two values -/

namespace Value

variable {l r : Value} {o : Ordering}

/-- Whether two values can be compared: they have one type, or both are numbers. -/
def Comparable (l r : Value) : Prop :=
  l.type? = r.type? ∨ l.toNumber?.isSome = true ∧ r.toNumber?.isSome = true

theorem isSome_toNumber?_of_toInt? {v : Value} {i : Int} (h : v.toInt? = some i) :
    v.toNumber?.isSome = true := by
  cases v <;> first | rfl | simp [toInt?] at h

/-- Values that can be compared have an order, which is the other way around if they are
exchanged. -/
theorem exists_compareAs (h : l.Comparable r) :
    ∃ o, l.compareAs r = .ok o ∧ r.compareAs l = .ok o.swap := by
  unfold compareAs
  rcases hl : l.toInt? with _ | i <;> rcases hr : r.toInt? with _ | j
  case some.some => exact ⟨_, rfl, congrArg Except.ok Std.OrientedCmp.eq_swap⟩
  -- With at most one integer, two numbers compare as floats and any other values by their type.
  all_goals
    rcases hx : l.toNumber? with _ | x <;> rcases hy : r.toNumber? with _ | y
    case some.some => exact ⟨_, rfl, congrArg Except.ok Std.OrientedCmp.eq_swap⟩
    all_goals
      have htype : l.type? = r.type? := h.elim id fun hnumbers => by simp [hx, hy] at hnumbers
      simp only [htype, if_true]
      exact ⟨_, rfl, congrArg Except.ok Std.OrientedCmp.eq_swap⟩

theorem compareAs_of_not_comparable (h : ¬ l.Comparable r) :
    l.compareAs r = .error (.incomparable l r) := by
  obtain ⟨htype, hnumbers⟩ := not_or.mp h
  unfold compareAs
  split
  · next hl hr =>
    exact absurd ⟨isSome_toNumber?_of_toInt? hl, isSome_toNumber?_of_toInt? hr⟩ hnumbers
  · split
    · next hx hy => exact absurd ⟨hx ▸ rfl, hy ▸ rfl⟩ hnumbers
    · exact if_neg htype

theorem Comparable.symm (h : l.Comparable r) : r.Comparable l :=
  h.imp Eq.symm And.symm

end Value

/-! ## The six comparisons -/

namespace Comparison

/-- The comparison that holds when this one does not. -/
def opposite : Comparison → Comparison
  | eq => ne
  | ne => eq
  | lt => ge
  | le => gt
  | gt => le
  | ge => lt

/-- The comparison that holds of the operands in the other order when this one holds. -/
def flip : Comparison → Comparison
  | eq => eq
  | ne => ne
  | lt => gt
  | le => ge
  | gt => lt
  | ge => le

theorem holds_opposite (c : Comparison) (o : Ordering) : c.opposite.holds o = !c.holds o := by
  cases c <;> cases o <;> rfl

theorem holds_flip (c : Comparison) (o : Ordering) : c.flip.holds o.swap = c.holds o := by
  cases c <;> cases o <;> rfl

/-- Exactly one of three comparisons holds of an order. -/
theorem exists_holds_iff (o : Ordering) :
    ∃ c ∈ [lt, eq, gt], ∀ d ∈ [lt, eq, gt], d.holds o = decide (d = c) := by
  cases o with
  | lt => exact ⟨lt, by decide, by decide⟩
  | eq => exact ⟨eq, by decide, by decide⟩
  | gt => exact ⟨gt, by decide, by decide⟩

end Comparison

/-- What the six comparisons make of two values, in either order. -/
theorem BinaryOp.apply_comparison_cases (a b : Value) :
    ((a.isNull = true ∨ b.isNull = true) ∧
      ∀ c, (comparison c).apply a b = .ok .null ∧ (comparison c).apply b a = .ok .null) ∨
    (¬ (a.isNull = true ∨ b.isNull = true) ∧ ¬ a.Comparable b ∧
      ∀ c, (comparison c).apply a b = .error (.incomparable a b) ∧
        (comparison c).apply b a = .error (.incomparable b a)) ∨
    (¬ (a.isNull = true ∨ b.isNull = true) ∧ a.Comparable b ∧
      ∃ o, a.compareAs b = .ok o ∧
        ∀ c, (comparison c).apply a b = .ok (.boolean (c.holds o)) ∧
          (comparison c).apply b a = .ok (.boolean (c.holds o.swap))) := by
  by_cases hnull : a.isNull = true ∨ b.isNull = true
  · refine .inl ⟨hnull, fun c => ⟨?_, ?_⟩⟩
    · rw [apply, if_pos (Bool.or_eq_true_iff.mpr hnull)]
      rfl
    · rw [apply, if_pos (Bool.or_eq_true_iff.mpr hnull.symm)]
      rfl
  obtain ⟨ha, hb⟩ := not_or.mp hnull
  rw [Bool.not_eq_true] at ha hb
  by_cases h : a.Comparable b
  · obtain ⟨o, ho, hswap⟩ := Value.exists_compareAs h
    refine .inr (.inr ⟨hnull, h, o, ho, fun c => ?_⟩)
    simp only [apply, ha, hb, Bool.or_self, Bool.false_eq_true, if_false, onValues, ho, hswap]
    exact ⟨rfl, rfl⟩
  · refine .inr (.inl ⟨hnull, h, fun c => ?_⟩)
    simp only [apply, ha, hb, Bool.or_self, Bool.false_eq_true, if_false, onValues,
      Value.compareAs_of_not_comparable h,
      Value.compareAs_of_not_comparable fun h' => h h'.symm]
    exact ⟨rfl, rfl⟩

namespace Expr

variable {row : Row} {params : List Value} {l r : Expr} {a b v : Value}

/-- A comparison looks at the values of its operands alone. -/
theorem eval_comparison_of (hl : l.eval row params = .ok a) (hr : r.eval row params = .ok b)
    (c : Comparison) :
    (binary (.comparison c) l r).eval row params = (BinaryOp.comparison c).apply a b := by
  rw [eval_comparison, hl, hr]
  rfl

/-- The opposite comparison is the negation, also where there is no truth value. -/
theorem eval_comparison_opposite (hl : l.eval row params = .ok a)
    (hr : r.eval row params = .ok b) (c : Comparison) :
    (binary (.comparison c.opposite) l r).eval row params =
      (unary .not (binary (.comparison c) l r)).eval row params := by
  rw [eval_unary, eval_comparison_of hl hr, eval_comparison_of hl hr]
  obtain ⟨-, h⟩ | ⟨-, -, h⟩ | ⟨-, -, o, -, h⟩ := BinaryOp.apply_comparison_cases a b
  · rw [(h c.opposite).1, (h c).1]
    rfl
  · rw [(h c.opposite).1, (h c).1]
    rfl
  · rw [(h c.opposite).1, (h c).1, c.holds_opposite]
    rfl

/-- Exchanged operands satisfy the flipped comparison, and fail to compare if they did before. -/
theorem eval_comparison_flip (hl : l.eval row params = .ok a) (hr : r.eval row params = .ok b)
    (c : Comparison) :
    (binary (.comparison c.flip) r l).eval row params = .ok v ↔
      (binary (.comparison c) l r).eval row params = .ok v := by
  rw [eval_comparison_of hr hl, eval_comparison_of hl hr]
  obtain ⟨-, h⟩ | ⟨-, -, h⟩ | ⟨-, -, o, -, h⟩ := BinaryOp.apply_comparison_cases a b
  · rw [(h c.flip).2, (h c).1]
  · -- The two errors name the operands in their orders, and neither is a value.
    rw [(h c.flip).2, (h c).1]
    exact ⟨nofun, nofun⟩
  · rw [(h c.flip).2, (h c).1, c.holds_flip]

/-- Values of one type compare as keys do. -/
theorem eval_comparison_of_type_eq (hl : l.eval row params = .ok a)
    (hr : r.eval row params = .ok b) (htype : a.type? = b.type?) (ha : a.isNull = false)
    (op : ScanOp) :
    (binary (.comparison op.comparison) l r).eval row params = .ok (.boolean (op.holds a b)) := by
  have hb : b.isNull = false := Value.isNull_eq_of_type? htype ▸ ha
  rw [eval_comparison_of hl hr, BinaryOp.apply, ha, hb, op.holds_eq]
  show (a.compareAs b).map _ = _
  rw [Value.compareAs_of_type_eq htype ha]
  rfl

/-- For any two values, the six comparisons are all NULL because one value is, or they all fail
because the values cannot be compared, or exactly one of less, equal and greater is true. The
others are the negations of these; exchanging the operands flips the comparison; and on values of
one type the comparisons are those of the keys of an index. -/
theorem comparisons_consistent (hl : l.eval row params = .ok a) (hr : r.eval row params = .ok b) :
    let is := fun c => (binary (.comparison c) l r).eval row params
    let isNot := fun c => (unary .not (binary (.comparison c) l r)).eval row params
    let exchanged := fun c => (binary (.comparison c) r l).eval row params
    ((a.isNull = true ∨ b.isNull = true) ∧ (∀ c, is c = .ok .null) ∨
      ¬ (a.isNull = true ∨ b.isNull = true) ∧ ¬ a.Comparable b ∧
        (∀ c, ∃ e, is c = .error e) ∧ (∀ c, ∃ e, exchanged c = .error e) ∨
      ¬ (a.isNull = true ∨ b.isNull = true) ∧ a.Comparable b ∧
        ∃ c ∈ [Comparison.lt, .eq, .gt], ∀ d ∈ [Comparison.lt, .eq, .gt],
          is d = .ok (.boolean (decide (d = c)))) ∧
    (is .ne = isNot .eq ∧ is .le = isNot .gt ∧ is .ge = isNot .lt) ∧
    (∀ c v, exchanged c.flip = .ok v ↔ is c = .ok v) ∧
    (a.type? = b.type? → a.isNull = false →
      ∀ op : ScanOp, is op.comparison = .ok (.boolean (op.holds a b))) := by
  intro is isNot exchanged
  have his : ∀ c, is c = (BinaryOp.comparison c).apply a b := eval_comparison_of hl hr
  have hexchanged : ∀ c, exchanged c = (BinaryOp.comparison c).apply b a :=
    eval_comparison_of hr hl
  refine ⟨?_, ⟨?_, ?_, ?_⟩, fun c v => eval_comparison_flip hl hr c,
    eval_comparison_of_type_eq hl hr⟩
  -- The values decide in which of three ways all comparisons go: NULL, an error, or an order.
  · obtain ⟨hnull, h⟩ | ⟨hnull, hnot, h⟩ | ⟨hnull, hcomparable, o, -, h⟩ :=
      BinaryOp.apply_comparison_cases a b
    · exact .inl ⟨hnull, fun c => (his c).trans (h c).1⟩
    · exact .inr (.inl ⟨hnull, hnot, fun c => ⟨_, (his c).trans (h c).1⟩,
        fun c => ⟨_, (hexchanged c).trans (h c).2⟩⟩)
    · obtain ⟨c, hc, honly⟩ := Comparison.exists_holds_iff o
      refine .inr (.inr ⟨hnull, hcomparable, c, hc, fun d hd => ?_⟩)
      rw [his, (h d).1, honly d hd]
  · exact eval_comparison_opposite hl hr .eq
  · exact eval_comparison_opposite hl hr .gt
  · exact eval_comparison_opposite hl hr .lt

/-- The greatest integer and the float next to it, which compare as equal. -/
theorem comparisons_consistent_rounded :
    let row : Row := ⟨[.int64 0x7fffffffffffffff]⟩
    let two63 : Value := .float64 (.ofBits 0x43e0000000000000)
    (Expr.column 0).eval row [] = .ok (.int64 0x7fffffffffffffff) ∧
    (Expr.literal two63).eval row [] = .ok two63 ∧
    (binary (.comparison .eq) (.column 0) (.literal two63)).eval row [] = .ok (.boolean true) ∧
    (binary (.comparison .ge) (.column 0) (.literal two63)).eval row [] =
      (unary .not (binary (.comparison .lt) (.column 0) (.literal two63))).eval row [] := by
  intro row two63
  have hl : (Expr.column 0).eval row [] = .ok (.int64 0x7fffffffffffffff) := rfl
  have hr : (Expr.literal two63).eval row [] = .ok two63 := rfl
  obtain ⟨-, ⟨-, -, hge⟩, -⟩ := comparisons_consistent hl hr
  exact ⟨hl, hr, rfl, hge⟩

end Expr

end PullQuery
