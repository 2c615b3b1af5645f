import PullQuery.Proofs.Expr.Truth

/-!
# Integer arithmetic

Arithmetic on integers of 32 and 64 bits gives the exact result or fails; it never wraps around.
Each operation has the width of the wider of its operands, so that the width of a whole
computation is 32 bits only if all its integers are, and so that it fails or not depending on
where in it the integers of 64 bits stand.

## Main definitions

* `Width`, `Integer`: the two widths, and integers of either
* `Arithmetic.ideal?`: the exact result of an operation
* `IntTerm`: computations with integers
* `IntTerm.Breaks`: computations whose last operation has no result

## Main results

* `BinaryOp.apply_eq_ok_iff`, `BinaryOp.apply_eq_error_iff`: one operation
* `IntTerm.exact_of_eval`, `IntTerm.eval_fails_iff`: any computation
* `IntTerm.eval_exact`
-/

namespace PullQuery

/-! ## Integers of two widths -/

/-- How many bits an integer has. -/
inductive Width where
  | narrow
  | wide
deriving DecidableEq

namespace Width

/-- The least integer of a width; the greatest one is below its opposite. -/
def least : Width → Int
  | narrow => -0x80000000
  | wide => -0x8000000000000000

/-- Whether an integer has a given width. -/
def Fits (w : Width) (n : Int) : Prop := w.least ≤ n ∧ n < -w.least

instance (w : Width) (n : Int) : Decidable (w.Fits n) := inferInstanceAs (Decidable (_ ∧ _))

/-- The width of a result: narrow if both operands are. -/
def join : Width → Width → Width
  | narrow, narrow => narrow
  | _, _ => wide

theorem join_eq_narrow_iff {w w' : Width} : w.join w' = narrow ↔ w = narrow ∧ w' = narrow := by
  cases w <;> cases w' <;> decide

theorem Fits.join {w : Width} {n : Int} (h : w.Fits n) (w' : Width) : (w.join w').Fits n := by
  cases w <;> cases w' <;> simp only [Width.join, Fits, least] at * <;> omega

/-- Of the integers of a width only the least has no opposite. -/
theorem fits_neg_iff {w : Width} {n : Int} (h : w.Fits n) : w.Fits (-n) ↔ n ≠ w.least := by
  unfold Fits at *
  omega

/-- Quotients of integers of a width have that width, except for the opposite of the least. -/
theorem fits_tdiv_iff {w : Width} {a b : Int} (ha : w.Fits a) (hb : b ≠ 0) :
    w.Fits (a.tdiv b) ↔ ¬ (a = w.least ∧ b = -1) := by
  by_cases hone : b.natAbs = 1
  · obtain rfl | rfl := Int.natAbs_eq_iff.mp hone
    · simp [ha]
    · rw [Int.natCast_one, Int.tdiv_neg, Int.tdiv_one, fits_neg_iff ha]
      simp
  · -- Any other divisor at least halves the dividend.
    have hhalf : (a.tdiv b).natAbs ≤ a.natAbs / 2 := by
      rw [Int.natAbs_tdiv]
      exact Nat.div_le_div_left (by omega) (by decide)
    unfold Fits at *
    omega

/-- The value of an integer that has a given width. -/
def ofInt? : Width → Int → Except EvalError Value
  | narrow => Value.ofInt32?
  | wide => Value.ofInt64?

end Width

/-- An integer of either width. -/
inductive Integer where
  | int32 (i : Int32)
  | int64 (i : Int64)

namespace Integer

def toValue : Integer → Value
  | int32 i => .int32 i
  | int64 i => .int64 i

def toInt : Integer → Int
  | int32 i => i.toInt
  | int64 i => i.toInt

def width : Integer → Width
  | int32 _ => .narrow
  | int64 _ => .wide

theorem fits (n : Integer) : n.width.Fits n.toInt := by
  cases n with
  | int32 i => exact ⟨i.le_toInt, i.toInt_lt⟩
  | int64 i => exact ⟨i.le_toInt, i.toInt_lt⟩

@[simp]
theorem isNull_toValue (n : Integer) : n.toValue.isNull = false := by cases n <;> rfl

theorem toValue_injective : Function.Injective toValue := by
  intro m n h
  cases m <;> cases n <;> simp_all [toValue]

end Integer

namespace Width

variable {w : Width} {n : Int} {v : Value}

/-- An integer that fits is kept as it is. -/
theorem ofInt?_eq_ok_iff :
    w.ofInt? n = .ok v ↔ ∃ k : Integer, v = k.toValue ∧ k.toInt = n ∧ k.width = w := by
  constructor
  · intro h
    cases w with
    | narrow =>
      rw [ofInt?, Value.ofInt32?] at h
      split at h
      · next hfits =>
        exact ⟨.int32 (.ofInt n), (Except.ok.inj h).symm,
          Int32.toInt_ofInt_of_le hfits.1 hfits.2, rfl⟩
      · contradiction
    | wide =>
      rw [ofInt?, Value.ofInt64?] at h
      split at h
      · next hfits =>
        exact ⟨.int64 (.ofInt n), (Except.ok.inj h).symm,
          Int64.toInt_ofInt_of_le hfits.1 hfits.2, rfl⟩
      · contradiction
  · rintro ⟨k, rfl, rfl, rfl⟩
    cases k with
    | int32 i =>
      show Value.ofInt32? i.toInt = .ok (.int32 i)
      rw [Value.ofInt32?, if_pos ⟨i.le_toInt, i.toInt_lt⟩, Int32.ofInt_toInt]
    | int64 i =>
      show Value.ofInt64? i.toInt = .ok (.int64 i)
      rw [Value.ofInt64?, if_pos ⟨i.le_toInt, i.toInt_lt⟩, Int64.ofInt_toInt]

/-- Any other integer is refused. -/
theorem ofInt?_eq_error_iff : (∃ e, w.ofInt? n = .error e) ↔ ¬ w.Fits n := by
  cases w with
  | narrow =>
    rw [ofInt?, Value.ofInt32?]
    split
    · next hfits => exact iff_of_false (by simp) (not_not_intro hfits)
    · next hfits => exact iff_of_true ⟨_, rfl⟩ hfits
  | wide =>
    rw [ofInt?, Value.ofInt64?]
    split
    · next hfits => exact iff_of_false (by simp) (not_not_intro hfits)
    · next hfits => exact iff_of_true ⟨_, rfl⟩ hfits

end Width

/-! ## Operations -/

namespace Arithmetic

variable {op : Arithmetic} {a b k : Int}

/-- The exact result of an operation on integers. A quotient is rounded toward zero, and there is
none for the divisor zero. -/
def ideal? (op : Arithmetic) (a b : Int) : Option Int :=
  match op with
  | add => some (a + b)
  | sub => some (a - b)
  | mul => some (a * b)
  | div => if b = 0 then none else some (a.tdiv b)

theorem onInt_eq_ok_iff : op.onInt a b = .ok k ↔ op.ideal? a b = some k := by
  cases op with
  | div =>
    rw [onInt, ideal?]
    split <;> simp
  | _ => simp [onInt, ideal?]

theorem onInt_eq_error_iff : (∃ e, op.onInt a b = .error e) ↔ op = div ∧ b = 0 := by
  cases op with
  | div =>
    rw [onInt]
    split <;> simp_all
  | _ => simp [onInt]

end Arithmetic

/-- On integers an operation is done exactly, and its result has to fit. -/
theorem Integer.arithmetic_toValue (op : Arithmetic) (m n : Integer) :
    m.toValue.arithmetic op n.toValue =
      (op.onInt m.toInt n.toInt).bind (m.width.join n.width).ofInt? := by
  cases m <;> cases n <;> rfl

theorem Integer.negate_toValue (n : Integer) :
    n.toValue.negate = n.width.ofInt? (-n.toInt) := by
  cases n <;> rfl

theorem BinaryOp.apply_toValue_eq (op : Arithmetic) (m n : Integer) :
    (arithmetic op).apply m.toValue n.toValue =
      (op.onInt m.toInt n.toInt).bind (m.width.join n.width).ofInt? := by
  rw [apply, m.isNull_toValue, n.isNull_toValue, Bool.or_self, if_neg Bool.false_ne_true]
  exact m.arithmetic_toValue op n

theorem UnaryOp.apply_neg_toValue (n : Integer) :
    neg.apply n.toValue = n.width.ofInt? (-n.toInt) := by
  rw [apply, n.isNull_toValue, if_neg Bool.false_ne_true, n.negate_toValue]

/-- An operation on integers has the exact result, if it has any. -/
theorem BinaryOp.apply_eq_ok_iff {op : Arithmetic} {m n : Integer} {v : Value} :
    (arithmetic op).apply m.toValue n.toValue = .ok v ↔
      ∃ k : Integer, v = k.toValue ∧ op.ideal? m.toInt n.toInt = some k.toInt ∧
        k.width = m.width.join n.width := by
  rw [apply_toValue_eq, exceptBind_eq_ok_iff]
  constructor
  · rintro ⟨a, ha, hfits⟩
    obtain ⟨k, rfl, rfl, hwidth⟩ := Width.ofInt?_eq_ok_iff.mp hfits
    exact ⟨k, rfl, Arithmetic.onInt_eq_ok_iff.mp ha, hwidth⟩
  · rintro ⟨k, rfl, hexact, hwidth⟩
    exact ⟨k.toInt, Arithmetic.onInt_eq_ok_iff.mpr hexact,
      Width.ofInt?_eq_ok_iff.mpr ⟨k, rfl, rfl, hwidth⟩⟩

/-- An operation on integers fails if it divides by zero or its exact result does not fit. -/
theorem BinaryOp.apply_eq_error_iff {op : Arithmetic} {m n : Integer} :
    (∃ e, (arithmetic op).apply m.toValue n.toValue = .error e) ↔
      (op = .div ∧ n.toInt = 0) ∨ ∃ k, op.ideal? m.toInt n.toInt = some k ∧
        ¬ (m.width.join n.width).Fits k := by
  rw [apply_toValue_eq, exists_exceptBind_eq_error_iff, Arithmetic.onInt_eq_error_iff]
  simp only [Arithmetic.onInt_eq_ok_iff, Width.ofInt?_eq_error_iff]

/-! ## Computations -/

/-- A computation with integers. -/
inductive IntTerm (ι : Type) where
  | leaf (i : ι)
  | negate (t : IntTerm ι)
  | apply (op : Arithmetic) (l r : IntTerm ι)

namespace IntTerm

variable {ι : Type}

/-- The expression of a computation whose leaves are given expressions. -/
def toExpr (expr : ι → Expr) : IntTerm ι → Expr
  | leaf i => expr i
  | negate t => .unary .neg (t.toExpr expr)
  | apply op l r => .binary (.arithmetic op) (l.toExpr expr) (r.toExpr expr)

/-- The exact result of a computation whose leaves are given integers. -/
def ideal? (int : ι → Int) : IntTerm ι → Option Int
  | leaf i => some (int i)
  | negate t => (t.ideal? int).map (- ·)
  | apply op l r => (l.ideal? int).bind fun a => (r.ideal? int).bind fun b => op.ideal? a b

/-- The leaves of a computation from left to right. -/
def leaves : IntTerm ι → List ι
  | leaf i => [i]
  | negate t => t.leaves
  | apply _ l r => l.leaves ++ r.leaves

/-- A computation with all those that are parts of it. -/
def parts : IntTerm ι → List (IntTerm ι)
  | leaf i => [leaf i]
  | negate t => negate t :: t.parts
  | apply op l r => apply op l r :: (l.parts ++ r.parts)

/-- Whether the operands of a computation have values and the computation has none: the divisor
is zero, or the exact result does not fit. -/
inductive Breaks (row : Row) (params : List Value) (expr : ι → Expr) : IntTerm ι → Prop where
  | negate {t : IntTerm ι} {n : Integer}
    (ht : (t.toExpr expr).eval row params = .ok n.toValue) (hfits : ¬ n.width.Fits (-n.toInt)) :
    Breaks row params expr (.negate t)
  | zero {l r : IntTerm ι} {m n : Integer}
    (hl : (l.toExpr expr).eval row params = .ok m.toValue)
    (hr : (r.toExpr expr).eval row params = .ok n.toValue) (hzero : n.toInt = 0) :
    Breaks row params expr (.apply .div l r)
  | range {op : Arithmetic} {l r : IntTerm ι} {m n : Integer} {k : Int}
    (hl : (l.toExpr expr).eval row params = .ok m.toValue)
    (hr : (r.toExpr expr).eval row params = .ok n.toValue)
    (hexact : op.ideal? m.toInt n.toInt = some k) (hfits : ¬ (m.width.join n.width).Fits k) :
    Breaks row params expr (.apply op l r)

section Leaves

variable {row : Row} {params : List Value} {expr : ι → Expr} {num : ι → Integer}
  {t l r : IntTerm ι} {op : Arithmetic} {v : Value}

/-- A computation that has a value has the exact one, in the width of its leaves. -/
theorem exact_of_eval (hleaves : ∀ i, (expr i).eval row params = .ok (num i).toValue)
    (h : (t.toExpr expr).eval row params = .ok v) :
    ∃ n : Integer, v = n.toValue ∧ t.ideal? (fun i => (num i).toInt) = some n.toInt ∧
      (n.width = .narrow ↔ ∀ i ∈ t.leaves, (num i).width = .narrow) := by
  induction t generalizing v with
  | leaf i =>
    obtain rfl := Except.ok.inj ((hleaves i).symm.trans h)
    exact ⟨num i, rfl, rfl, by simp [leaves]⟩
  | negate t ih =>
    rw [toExpr, Expr.eval_unary] at h
    obtain ⟨a, ha, happly⟩ := exceptBind_eq_ok_iff.mp h
    obtain ⟨n, rfl, hexact, hwidth⟩ := ih ha
    rw [UnaryOp.apply_neg_toValue] at happly
    obtain ⟨k, rfl, hk, hkwidth⟩ := Width.ofInt?_eq_ok_iff.mp happly
    refine ⟨k, rfl, ?_, ?_⟩
    · rw [ideal?, hexact, hk]
      rfl
    · rw [hkwidth, hwidth, leaves]
  | apply op l r ihl ihr =>
    rw [toExpr, Expr.eval_arithmetic] at h
    obtain ⟨a, ha, h⟩ := exceptBind_eq_ok_iff.mp h
    obtain ⟨b, hb, happly⟩ := exceptBind_eq_ok_iff.mp h
    obtain ⟨m, rfl, hm, hmwidth⟩ := ihl ha
    obtain ⟨n, rfl, hn, hnwidth⟩ := ihr hb
    obtain ⟨k, rfl, hk, hkwidth⟩ := BinaryOp.apply_eq_ok_iff.mp happly
    refine ⟨k, rfl, ?_, ?_⟩
    · rw [ideal?, hm, hn]
      exact hk
    · rw [hkwidth, Width.join_eq_narrow_iff, hmwidth, hnwidth, leaves, List.forall_mem_append]

/-! ### Where a computation fails -/

theorem not_breaks_leaf {i : ι} : ¬ (leaf i).Breaks row params expr := nofun

theorem breaks_negate_iff {n : Integer} (ht : (t.toExpr expr).eval row params = .ok n.toValue) :
    (negate t).Breaks row params expr ↔ ¬ n.width.Fits (-n.toInt) := by
  constructor
  · rintro ⟨ht', hfits⟩
    obtain rfl := Integer.toValue_injective (Except.ok.inj (ht.symm.trans ht'))
    exact hfits
  · exact .negate ht

theorem breaks_apply_iff {m n : Integer} (hl : (l.toExpr expr).eval row params = .ok m.toValue)
    (hr : (r.toExpr expr).eval row params = .ok n.toValue) :
    (apply op l r).Breaks row params expr ↔
      (op = .div ∧ n.toInt = 0) ∨ ∃ k, op.ideal? m.toInt n.toInt = some k ∧
        ¬ (m.width.join n.width).Fits k := by
  have hsame : ∀ {t : IntTerm ι} {m n : Integer}, (t.toExpr expr).eval row params = .ok m.toValue →
      (t.toExpr expr).eval row params = .ok n.toValue → m = n := fun hm hn =>
    Integer.toValue_injective (Except.ok.inj (hm.symm.trans hn))
  constructor
  · intro h
    cases h with
    | zero hl' hr' hzero => exact .inl ⟨rfl, hsame hr hr' ▸ hzero⟩
    | range hl' hr' hexact hfits =>
      obtain rfl := hsame hl hl'
      obtain rfl := hsame hr hr'
      exact .inr ⟨_, hexact, hfits⟩
  · rintro (⟨rfl, hzero⟩ | ⟨k, hexact, hfits⟩)
    · exact .zero hl hr hzero
    · exact .range hl hr hexact hfits

/-- A negation fails if its operand does or its exact result does not fit. -/
theorem eval_negate_fails_iff (hleaves : ∀ i, (expr i).eval row params = .ok (num i).toValue) :
    (∃ e, ((negate t).toExpr expr).eval row params = .error e) ↔
      (∃ e, (t.toExpr expr).eval row params = .error e) ∨
        (negate t).Breaks row params expr := by
  rw [toExpr, Expr.eval_unary]
  rcases ht : (t.toExpr expr).eval row params with e | a
  · simp [Except.bind]
  · obtain ⟨n, rfl, -, -⟩ := exact_of_eval hleaves ht
    show (∃ e, UnaryOp.neg.apply n.toValue = .error e) ↔ _
    rw [UnaryOp.apply_neg_toValue, Width.ofInt?_eq_error_iff, breaks_negate_iff ht]
    simp

/-- An operation fails if an operand does or there is no exact result that fits. -/
theorem eval_apply_fails_iff (hleaves : ∀ i, (expr i).eval row params = .ok (num i).toValue) :
    (∃ e, ((apply op l r).toExpr expr).eval row params = .error e) ↔
      (∃ e, (l.toExpr expr).eval row params = .error e) ∨
        (∃ e, (r.toExpr expr).eval row params = .error e) ∨
          (apply op l r).Breaks row params expr := by
  rw [toExpr, Expr.eval_arithmetic]
  rcases hl : (l.toExpr expr).eval row params with e | a
  · simp [Except.bind]
  rcases hr : (r.toExpr expr).eval row params with e | b
  · simp [Except.bind]
  · obtain ⟨m, rfl, -, -⟩ := exact_of_eval hleaves hl
    obtain ⟨n, rfl, -, -⟩ := exact_of_eval hleaves hr
    show (∃ e, (BinaryOp.arithmetic op).apply m.toValue n.toValue = .error e) ↔ _
    rw [BinaryOp.apply_eq_error_iff, breaks_apply_iff hl hr]
    simp

/-- A computation fails if and only if some part of it does whose operands have values. -/
theorem eval_fails_iff (hleaves : ∀ i, (expr i).eval row params = .ok (num i).toValue)
    (t : IntTerm ι) : (∃ e, (t.toExpr expr).eval row params = .error e) ↔
      ∃ s ∈ t.parts, s.Breaks row params expr := by
  induction t with
  | leaf i => simp [toExpr, hleaves, parts, not_breaks_leaf]
  | negate t ih =>
    rw [eval_negate_fails_iff hleaves, ih]
    simp [parts, or_comm]
  | apply op l r ihl ihr =>
    rw [eval_apply_fails_iff hleaves, ihl, ihr]
    -- The parts begin with the computation itself, which fails after its operands.
    simp only [parts, List.mem_cons, List.mem_append, or_and_right, exists_or, exists_eq_left]
    rw [← or_assoc, or_comm]

/-- A computation with integers has the exact result if it has any, which is of 32 bits if and only
if all its leaves are. It has none if and only if, in some part of it whose operands have values,
the divisor is zero or the exact result does not fit into the width of the operands. For a negation
and a division by another divisor than zero that is the case only for the opposite of the least
integer. -/
theorem eval_exact (hleaves : ∀ i, (expr i).eval row params = .ok (num i).toValue) :
    let eval := fun t : IntTerm ι => (t.toExpr expr).eval row params
    (∀ t v, eval t = .ok v → ∃ n : Integer, v = n.toValue ∧
      t.ideal? (fun i => (num i).toInt) = some n.toInt ∧
      (n.width = .narrow ↔ ∀ i ∈ t.leaves, (num i).width = .narrow)) ∧
    (∀ t, (∃ e, eval t = .error e) ↔ ∃ s ∈ t.parts, s.Breaks row params expr) ∧
    (∀ t n, eval t = .ok (Integer.toValue n) →
      ((∃ e, eval (negate t) = .error e) ↔ n.toInt = n.width.least)) ∧
    (∀ l r m n, eval l = .ok (Integer.toValue m) → eval r = .ok (Integer.toValue n) →
      n.toInt ≠ 0 → ((∃ e, eval (apply .div l r) = .error e) ↔
        m.toInt = (m.width.join n.width).least ∧ n.toInt = -1)) := by
  refine ⟨fun t v => exact_of_eval hleaves, eval_fails_iff hleaves, ?_, ?_⟩
  · intro t n ht
    rw [eval_negate_fails_iff hleaves, breaks_negate_iff ht, Width.fits_neg_iff n.fits,
      Decidable.not_not]
    exact or_iff_right (fun ⟨e, he⟩ => nomatch ht.symm.trans he)
  · intro l r m n hl hr hzero
    have hexact : Arithmetic.div.ideal? m.toInt n.toInt = some (m.toInt.tdiv n.toInt) :=
      if_neg hzero
    rw [eval_apply_fails_iff hleaves, breaks_apply_iff hl hr, hexact,
      or_iff_right (fun ⟨e, he⟩ => nomatch hl.symm.trans he),
      or_iff_right (fun ⟨e, he⟩ => nomatch hr.symm.trans he),
      or_iff_right (fun h => hzero h.2)]
    have hfits := Width.fits_tdiv_iff (m.fits.join n.width) hzero
    simp [hfits]

end Leaves

/-- The least integer of 32 bits, and -1 in either width. -/
def leastAndMinusOne : Fin 3 → Integer
  | 0 => .int32 (-0x80000000)
  | 1 => .int32 (-1)
  | 2 => .int64 (-1)

/-- The quotient of the two does not fit into 32 bits, and does if one of them has 64. -/
theorem eval_exact_leastAndMinusOne :
    let expr := fun i => Expr.literal (leastAndMinusOne i).toValue
    let narrow : IntTerm (Fin 3) := apply .div (leaf 0) (leaf 1)
    let wide : IntTerm (Fin 3) := apply .div (leaf 0) (leaf 2)
    (∀ i, (expr i).eval .empty [] = .ok (leastAndMinusOne i).toValue) ∧
    (∃ e, (narrow.toExpr expr).eval .empty [] = .error e) ∧
    ∃ n : Integer, (wide.toExpr expr).eval .empty [] = .ok n.toValue ∧ n.width = .wide ∧
      wide.ideal? (fun i => (leastAndMinusOne i).toInt) = some n.toInt := by
  intro expr narrow wide
  have hleaves : ∀ i, (expr i).eval .empty [] = .ok (leastAndMinusOne i).toValue := fun _ => rfl
  obtain ⟨hexact, -, -, hdiv⟩ := eval_exact hleaves
  have heval : (wide.toExpr expr).eval .empty [] = .ok (.int64 0x80000000) := rfl
  obtain ⟨n, hn, hvalue, hwidth⟩ := hexact wide _ heval
  refine ⟨hleaves, ?_, n, hn ▸ heval, ?_, hvalue⟩
  · exact (hdiv (leaf 0) (leaf 1) _ _ (hleaves 0) (hleaves 1) (by decide)).mpr (by decide)
  · -- One leaf is wide, so that the result is not narrow.
    rcases hw : n.width with _ | _
    · exact absurd (hwidth.mp hw 2 (by decide)) (by decide)
    · rfl

end IntTerm

end PullQuery
