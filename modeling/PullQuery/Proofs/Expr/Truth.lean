import PullQuery.Expr.Eval

/-!
# When conditions are true

What an operation makes of the values of its operands, what the truth of a comparison or a
disjunction says about its operands, and which expressions have the same value for every row. On
two values of one type the order of comparisons is the order of keys.

## Main results

* `Expr.eval_eq_of_isRowIndependent`, `Expr.evalAll_eq_of_isRowIndependent`
* `Value.compareAs_of_type_eq`: comparisons within one type
* `Expr.eval_unary`, `Expr.eval_binary`: values of operations
* `Expr.operands_of_comparison`, `Expr.operand_of_or`: true comparisons and disjunctions
* `Expr.map_eval_of_evalAll`, `Expr.exists_of_evalAll_error`: values of several expressions
-/

namespace PullQuery

/-! ## Values of one type -/

theorem Value.compare_toInt_int32 (a b : Int32) : compare a.toInt b.toInt = compare a b := by
  change compareOfLessAndEq a.toInt b.toInt = compareOfLessAndEq a b
  simp only [compareOfLessAndEq, Int32.lt_iff_toInt_lt, Int32.toInt_inj]

theorem Value.compare_toInt_int64 (a b : Int64) : compare a.toInt b.toInt = compare a b := by
  change compareOfLessAndEq a.toInt b.toInt = compareOfLessAndEq a b
  simp only [compareOfLessAndEq, Int64.lt_iff_toInt_lt, Int64.toInt_inj]

/-- Within one type comparisons follow the order of keys. -/
theorem Value.compareAs_of_type_eq {l r : Value} (h : l.type? = r.type?)
    (hl : l.isNull = false) : l.compareAs r = .ok (compare l r) := by
  cases l <;> cases r <;> simp [type?] at h
  · contradiction
  · rfl
  · exact congrArg Except.ok (compare_toInt_int32 _ _)
  · exact congrArg Except.ok (compare_toInt_int64 _ _)
  · rfl
  · rfl
  · rfl

/-- What decides a disjunction is true. -/
theorem Connective.eq_true_of_decides {v : Value} (h : Connective.or.isDecidedBy v = true) :
    v = .boolean true := by
  unfold isDecidedBy at h
  split at h
  · rw [beq_iff_eq.mp h, decisive]
  · contradiction

/-- A disjunction that is true has an operand that is. -/
theorem BinaryOp.operand_of_or {v w : Value}
    (h : (connective .or).apply v w = .ok (.boolean true)) :
    v = .boolean true ∨ w = .boolean true := by
  rw [apply] at h
  split at h
  · rw [besideNull] at h
    split at h
    · -- Beside NULL only a true operand decides.
      next hdecided =>
      rw [Bool.or_eq_true_iff] at hdecided
      exact hdecided.imp Connective.eq_true_of_decides Connective.eq_true_of_decides
    · simp at h
  · rw [onValues] at h
    unfold Value.connect at h
    split at h
    · simpa [Connective.apply] using h
    · contradiction

namespace Expr

variable {row : Row} {params : List Value} {e l r : Expr} {es : List Expr}

/-! ## Rows that are not read -/

/-- An expression without columns has the same value for every row. -/
theorem eval_eq_of_isRowIndependent (h : e.isRowIndependent = true) (row row' : Row) :
    e.eval row params = e.eval row' params := by
  induction e with
  | column i => contradiction
  | literal v => rfl
  | param i => rfl
  | binary op l r ihl ihr =>
    rw [isRowIndependent, Bool.and_eq_true] at h
    rw [eval, eval, ihl h.1, ihr h.2]
  | unary op e ih => rw [eval, eval, ih h]

/-- So have several such expressions. -/
theorem evalAll_eq_of_isRowIndependent (h : ∀ e ∈ es, e.isRowIndependent = true)
    (row row' : Row) : evalAll row params es = evalAll row' params es := by
  induction es with
  | nil => rfl
  | cons e es ih =>
    obtain ⟨he, hes⟩ := List.forall_mem_cons.mp h
    rw [evalAll, evalAll, eval_eq_of_isRowIndependent he row row', ih hes]

/-! ## Operations -/

theorem eval_unary (op : UnaryOp) (e : Expr) :
    (unary op e).eval row params = (e.eval row params).bind op.apply := by
  rw [eval]
  cases e.eval row params <;> rfl

theorem eval_binary (op : BinaryOp) (l r : Expr) :
    (binary op l r).eval row params = (l.eval row params).bind fun a =>
      if op.isDecidedBy a then .ok a else (r.eval row params).bind fun b => op.apply a b := by
  rw [eval]
  cases l.eval row params <;> cases r.eval row params <;> rfl

/-- A comparison always has both operands evaluated. -/
theorem eval_comparison (c : Comparison) (l r : Expr) :
    (binary (.comparison c) l r).eval row params = (l.eval row params).bind fun a =>
      (r.eval row params).bind fun b => (BinaryOp.comparison c).apply a b :=
  eval_binary ..

/-- So has an arithmetic operation. -/
theorem eval_arithmetic (op : Arithmetic) (l r : Expr) :
    (binary (.arithmetic op) l r).eval row params = (l.eval row params).bind fun a =>
      (r.eval row params).bind fun b => (BinaryOp.arithmetic op).apply a b :=
  eval_binary ..

/-! ## True conditions -/

theorem holds_eq_true_iff :
    e.holds row params = .ok true ↔ e.eval row params = .ok (.boolean true) := by
  rw [holds]
  split <;> simp_all

/-- Both operands of a true comparison have values that compare as it asks. -/
theorem operands_of_comparison {c : Comparison}
    (h : (binary (.comparison c) l r).eval row params = .ok (.boolean true)) :
    ∃ v w o, l.eval row params = .ok v ∧ r.eval row params = .ok w ∧ v.isNull = false ∧
      w.isNull = false ∧ v.compareAs w = .ok o ∧ c.holds o = true := by
  rw [eval_comparison] at h
  obtain ⟨v, hv, h⟩ := exceptBind_eq_ok_iff.mp h
  obtain ⟨w, hw, h⟩ := exceptBind_eq_ok_iff.mp h
  rw [BinaryOp.apply] at h
  split at h
  · simp [BinaryOp.besideNull] at h
  · next hnull =>
    rw [Bool.not_eq_true, Bool.or_eq_false_iff] at hnull
    obtain ⟨o, ho, htrue⟩ := exceptMap_eq_ok_iff.mp h
    exact ⟨v, w, o, hv, hw, hnull.1, hnull.2, ho, Value.boolean.inj htrue⟩

/-- One operand of a true disjunction is true. -/
theorem operand_of_or
    (h : (binary (.connective .or) l r).eval row params = .ok (.boolean true)) :
    l.eval row params = .ok (.boolean true) ∨ r.eval row params = .ok (.boolean true) := by
  rw [eval_binary] at h
  obtain ⟨v, hv, h⟩ := exceptBind_eq_ok_iff.mp h
  split at h
  · -- The first operand has decided, and its value is that of the disjunction.
    exact .inl (hv.trans h)
  · obtain ⟨w, hw, h⟩ := exceptBind_eq_ok_iff.mp h
    rw [hv, hw]
    exact (BinaryOp.operand_of_or h).imp (congrArg Except.ok) (congrArg Except.ok)

/-! ## Several expressions -/

theorem evalAll_cons_eq_ok {vs : List Value} :
    evalAll row params (e :: es) = .ok vs ↔
      ∃ v ws, e.eval row params = .ok v ∧ evalAll row params es = .ok ws ∧ vs = v :: ws := by
  rw [evalAll]
  cases e.eval row params <;> cases evalAll row params es <;> simp [Except.map, eq_comm]

theorem evalAll_singleton {v : Value} (h : e.eval row params = .ok v) :
    evalAll row params [e] = .ok [v] :=
  evalAll_cons_eq_ok.mpr ⟨v, [], h, rfl, rfl⟩

/-- The values of several expressions are those of each. -/
theorem map_eval_of_evalAll {vs : List Value} (h : evalAll row params es = .ok vs) :
    es.map (eval row params) = vs.map .ok := by
  induction es generalizing vs with
  | nil =>
    obtain rfl := Except.ok.inj h
    rfl
  | cons e es ih =>
    obtain ⟨v, ws, hv, hws, rfl⟩ := evalAll_cons_eq_ok.mp h
    rw [List.map_cons, List.map_cons, hv, ih hws]

theorem length_of_evalAll {vs : List Value} (h : evalAll row params es = .ok vs) :
    vs.length = es.length := by
  have hlength := congrArg List.length (map_eval_of_evalAll h)
  rw [List.length_map, List.length_map] at hlength
  exact hlength.symm

theorem mem_of_evalAll {vs : List Value} (h : evalAll row params es = .ok vs) (he : e ∈ es) :
    ∃ v ∈ vs, e.eval row params = .ok v := by
  have hmem : e.eval row params ∈ es.map (eval row params) := List.mem_map_of_mem he
  rw [map_eval_of_evalAll h] at hmem
  obtain ⟨v, hv, heval⟩ := List.mem_map.mp hmem
  exact ⟨v, hv, heval.symm⟩

theorem exists_of_evalAll_error {err : EvalError} (h : evalAll row params es = .error err) :
    ∃ e ∈ es, e.eval row params = .error err := by
  induction es with
  | nil => contradiction
  | cons e es ih =>
    rw [evalAll] at h
    split at h
    · next hv => exact ⟨e, List.mem_cons_self .., Except.error.inj h ▸ hv⟩
    · obtain ⟨e', he', hv⟩ := ih (exceptMap_eq_error_iff.mp h)
      exact ⟨e', List.mem_cons_of_mem e he', hv⟩

end Expr

end PullQuery
