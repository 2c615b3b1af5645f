import Mathlib.Order.MinMax
import PullQuery.Proofs.Expr.Truth

/-!
# Three-valued logic

Conditions are made of comparisons and tests by negation, conjunction and disjunction, and NULL
is a third truth value between false and true. Conjunction is the lesser of two truth values,
disjunction the greater, and negation turns the order around. Evaluation does not look at
operands that cannot matter, so that it may have a value where some part has none; it is then
the value of the formula whatever the missing parts are taken for.

## Main definitions

* `Truth`: the truth values, in their order
* `Connective.join`: what the connectives make of truth values
* `Formula`, `Formula.value`, `Formula.toExpr`: formulas, their truth values, their expressions

## Main results

* `Formula.value_of_eval`, `Formula.eval_of_values`: evaluation against truth values
* `Formula.eval_agrees`
-/

namespace PullQuery

/-! ## Truth values -/

/-- The truth values of conditions. -/
inductive Truth where
  | no
  | unknown
  | yes
deriving DecidableEq

namespace Truth

/-- The place of a truth value between false and true. -/
def rank : Truth → Int
  | no => -1
  | unknown => 0
  | yes => 1

theorem rank_injective : Function.Injective rank := by
  intro s t h
  cases s <;> cases t <;> first | rfl | contradiction

instance : LinearOrder Truth := LinearOrder.lift' rank rank_injective

/-- The opposite truth value; what is unknown stays so. -/
def not : Truth → Truth
  | no => yes
  | unknown => unknown
  | yes => no

theorem not_antitone : Antitone not := by
  intro s t h
  cases s <;> cases t <;> first | decide | exact absurd h (by decide)

/-- The value that stands for a truth value. -/
def toValue : Truth → Value
  | no => .boolean false
  | unknown => .null
  | yes => .boolean true

end Truth

namespace Connective

/-- What a connective makes of truth values: the lesser or the greater of them. -/
def join : Connective → Truth → Truth → Truth
  | and, s, t => min s t
  | or, s, t => max s t

/-- The connective that a negation turns this one into. -/
def dual : Connective → Connective
  | and => or
  | or => and

variable (op : Connective) (s t u : Truth)

theorem join_comm : op.join s t = op.join t s := by
  cases op with
  | and => exact min_comm s t
  | or => exact max_comm s t

theorem join_assoc : op.join (op.join s t) u = op.join s (op.join t u) := by
  cases op with
  | and => exact min_assoc s t u
  | or => exact max_assoc s t u

theorem not_join : (op.join s t).not = op.dual.join s.not t.not := by
  cases op with
  | and => exact Truth.not_antitone.map_min
  | or => exact Truth.not_antitone.map_max

end Connective

/-! ## Operations on truth values -/

theorem UnaryOp.apply_not_toValue (t : Truth) :
    UnaryOp.not.apply t.toValue = .ok t.not.toValue := by
  cases t <;> rfl

theorem BinaryOp.apply_toValue (op : Connective) (s t : Truth) :
    (connective op).apply s.toValue t.toValue = .ok (op.join s t).toValue := by
  cases op <;> cases s <;> cases t <;> rfl

/-- A left operand that decides is the result whatever the right one is. -/
theorem BinaryOp.join_of_isDecidedBy {op : Connective} {s : Truth}
    (h : (connective op).isDecidedBy s.toValue = true) (t : Truth) : op.join s t = s := by
  cases op <;> cases s <;> first | contradiction | (cases t <;> rfl)

/-! ## Formulas -/

/-- A formula over leaves. -/
inductive Formula (ι : Type) where
  | leaf (i : ι)
  | not (f : Formula ι)
  | connect (op : Connective) (f g : Formula ι)

namespace Formula

variable {ι : Type}

/-- The truth value of a formula whose leaves have given ones. -/
def value (truth : ι → Truth) : Formula ι → Truth
  | leaf i => truth i
  | not f => (f.value truth).not
  | connect op f g => op.join (f.value truth) (g.value truth)

/-- The expression of a formula whose leaves are given expressions. -/
def toExpr (expr : ι → Expr) : Formula ι → Expr
  | leaf i => expr i
  | not f => .unary .not (f.toExpr expr)
  | connect op f g => .binary (.connective op) (f.toExpr expr) (g.toExpr expr)

/-- Whether truth values are those of the leaves. A leaf without a value may have any. -/
def Completes (row : Row) (params : List Value) (expr : ι → Expr) (truth : ι → Truth) : Prop :=
  ∀ i v, (expr i).eval row params = .ok v → v = (truth i).toValue

variable {row : Row} {params : List Value} {expr : ι → Expr} {truth : ι → Truth} {v : Value}

/-- A formula that has a value has its truth value, however the leaves without values are
completed. -/
theorem value_of_eval (htruth : Completes row params expr truth) {f : Formula ι}
    (h : (f.toExpr expr).eval row params = .ok v) : v = (f.value truth).toValue := by
  induction f generalizing v with
  | leaf i => exact htruth i v h
  | not f ih =>
    rw [toExpr, Expr.eval_unary] at h
    obtain ⟨a, ha, happly⟩ := exceptBind_eq_ok_iff.mp h
    rw [ih ha, UnaryOp.apply_not_toValue] at happly
    exact (Except.ok.inj happly).symm
  | connect op f g ihf ihg =>
    rw [toExpr, Expr.eval_binary] at h
    obtain ⟨a, ha, h⟩ := exceptBind_eq_ok_iff.mp h
    obtain rfl := ihf ha
    split at h
    · -- The right operand was skipped and may have no value at all.
      next hdecided =>
      rw [value, BinaryOp.join_of_isDecidedBy hdecided]
      exact (Except.ok.inj h).symm
    · obtain ⟨b, hb, happly⟩ := exceptBind_eq_ok_iff.mp h
      rw [ihg hb, BinaryOp.apply_toValue] at happly
      exact (Except.ok.inj happly).symm

/-- A formula whose leaves all have truth values has its own. -/
theorem eval_of_values (hleaves : ∀ i, (expr i).eval row params = .ok (truth i).toValue)
    (f : Formula ι) : (f.toExpr expr).eval row params = .ok (f.value truth).toValue := by
  induction f with
  | leaf i => exact hleaves i
  | not f ih =>
    rw [toExpr, Expr.eval_unary, ih]
    exact UnaryOp.apply_not_toValue _
  | connect op f g ihf ihg =>
    rw [toExpr, Expr.eval_binary, ihf, ihg]
    show (if _ then _ else _) = _
    split
    · next hdecided => rw [value, BinaryOp.join_of_isDecidedBy hdecided]
    · exact BinaryOp.apply_toValue op _ _

/-- A condition and its negation are not both true. -/
theorem not_holds_both (e : Expr) :
    ¬ (e.holds row params = .ok true ∧ (Expr.unary .not e).holds row params = .ok true) := by
  rintro ⟨he, hnot⟩
  rw [Expr.holds_eq_true_iff] at he hnot
  rw [Expr.eval_unary, he] at hnot
  exact absurd hnot (by decide)

/-- Let every leaf have a truth value or none. If a formula has a value, that is its truth value
however the leaves without values are completed, which is always possible. If all leaves have
values, then every formula has its truth value, the connectives are commutative and associative
and dual to each other, and no formula is true together with its negation. -/
theorem eval_agrees (row : Row) (params : List Value) {expr : ι → Expr}
    (hexpr : ∀ i v, (expr i).eval row params = .ok v → ∃ t : Truth, v = t.toValue) :
    let eval := fun f : Formula ι => (f.toExpr expr).eval row params
    let holds := fun f : Formula ι => (f.toExpr expr).holds row params
    (∃ truth, Completes row params expr truth) ∧
    (∀ f v, eval f = .ok v → ∀ truth, Completes row params expr truth →
      v = (f.value truth).toValue) ∧
    ((∀ i, ∃ v, (expr i).eval row params = .ok v) →
      (∀ truth, Completes row params expr truth → ∀ f, eval f = .ok (f.value truth).toValue) ∧
      (∀ op f g, eval (connect op f g) = eval (connect op g f)) ∧
      (∀ op f g h, eval (connect op (connect op f g) h) =
        eval (connect op f (connect op g h))) ∧
      (∀ op f g, eval (not (connect op f g)) = eval (connect op.dual (not f) (not g))) ∧
      ∀ f, ¬ (holds f = .ok true ∧ holds (not f) = .ok true)) := by
  intro eval holds
  have hcompletes : ∃ truth, Completes row params expr truth := by
    have hleaf : ∀ i, ∃ t : Truth, ∀ v, (expr i).eval row params = .ok v → v = t.toValue := by
      intro i
      rcases hi : (expr i).eval row params with e | w
      · exact ⟨.unknown, nofun⟩
      · obtain ⟨t, ht⟩ := hexpr i w hi
        refine ⟨t, fun v hv => ?_⟩
        rw [← Except.ok.inj hv, ht]
    exact ⟨fun i => (hleaf i).choose, fun i => (hleaf i).choose_spec⟩
  refine ⟨hcompletes, fun f v hv truth htruth => value_of_eval htruth hv, fun hvalues => ?_⟩
  have heval : ∀ truth, Completes row params expr truth →
      ∀ f, eval f = .ok (f.value truth).toValue := by
    intro truth htruth
    apply eval_of_values
    intro i
    obtain ⟨v, hv⟩ := hvalues i
    rw [hv, htruth i v hv]
  -- The laws hold of the truth values, and evaluation gives nothing else.
  obtain ⟨truth, htruth⟩ := hcompletes
  have heval' := heval truth htruth
  refine ⟨heval, ?_, ?_, ?_, fun f => not_holds_both _⟩
  · intro op f g
    rw [heval', heval', value, value, op.join_comm]
  · intro op f g h
    rw [heval', heval', value, value, value, value, op.join_assoc]
  · intro op f g
    rw [heval', heval', value, value, value, value, value, op.not_join]

/-- The first three columns of a row. -/
def threeColumns : Fin 3 → Expr := fun i => .column i

/-- The first two columns, in this order or the other, and the third. -/
def columnsJoined (op : Connective) : Formula (Fin 3) :=
  connect op (connect op (leaf 1) (leaf 0)) (leaf 2)

/-- A false column decides over a column that is NULL and one that is missing; in a row that has
all three, so that the formula may be grouped in another way. -/
theorem eval_agrees_threeColumns :
    let short : Row := ⟨[.boolean false, .null]⟩
    let full : Row := ⟨[.boolean false, .null, .boolean true]⟩
    (∀ i v, (threeColumns i).eval short [] = .ok v → ∃ t : Truth, v = t.toValue) ∧
    (∀ i v, (threeColumns i).eval full [] = .ok v → ∃ t : Truth, v = t.toValue) ∧
    (∀ truth, Completes short [] threeColumns truth →
      ((columnsJoined .and).value truth).toValue = .boolean false) ∧
    ((columnsJoined .or).toExpr threeColumns).eval full [] =
      ((connect .or (leaf 1) (connect .or (leaf 0) (leaf 2))).toExpr threeColumns).eval
        full [] := by
  intro short full
  have hshort : ∀ i v, (threeColumns i).eval short [] = .ok v → ∃ t : Truth, v = t.toValue
    | 0, _, hv => ⟨.no, (Except.ok.inj hv).symm⟩
    | 1, _, hv => ⟨.unknown, (Except.ok.inj hv).symm⟩
    | 2, _, hv => nomatch hv
  have hfull : ∀ i v, (threeColumns i).eval full [] = .ok v → ∃ t : Truth, v = t.toValue
    | 0, _, hv => ⟨.no, (Except.ok.inj hv).symm⟩
    | 1, _, hv => ⟨.unknown, (Except.ok.inj hv).symm⟩
    | 2, _, hv => ⟨.yes, (Except.ok.inj hv).symm⟩
  have hvalues : ∀ i, ∃ v, (threeColumns i).eval full [] = .ok v
    | 0 => ⟨_, rfl⟩
    | 1 => ⟨_, rfl⟩
    | 2 => ⟨_, rfl⟩
  obtain ⟨-, hvalue, -⟩ := eval_agrees short [] hshort
  obtain ⟨-, -, hlaws⟩ := eval_agrees full [] hfull
  obtain ⟨-, -, hassoc, -, -⟩ := hlaws hvalues
  refine ⟨hshort, hfull, fun truth htruth => ?_, hassoc .or _ _ _⟩
  exact (hvalue (columnsJoined .and) (.boolean false) rfl truth htruth).symm

end Formula

end PullQuery
