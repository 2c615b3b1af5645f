import PullQuery.Expr.Basic

/-!
# Evaluation of expressions

The value of an expression for a row and parameter values. NULL follows three-valued logic:
comparisons and arithmetic with NULL are NULL, and a connective is decided by its decisive
operand even beside NULL. The right operand of a connective is not evaluated if the left one
decides. Integers are exact within their width, and operations that would leave it fail.

## Main definitions

* `Value.compareAs`: the order of two values as comparisons see it
* `Value.arithmetic`: sums, differences, products and quotients
* `Expr.eval`, `Expr.evalAll`, `Expr.holds`: values of expressions and conditions
-/

namespace PullQuery

namespace Value

/-- The integer that a value of either integer type is. -/
def toInt? : Value → Option Int
  | int32 i => some i.toInt
  | int64 i => some i.toInt
  | _ => none

/-- The float that a number is, integers rounded. -/
def toNumber? : Value → Option Binary64
  | int32 i => some (.ofInt i.toInt)
  | int64 i => some (.ofInt i.toInt)
  | float64 x => some x
  | _ => none

/-- The order of two values that are not NULL. Integers compare as integers, an integer and a
float as floats, other values only with values of their type. -/
def compareAs (l r : Value) : Except EvalError Ordering :=
  match l.toInt?, r.toInt? with
  | some a, some b => .ok (compare a b)
  | _, _ =>
    match l.toNumber?, r.toNumber? with
    | some x, some y => .ok (compare x y)
    | _, _ => if l.type? = r.type? then .ok (compare l r) else .error (.incomparable l r)

/-- A 32-bit integer, if the number is one. -/
def ofInt32? (n : Int) : Except EvalError Value :=
  if -0x80000000 ≤ n ∧ n < 0x80000000 then .ok (int32 (Int32.ofInt n))
  else .error .integerOutOfRange

/-- A 64-bit integer, if the number is one. -/
def ofInt64? (n : Int) : Except EvalError Value :=
  if -0x8000000000000000 ≤ n ∧ n < 0x8000000000000000 then .ok (int64 (Int64.ofInt n))
  else .error .bigintOutOfRange

end Value

namespace Arithmetic

/-- The exact result on integers; quotients are rounded toward zero. -/
def onInt (op : Arithmetic) (a b : Int) : Except EvalError Int :=
  match op with
  | add => .ok (a + b)
  | sub => .ok (a - b)
  | mul => .ok (a * b)
  | div => if b = 0 then .error .divisionByZero else .ok (a.tdiv b)

/-- The rounded result on floats. -/
def onBinary64 (op : Arithmetic) (x y : Binary64) : Except EvalError Binary64 :=
  match op with
  | add => .ok (x.add y)
  | sub => .ok (x.sub y)
  | mul => .ok (x.mul y)
  | div => if y.isZero then .error .divisionByZero else .ok (x.div y)

end Arithmetic

namespace Value

/-- Arithmetic on two values that are not NULL: on 32-bit integers if both are, on 64-bit
integers if both are integers, else on floats. -/
def arithmetic (op : Arithmetic) (l r : Value) : Except EvalError Value :=
  match l, r with
  | int32 a, int32 b => (op.onInt a.toInt b.toInt).bind ofInt32?
  | l, r =>
    match l.toInt?, r.toInt? with
    | some a, some b => (op.onInt a b).bind ofInt64?
    | _, _ =>
      match l.toNumber?, r.toNumber? with
      | some x, some y => (op.onBinary64 x y).map float64
      | _, _ => .error (.undefined op l r)

/-- The connective of two Booleans. -/
def connect (op : Connective) (l r : Value) : Except EvalError Value :=
  match l, r with
  | boolean a, boolean b => .ok (boolean (op.apply a b))
  | l, r => .error (.notConnectable op l r)

end Value

/-- Whether a value decides a connective whatever the other operand is. -/
def Connective.isDecidedBy (op : Connective) (v : Value) : Bool :=
  match v with
  | .boolean b => b == op.decisive
  | _ => false

namespace BinaryOp

/-- The result on two values that are not NULL. -/
def onValues (op : BinaryOp) (l r : Value) : Except EvalError Value :=
  match op with
  | comparison c => (l.compareAs r).map fun o => .boolean (c.holds o)
  | connective c => l.connect c r
  | arithmetic a => l.arithmetic a r

/-- The result if one operand at least is NULL. -/
def besideNull (op : BinaryOp) (l r : Value) : Value :=
  match op with
  | connective c =>
    if c.isDecidedBy l || c.isDecidedBy r then .boolean c.decisive else .null
  | _ => .null

/-- The result on two values. -/
def apply (op : BinaryOp) (l r : Value) : Except EvalError Value :=
  if l.isNull || r.isNull then .ok (op.besideNull l r) else op.onValues l r

/-- Whether the left operand alone gives the result. -/
def isDecidedBy (op : BinaryOp) (l : Value) : Bool :=
  match op with
  | connective c => c.isDecidedBy l
  | _ => false

end BinaryOp

namespace Value

/-- The value with the opposite sign. -/
def negate : Value → Except EvalError Value
  | int32 i => ofInt32? (-i.toInt)
  | int64 i => ofInt64? (-i.toInt)
  | float64 x => .ok (float64 x.neg)
  | v => .error (.notNegatable v)

/-- The opposite Boolean. -/
def invert : Value → Except EvalError Value
  | boolean b => .ok (boolean !b)
  | v => .error (.notInvertible v)

end Value

namespace UnaryOp

/-- The result on a value. Tests for NULL give a Boolean; the other operators keep NULL. -/
def apply (op : UnaryOp) (v : Value) : Except EvalError Value :=
  match op with
  | isNull => .ok (.boolean v.isNull)
  | isNotNull => .ok (.boolean !v.isNull)
  | not => if v.isNull then .ok .null else v.invert
  | neg => if v.isNull then .ok .null else v.negate

end UnaryOp

namespace Expr

/-- The value of an expression for a row and parameter values. -/
def eval (row : Row) (params : List Value) : Expr → Except EvalError Value
  | column i =>
    match row.get? i with
    | some v => .ok v
    | none => .error (.noColumn i row.arity)
  | literal v => .ok v
  | param i =>
    match params[i]? with
    | some v => .ok v
    | none => .error (.noParameter i)
  | binary op l r =>
    match l.eval row params with
    | .error e => .error e
    | .ok a =>
      -- A deciding left operand is the result, and the right one may even have no value.
      if op.isDecidedBy a then .ok a
      else
        match r.eval row params with
        | .error e => .error e
        | .ok b => op.apply a b
  | unary op e =>
    match e.eval row params with
    | .error e => .error e
    | .ok v => op.apply v

/-- The values of expressions from left to right, up to the first error. -/
def evalAll (row : Row) (params : List Value) : List Expr → Except EvalError (List Value)
  | [] => .ok []
  | e :: es =>
    match e.eval row params with
    | .error e => .error e
    | .ok v => (evalAll row params es).map (v :: ·)

/-- Whether a condition is true for a row; NULL is not. -/
def holds (row : Row) (params : List Value) (e : Expr) : Except EvalError Bool :=
  match e.eval row params with
  | .error e => .error e
  | .ok (.boolean b) => .ok b
  | .ok .null => .ok false
  | .ok v => .error (.notACondition v)

end Expr

end PullQuery
