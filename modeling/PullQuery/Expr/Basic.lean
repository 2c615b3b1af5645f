import PullQuery.Error
import PullQuery.Row

/-!
# Scalar expressions

Expressions over the columns of a row and the parameters of a statement.

## Main definitions

* `Expr`: expressions, with the operators `Comparison`, `Connective`, `Arithmetic`, `UnaryOp`
* `Expr.isRowIndependent`: whether an expression reads no column
* `EvalError`: why an expression has no value
-/

namespace PullQuery

inductive Comparison where
  | eq
  | ne
  | lt
  | le
  | gt
  | ge
deriving DecidableEq, Repr

/-- Whether a comparison holds of operands in a given order. -/
def Comparison.holds : Comparison → Ordering → Bool
  | eq, o => o.isEq
  | ne, o => o.isNe
  | lt, o => o.isLT
  | le, o => o.isLE
  | gt, o => o.isGT
  | ge, o => o.isGE

/-- The connectives of three-valued logic. -/
inductive Connective where
  | and
  | or
deriving DecidableEq, Repr

namespace Connective

/-- The operand that decides the connective whatever the other operand is. -/
def decisive : Connective → Bool
  | and => false
  | or => true

def apply : Connective → Bool → Bool → Bool
  | and, a, b => a && b
  | or, a, b => a || b

def name : Connective → String
  | and => "And"
  | or => "Or"

end Connective

inductive Arithmetic where
  | add
  | sub
  | mul
  | div
deriving DecidableEq, Repr

def Arithmetic.name : Arithmetic → String
  | add => "Add"
  | sub => "Sub"
  | mul => "Mul"
  | div => "Div"

inductive BinaryOp where
  | comparison (op : Comparison)
  | connective (op : Connective)
  | arithmetic (op : Arithmetic)
deriving DecidableEq, Repr

inductive UnaryOp where
  | not
  | neg
  | isNull
  | isNotNull
deriving DecidableEq, Repr

/-- A scalar expression. -/
inductive Expr where
  | column (index : Nat)
  | literal (value : Value)
  | param (index : Nat)
  | binary (op : BinaryOp) (left right : Expr)
  | unary (op : UnaryOp) (operand : Expr)
deriving DecidableEq

namespace Expr

/-- The comparison of two expressions for equality. -/
def equal (l r : Expr) : Expr := binary (.comparison .eq) l r

/-- Whether an expression reads no column, so that its value is the same for every row. -/
def isRowIndependent : Expr → Bool
  | column _ => false
  | literal _ => true
  | param _ => true
  | binary _ l r => l.isRowIndependent && r.isRowIndependent
  | unary _ e => e.isRowIndependent

end Expr

/-- Why an expression has no value. -/
inductive EvalError where
  | noColumn (index arity : Nat)
  | noParameter (index : Nat)
  | incomparable (left right : Value)
  | notConnectable (op : Connective) (left right : Value)
  | undefined (op : Arithmetic) (left right : Value)
  | divisionByZero
  /-- A result does not fit into 32 bits. -/
  | integerOutOfRange
  /-- A result does not fit into 64 bits. -/
  | bigintOutOfRange
  | notNegatable (value : Value)
  /-- The operand of a logical negation is no Boolean. -/
  | notInvertible (value : Value)
  /-- A condition has a value that is no Boolean. -/
  | notACondition (value : Value)
deriving DecidableEq

namespace EvalError

def message : EvalError → String
  | noColumn index arity =>
    "column " ++ toString index ++ " out of range for row of " ++ toString arity ++ " columns"
  | noParameter index => "no value supplied for parameter $" ++ toString (index + 1)
  | incomparable l r => "cannot compare " ++ l.toText ++ " with " ++ r.toText
  | notConnectable op l r =>
    op.name ++ " requires boolean operands, got " ++ l.toText ++ " and " ++ r.toText
  | undefined op l r =>
    "operator " ++ op.name ++ " is not defined for " ++ l.toText ++ " and " ++ r.toText
  | divisionByZero => "division by zero"
  | integerOutOfRange => "integer out of range"
  | bigintOutOfRange => "bigint out of range"
  | notNegatable v => "cannot negate " ++ v.toText
  | notInvertible v => "NOT requires a boolean, got " ++ v.toText
  | notACondition v => "predicate produced non-boolean value " ++ v.toText

/-- The error of a statement whose expression has no value. -/
def toError (e : EvalError) : Error := .expression e.message

end EvalError

end PullQuery
