import PullQuery.Value

/-!
# Scan keys

A scan key restricts one column of an index by comparing it with an argument.

## Main definitions

* `ScanOp`, `ScanOp.holds`: the comparisons an index can serve
* `ScanKey`, `ScanKey.admits`, `ScanKey.range`
* `KeyRange`: the keys between two bounds

## Main results

* `ScanKey.contains_range`: the range of a scan key holds the keys that compare as it asks
-/

namespace PullQuery

/-- The comparisons that an index can serve. -/
inductive ScanOp where
  | eq
  | lt
  | le
  | gt
  | ge
deriving DecidableEq, Repr

namespace ScanOp

/-- Whether a key stands in this relation to an argument, in the order of keys. -/
def holds (op : ScanOp) (key argument : Value) : Bool :=
  match op with
  | eq => key == argument
  | lt => (compare key argument).isLT
  | le => (compare key argument).isLE
  | gt => (compare key argument).isGT
  | ge => (compare key argument).isGE

def symbol : ScanOp → String
  | eq => "="
  | lt => "<"
  | le => "<="
  | gt => ">"
  | ge => ">="

end ScanOp

/-- One end of a range of keys. -/
inductive Bound where
  | unbounded
  | included (v : Value)
  | excluded (v : Value)
deriving DecidableEq

/-- The keys between two bounds. -/
structure KeyRange where
  low : Bound
  high : Bound
deriving DecidableEq

namespace KeyRange

/-- Whether a key is not below the lower bound. -/
def admitsBelow (low : Bound) (key : Value) : Bool :=
  match low with
  | .unbounded => true
  | .included v => (compare v key).isLE
  | .excluded v => (compare v key).isLT

/-- Whether a key is not above the upper bound. -/
def admitsAbove (high : Bound) (key : Value) : Bool :=
  match high with
  | .unbounded => true
  | .included v => (compare key v).isLE
  | .excluded v => (compare key v).isLT

def contains (r : KeyRange) (key : Value) : Bool :=
  admitsBelow r.low key && admitsAbove r.high key

end KeyRange

/-- A restriction of a column by a comparison. -/
structure ScanKey where
  column : Nat
  op : ScanOp
  argument : Value
deriving DecidableEq

namespace ScanKey

/-- The keys that the comparison admits. -/
def range (k : ScanKey) : KeyRange :=
  match k.op with
  | .eq => ⟨.included k.argument, .included k.argument⟩
  | .lt => ⟨.unbounded, .excluded k.argument⟩
  | .le => ⟨.unbounded, .included k.argument⟩
  | .gt => ⟨.excluded k.argument, .unbounded⟩
  | .ge => ⟨.included k.argument, .unbounded⟩

/-- Whether a key satisfies the restriction; NULL on either side never does. -/
def admits (k : ScanKey) (key : Value) : Bool :=
  !key.isNull && !k.argument.isNull && k.op.holds key k.argument

theorem contains_range (k : ScanKey) (key : Value) :
    k.range.contains key = k.op.holds key k.argument := by
  -- Bounds compare the argument with the key where the operator compares the key with it.
  have hswap : compare k.argument key = (compare key k.argument).swap :=
    Std.OrientedCmp.eq_swap
  have heq : (key == k.argument) = (compare key k.argument).isEq := by
    rw [Bool.eq_iff_iff, ← Value.compare_eq_eq_iff]
    cases compare key k.argument <;> simp
  -- What is left is a table of the operators and the three outcomes of a comparison.
  obtain ⟨column, op, argument⟩ := k
  cases op <;>
    simp only [range, KeyRange.contains, KeyRange.admitsBelow, KeyRange.admitsAbove,
      ScanOp.holds, hswap, heq] <;>
    cases compare key argument <;> rfl

end ScanKey

end PullQuery
