import PullQuery.Expr.Eval
import PullQuery.Node.Base
import PullQuery.Shape
import PullQuery.Slot

/-!
# Subquery scans

A subquery scan passes the rows of its input on under a declared shape, each unchanged or
replaced by the values of a list of expressions.

## Main definitions

* `SubqueryScan`, `SubqueryScan.State`
* `SubqueryScan.project`: the row that takes the place of an input row
-/

namespace PullQuery

/-- A scan of the rows of an input. -/
structure SubqueryScan where
  projection? : Option (List Expr)
  shape : Shape

namespace SubqueryScan

/-- The state of a subquery scan. -/
structure State where
  base : NodeBase := {}
  /-- The projected row, if there is a projection. -/
  slot : Slot := .empty

/-- Takes over a row of the input: projects it into the slot, if there is a projection. -/
def project (n : SubqueryScan) (s : State) (input : Slot) : Except Error Unit × State :=
  match n.projection? with
  | none => (.ok (), s)
  | some es =>
    match input.row? with
    | none =>
      (.error (.invalidState NodeKind.subqueryScan.name "project" "missing a child row"), s)
    | some row =>
      match Expr.evalAll row s.base.params es with
      | .error e => (.error e.toError, s)
      | .ok vs => (.ok (), { s with slot := .owned input.tid? ⟨vs⟩ })

/-- The row that the scan shows when its input shows `input`. -/
def shownSlot (n : SubqueryScan) (s : State) (input : Slot) : Slot :=
  match n.projection? with
  | none => input
  | some _ => s.slot

end SubqueryScan

end PullQuery
