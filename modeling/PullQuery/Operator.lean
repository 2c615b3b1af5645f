import PullQuery.Node.BitmapScan
import PullQuery.Node.HashBuild
import PullQuery.Node.SeqScan
import PullQuery.Node.SubqueryScan

/-!
# Operator trees

A plan that passes the checks on its structure becomes a tree of operators: a chain of
subquery scans and hash nodes over a sequential scan or a tree of bitmap nodes.

## Main definitions

* `PlanFault`: why a plan is refused
* `Operator`, `Operator.ofPlan`
* `Operator.kind`, `Operator.shape`, `Operator.capabilities`
-/

namespace PullQuery

/-- Why a plan is refused. -/
inductive PlanFault where
  /-- The qualifier of an index scan is about a column that the index does not cover. -/
  | otherColumn (asked : Nat) (index : String) (covered : Nat)
  /-- An argument of an index qualifier reads a column. -/
  | columnInArgument
  | noInputs (kind : NodeKind)
  | noBitmap (kind : NodeKind)
  /-- A subquery scan declares another number of columns than it returns. -/
  | otherArity (declared produced : Nat)
  | noKeys
deriving DecidableEq, Repr

namespace PlanFault

def message : PlanFault → String
  | otherColumn asked index covered =>
    "qualifier references column " ++ toString asked ++ " but index " ++ index
      ++ " covers column " ++ toString covered
  | columnInArgument => "index qualifier arguments may not reference columns"
  | noInputs kind => kind.name ++ " requires at least one input"
  | noBitmap kind => kind.name ++ " input must produce a bitmap"
  | otherArity declared produced =>
    "subquery scan declares " ++ toString declared ++ " columns but produces "
      ++ toString produced
  | noKeys => "hash node requires at least one key"

def toError (f : PlanFault) : Error := .invalidPlan f.message

end PlanFault

/-- A tree of operators. -/
inductive Operator where
  | seqScan (scan : SeqScan)
  | bitmap (op : BitmapOp)
  | subquery (scan : SubqueryScan) (input : Operator)
  | hash (build : HashBuild) (input : Operator)

namespace Operator

def kind : Operator → NodeKind
  | seqScan _ => .seqScan
  | bitmap op => op.kind
  | subquery .. => .subqueryScan
  | hash .. => .hash

/-- The columns of the rows. Bitmap nodes return no rows; a hash node has its input's shape. -/
def shape : Operator → Shape
  | seqScan scan => scan.relation.shape
  | bitmap _ => .empty
  | subquery scan _ => scan.shape
  | hash _ input => input.shape

/-- What the operator can do; a subquery scan can do what its input can. -/
def capabilities : Operator → Capabilities
  | seqScan scan => scan.capabilities
  | bitmap _ => {}
  | subquery _ input => input.capabilities
  | hash .. => {}

end Operator

/-! ## From plans -/

/-- The kind of the node that makes a combination. -/
def Combination.kind : Combination → NodeKind
  | and => .bitmapAnd
  | or => .bitmapOr

/-- An index scan whose qualifier the index can answer. -/
def IndexScan.ofQual (index : BitmapIndex) (qual : IndexQual) : Except PlanFault IndexScan :=
  if qual.column ≠ index.column then .error (.otherColumn qual.column index.name index.column)
  else if qual.args.all Expr.isRowIndependent then .ok ⟨index, qual⟩
  else .error .columnInArgument

mutual

/-- The bitmap nodes of an input to a combination. -/
def BitmapOp.ofInput (parent : Combination) : Plan → Except PlanFault BitmapOp
  | .bitmapIndexScan index qual => (IndexScan.ofQual index qual).map .indexScan
  | .bitmapCombine how inputs =>
    if inputs.isEmpty then .error (.noInputs how.kind)
    else (BitmapOp.ofInputs how inputs).map (.combine how)
  | _ => .error (.noBitmap parent.kind)

def BitmapOp.ofInputs (parent : Combination) : List Plan → Except PlanFault (List BitmapOp)
  | [] => .ok []
  | p :: ps =>
    match BitmapOp.ofInput parent p with
    | .error e => .error e
    | .ok op => (BitmapOp.ofInputs parent ps).map (op :: ·)

end

namespace Operator

/-- The operators of a plan. -/
def ofPlan : Plan → Except PlanFault Operator
  | .seqScan relation direction qual? => .ok (seqScan ⟨relation, direction, qual?⟩)
  | .bitmapIndexScan index qual =>
    (IndexScan.ofQual index qual).map fun scan => bitmap (.indexScan scan)
  | .bitmapCombine how inputs =>
    if inputs.isEmpty then .error (.noInputs how.kind)
    else (BitmapOp.ofInputs how inputs).map fun ops => bitmap (.combine how ops)
  | .subqueryScan input projection? shape =>
    match ofPlan input with
    | .error e => .error e
    | .ok op =>
      let produced := (projection?.map List.length).getD op.shape.arity
      if produced ≠ shape.arity then .error (.otherArity shape.arity produced)
      else .ok (subquery ⟨projection?, shape⟩ op)
  | .hash input keys keepNulls estimatedRows =>
    if keys.isEmpty then .error .noKeys
    else (ofPlan input).map (hash ⟨keys, .folding keepNulls, estimatedRows⟩)

end Operator

end PullQuery
