import PullQuery.Proofs.Index.Scan
import PullQuery.Proofs.Node.Arity

/-!
# Arguments that read no row

An index scan evaluates the arguments of its qualifier once and without a row. This is as good as
any row: an expression that reads no column has the same value for every row, or fails for every
row with the same error, and no plan is accepted in which an argument of an index scan reads a
column. So the scans of a tree look up the keys that the arguments would give for any row.

## Main definitions

* `BitmapOp.scans`, `Operator.scans`: the index scans of a tree
* `IndexQual.keysFor`: the keys that the arguments of a qualifier give for a row

## Main results

* `Operator.Checked.args`: no scan of a tree that is checked reads a column
* `IndexQual.keysFor_eq_keys`: the keys of arguments that read no column
* `Operator.row_irrelevant`
-/

namespace PullQuery

/-! ## The scans of a tree -/

mutual

/-- The index scans of a tree of bitmap nodes, from left to right. -/
def BitmapOp.scans : BitmapOp → List IndexScan
  | .indexScan scan => [scan]
  | .combine _ inputs => BitmapOp.allScans inputs

def BitmapOp.allScans : List BitmapOp → List IndexScan
  | [] => []
  | op :: ops => op.scans ++ BitmapOp.allScans ops

end

/-- The index scans of a tree, at whatever depth. -/
def Operator.scans : Operator → List IndexScan
  | seqScan _ => []
  | bitmap op => op.scans
  | subquery _ op => scans op
  | hash _ op => scans op

variable {scan : IndexScan}

namespace BitmapOp

mutual

theorem RowIndependent.args : {op : BitmapOp} → op.RowIndependent → scan ∈ op.scans →
    ∀ e ∈ scan.qual.args, e.isRowIndependent = true
  | .indexScan _, hargs, hscan => by
    obtain rfl := List.mem_singleton.mp hscan
    exact hargs
  | .combine _ _, hinputs, hscan => AllRowIndependent.args hinputs hscan

theorem AllRowIndependent.args : {ops : List BitmapOp} → AllRowIndependent ops →
    scan ∈ allScans ops → ∀ e ∈ scan.qual.args, e.isRowIndependent = true
  | [], _, hscan => nomatch hscan
  | _ :: _, ⟨hfirst, hothers⟩, hscan => by
    rcases List.mem_append.mp hscan with hscan | hscan
    · exact hfirst.args hscan
    · exact AllRowIndependent.args hothers hscan

end

end BitmapOp

/-- No argument of an index scan in a tree that is checked reads a column. -/
theorem Operator.Checked.args {op : Operator} (h : op.Checked) (hscan : scan ∈ op.scans) :
    ∀ e ∈ scan.qual.args, e.isRowIndependent = true := by
  induction op with
  | seqScan _ => contradiction
  | bitmap op => exact BitmapOp.RowIndependent.args h hscan
  | subquery _ op ih => exact ih h.2 hscan
  | hash _ op ih => exact ih h hscan

/-! ## Keys -/

namespace IndexQual

/-- The keys that a qualifier would look up if its arguments were evaluated for a row. -/
def keysFor (row : Row) (q : IndexQual) (params : List Value) : Except EvalError (List Value) :=
  (Expr.evalAll row params q.args).map distinctKeys

theorem keysFor_empty (q : IndexQual) (params : List Value) :
    q.keysFor .empty params = q.keys params := rfl

/-- If no argument reads a column, every row gives the keys that a scan looks up, or else the error
that it fails with. -/
theorem keysFor_eq_keys {q : IndexQual} (h : ∀ e ∈ q.args, e.isRowIndependent = true)
    (row : Row) (params : List Value) : q.keysFor row params = q.keys params := by
  rw [← keysFor_empty, keysFor, keysFor, Expr.evalAll_eq_of_isRowIndependent h row .empty]

end IndexQual

/-- An expression that passes the check for row independence has, whatever the parameters, one and
the same value for all rows of any length, or fails for all of them with one and the same error,
whose message is then the same as well. In the tree of a plan that is accepted, the keys of every
index scan, for whatever parameters its node holds, are therefore those of any row instead of the
empty one, and so is the error if there are none. -/
theorem Operator.row_irrelevant :
    (∀ e : Expr, e.isRowIndependent = true → ∀ (params : List Value) (row row' : Row),
      e.eval row params = e.eval row' params) ∧
    ∀ (p : Plan) (op : Operator), ofPlan p = .ok op → ∀ scan ∈ op.scans,
      ∀ (params : List Value) (row : Row),
        scan.qual.keysFor row params = scan.qual.keys params := by
  constructor
  · intro e he params row row'
    exact Expr.eval_eq_of_isRowIndependent he row row'
  · intro p op hp scan hscan params row
    exact IndexQual.keysFor_eq_keys ((checked_of_ofPlan hp).args hscan) row params

/-- A condition on a parameter that spares the evaluation of a quotient without value. -/
def guardedQuotient : Expr :=
  .binary (.connective .and) (.param 0)
    (.equal (.binary (.arithmetic .div) (.literal (.int64 1)) (.literal (.int64 0)))
      (.literal (.int64 1)))

/-- The rows whose key is NULL, a parameter or its successor. -/
def parameterAndSuccessor : IndexQual :=
  .inList 0 [.binary (.arithmetic .add) (.param 0) (.literal (.int64 1)), .literal .null, .param 0]

/-- A scan for these keys, deep in a plan. -/
def nestedScans : Plan :=
  .hash
    (.subqueryScan
      (.bitmapCombine .or
        [.bitmapIndexScan IndexScan.mixedIndex.toBitmapIndex IndexScan.wideQual,
          .bitmapIndexScan IndexScan.mixedIndex.toBitmapIndex parameterAndSuccessor])
      none .empty)
    [.literal (.int64 0)] false 0

theorem Operator.row_irrelevant_nestedScans :
    guardedQuotient.isRowIndependent = true ∧
    guardedQuotient.eval ⟨[.int64 7]⟩ [.boolean false] = .ok (.boolean false) ∧
    guardedQuotient.eval ⟨[.null, .int32 3]⟩ [.boolean true] = .error .divisionByZero ∧
    ∃ op, ofPlan nestedScans = .ok op ∧ ∃ scan ∈ op.scans, scan.qual = parameterAndSuccessor ∧
      scan.qual.keysFor ⟨[.int64 7]⟩ [.int64 4] = .ok [.int64 4, .int64 5] ∧
      scan.qual.keysFor ⟨[.null, .int32 3]⟩ [] = .error (.noParameter 0) := by
  have hindependent : guardedQuotient.isRowIndependent = true := rfl
  have heval := row_irrelevant.1 guardedQuotient hindependent
  refine ⟨hindependent, (heval _ _ .empty).trans rfl, (heval _ _ .empty).trans rfl, _, rfl,
    _, .tail _ (.head _), rfl, ?_, ?_⟩
  · exact (row_irrelevant.2 nestedScans _ rfl _ (.tail _ (.head _)) _ _).trans rfl
  · exact (row_irrelevant.2 nestedScans _ rfl _ (.tail _ (.head _)) _ _).trans rfl

end PullQuery
