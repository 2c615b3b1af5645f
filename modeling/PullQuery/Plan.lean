import PullQuery.Expr.Basic
import PullQuery.Heap.Relation
import PullQuery.Index.Ordered

/-!
# Plans

A plan is a tree of nodes that read relations and indexes and pass rows or bitmaps on.

## Main definitions

* `IndexQual`: the qualifier of an index scan
* `Plan`
-/

namespace PullQuery

/-- A qualifier that an index answers. Its arguments are evaluated when the scan begins. -/
inductive IndexQual where
  | comparison (column : Nat) (op : ScanOp) (arg : Expr)
  | inList (column : Nat) (args : List Expr)
deriving DecidableEq

namespace IndexQual

def column : IndexQual → Nat
  | comparison column _ _ => column
  | inList column _ => column

def args : IndexQual → List Expr
  | comparison _ _ arg => [arg]
  | inList _ args => args

def op : IndexQual → ScanOp
  | comparison _ op _ => op
  | inList _ _ => .eq

end IndexQual

/-- How a bitmap node combines the bitmaps of its inputs. -/
inductive Combination where
  | and
  | or
deriving DecidableEq, Repr

/-- A query plan. -/
inductive Plan where
  | seqScan (relation : Relation) (direction : Direction) (qual? : Option Expr)
  | bitmapIndexScan (index : BitmapIndex) (qual : IndexQual)
  | bitmapCombine (how : Combination) (inputs : List Plan)
  | subqueryScan (input : Plan) (projection? : Option (List Expr)) (shape : Shape)
  | hash (input : Plan) (keys : List Expr) (keepNulls : Bool) (estimatedRows : Nat)

namespace Plan

/-- Whether the root of a plan makes a bitmap. -/
def producesBitmap : Plan → Bool
  | bitmapIndexScan .. => true
  | bitmapCombine .. => true
  | _ => false

end Plan

end PullQuery
