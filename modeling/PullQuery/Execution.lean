import PullQuery.Node.Tree

/-!
# Executing plans

A plan is executed by building its tree, initializing it, asking its root for rows until there
are no more, and releasing it, whatever the outcome.

## Main definitions

* `collectRows`: the rows that a tree returns
* `execute`: the rows of a plan and the counters of its nodes
-/

namespace PullQuery

/-- The counters of a node after an execution. -/
structure NodeStats where
  kind : NodeKind
  /-- The distance from the root. -/
  depth : Nat
  counters : Counters
deriving DecidableEq

/-- The result of an execution. -/
structure QueryOutput where
  rows : List Row
  /-- The counters of every node, parents before inputs. -/
  stats : List NodeStats
deriving DecidableEq

/-- The rows that a tree returns until there are no more, at most `limit` of them, as long as
the statement is not interrupted. -/
def collectRows (ctx : Context) (op : Operator) :
    Nat → Node op → Session → Except Error (List Row) × Node op
  | 0, n, _ => (.ok [], n)
  | limit + 1, n, w =>
    match w.checkInterrupt with
    | .error e => (.error e, n)
    | .ok () =>
      match n.next ctx op w with
      | (.error e, n, _) => (.error e, n)
      | (.ok none, n, _) => (.ok [], n)
      | (.ok (some slot), n, w) =>
        match slot.row? with
        | none => (.error (.invalidState op.kind.name "collect from" "missing a row"), n)
        | some row =>
          let (rows, n) := collectRows ctx op limit n w
          (rows.map (row :: ·), n)

/-- Initializes a tree and collects its rows. -/
def runTree (ctx : Context) (flags : Flags) (op : Operator) (w : Session) :
    Except Error (List Row) × Node op :=
  match (Node.fresh op).init ctx op flags with
  | (.error e, n) => (.error e, n)
  | (.ok (), n) => collectRows ctx op (n.rowsAhead op + 1) n w

/-- The rows of a plan and the counters of its nodes. -/
def execute (ctx : Context) (flags : Flags) (p : Plan) (w : Session) : Except Error QueryOutput :=
  match Operator.ofPlan p with
  | .error e => .error e.toError
  | .ok op =>
    let (result, n) := runTree ctx flags op w
    result.map fun rows =>
      { rows
        stats := ((n.finish op).describe 0 op).map fun (kind, depth, base) =>
          ⟨kind, depth, base.counters⟩ }

end PullQuery
