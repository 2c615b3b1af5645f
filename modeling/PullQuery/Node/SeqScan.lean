import PullQuery.Context
import PullQuery.Expr.Eval
import PullQuery.Heap.Relation
import PullQuery.Node.Base
import PullQuery.Slot

/-!
# Sequential scans

A sequential scan returns the rows of a relation in the order of their locations, or against
it, skipping versions that the snapshot does not see and rows that a condition rejects.

## Main definitions

* `SeqScan`, `SeqScan.State`
* `SeqScan.fetch`, `SeqScan.rescan`, `SeqScan.mark`, `SeqScan.restore`
-/

namespace PullQuery

/-- A sequential scan of a relation. -/
structure SeqScan where
  relation : Relation
  direction : Direction
  qual? : Option Expr

namespace SeqScan

/-- The state of a sequential scan. -/
structure State where
  base : NodeBase := {}
  scan? : Option RelationScan := none
  slot : Slot := .empty
  mark? : Option ScanPosition := none

def capabilities (n : SeqScan) : Capabilities :=
  { backward := true, markRestore := n.relation.claimsPositioning }

/-- The error of an operation on a scan that is not open. -/
def notOpen : Error := .invalidState NodeKind.seqScan.name "fetch from" "not open"

/-- Opens the scan. -/
def openScan (n : SeqScan) (s : State) : Except Error Unit × State :=
  match RelationScan.start n.relation n.direction with
  | .error e => (.error e.toError, s)
  | .ok scan => (.ok (), { s with scan? := some scan })

/-- Whether the condition of the scan accepts a row. -/
def accepts (n : SeqScan) (params : List Value) (row : Row) : Except EvalError Bool :=
  match n.qual? with
  | none => .ok true
  | some qual => qual.holds row params

namespace State

/-- Notes that a fetch ended where `scan` stands. -/
def moved (s : State) (scan : RelationScan) : State :=
  { s with
    scan? := some scan
    base := { s.base with
      counters := { s.base.counters with blocksRead := scan.scan.blocksRead } } }

def countFetched (s : State) : State :=
  { s with base := { s.base with
      counters := { s.base.counters with tuplesFetched := s.base.counters.tuplesFetched + 1 } } }

def countInvisible (s : State) : State :=
  { s with base := { s.base with
      counters := { s.base.counters with rowsInvisible := s.base.counters.rowsInvisible + 1 } } }

def countFiltered (s : State) : State :=
  { s with base := { s.base with
      counters := { s.base.counters with rowsFiltered := s.base.counters.rowsFiltered + 1 } } }

end State

/-- Fetches versions until one is visible and accepted, at most `limit` of them. Tells whether
there was one; it is then in the slot. -/
def fetchUpTo (n : SeqScan) (ctx : Context) :
    Nat → RelationScan → State → Session → Except Error Bool × State × Session
  | 0, _, s, w => (.ok false, { s with slot := .empty }, w)
  | limit + 1, scan, s, w =>
    match scan.fetch n.relation n.direction with
    | (.error e, scan) => (.error e.toError, { s with scan? := some scan }, w)
    | (.ok none, scan) => (.ok false, { s.moved scan with slot := .empty }, w)
    | (.ok (some t), scan) =>
      let s := (s.moved scan).countFetched
      match w.sees ctx t with
      | (false, w) => fetchUpTo n ctx limit scan s.countInvisible w
      | (true, w) =>
        match n.accepts s.base.params t.row with
        | .error e => (.error e.toError, s, w)
        | .ok false => fetchUpTo n ctx limit scan s.countFiltered w
        | .ok true => (.ok true, { s with slot := .borrowed t.tid t.row }, w)

/-- How many versions lie ahead. -/
def rowsAhead (n : SeqScan) (s : State) : Nat :=
  match s.scan? with
  | none => 0
  | some scan => scan.scan.ahead n.direction

/-- Fetches the next row into the slot and tells whether there was one. -/
def fetch (n : SeqScan) (ctx : Context) (s : State) (w : Session) :
    Except Error Bool × State × Session :=
  match s.scan? with
  | none => (.error notOpen, s, w)
  | some scan => n.fetchUpTo ctx (n.rowsAhead s + 1) scan s w

/-- Goes back to the first row and forgets the mark. -/
def rescan (n : SeqScan) (s : State) : Except Error Unit × State :=
  let s := { s with slot := .empty, mark? := none }
  match s.scan? with
  | none => (.error notOpen, s)
  | some scan =>
    match scan.rescan n.relation with
    | (.error e, scan) => (.error e.toError, { s with scan? := some scan })
    | (.ok (), scan) => (.ok (), { s with scan? := some scan })

/-- Remembers the position of the scan. -/
def mark (n : SeqScan) (s : State) : Except Error Unit × State :=
  match s.scan? with
  | none => (.error notOpen, s)
  | some scan =>
    match scan.mark n.relation with
    | .error e => (.error e.toError, s)
    | .ok p => (.ok (), { s with mark? := some p })

/-- Returns to the remembered position. -/
def restore (n : SeqScan) (s : State) : Except Error Unit × State :=
  match s.mark? with
  | none => (.error (.invalidState NodeKind.seqScan.name "restore a position on" "unmarked"), s)
  | some p =>
    let s := { s with slot := .empty }
    match s.scan? with
    | none => (.error notOpen, s)
    | some scan =>
      match scan.restore n.relation p with
      | .error e => (.error e.toError, s)
      | .ok scan => (.ok (), { s with scan? := some scan })

/-- Closes the scan. -/
def release (s : State) : State := { s with slot := .empty, scan? := none, mark? := none }

end SeqScan

end PullQuery
