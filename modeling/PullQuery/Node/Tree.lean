import PullQuery.Operator

/-!
# Node trees

The state of an operator tree and the operations on its root. Every operation checks the state
of the node, does the work of its kind, which may operate on the input in turn, and leaves the
tree in a definite state whether it succeeds or fails.

## Main definitions

* `Node`: the state of an operator tree, `Node.fresh`
* `Node.init`, `Node.next`, `Node.buildBitmap`, `Node.rescan`, `Node.finish`
* `Node.markPos`, `Node.restorePos`
* `Node.buildTable`: the hash table of a hash node
* `Node.describe`: the state of every node
-/

namespace PullQuery

/-- The state of an operator tree. -/
inductive Node : Operator → Type where
  | seqScan {scan : SeqScan} (s : SeqScan.State) : Node (.seqScan scan)
  | bitmap {op : BitmapOp} (s : BitmapNode op) : Node (.bitmap op)
  | subquery {scan : SubqueryScan} {op : Operator} (s : SubqueryScan.State) (input : Node op) :
      Node (.subquery scan op)
  | hash {build : HashBuild} {op : Operator} (s : HashBuild.State) (input : Node op) :
      Node (.hash build op)

namespace Node

/-- The state of a tree that has not been initialized. -/
def fresh : (op : Operator) → Node op
  | .seqScan _ => seqScan {}
  | .bitmap op => bitmap (.fresh op)
  | .subquery _ op => subquery {} (fresh op)
  | .hash _ op => hash {} (fresh op)

def base : {op : Operator} → Node op → NodeBase
  | _, seqScan s => s.base
  | _, bitmap s => s.cell.base
  | _, subquery s _ => s.base
  | _, hash s _ => s.base

/-- The row that the node shows; it is the last one returned, until the next operation. -/
def slot : (op : Operator) → Node op → Slot
  | .seqScan _, seqScan s => s.slot
  | .bitmap _, bitmap _ => .empty
  | .subquery scan op, subquery s input => scan.shownSlot s (input.slot op)
  | .hash _ _, hash _ _ => .empty

/-- A bound on the rows that the tree can still return. -/
def rowsAhead : (op : Operator) → Node op → Nat
  | .seqScan scan, seqScan s => scan.rowsAhead s
  | .bitmap _, bitmap _ => 0
  | .subquery _ op, subquery _ input => rowsAhead op input
  | .hash _ _, hash _ _ => 0

/-! ## Setting up and releasing -/

/-- Checks that a node may be initialized and can do what is asked of it. -/
def admitInit (op : Operator) (b : NodeBase) (flags : Flags) : Except Error Unit :=
  match b.state.ensureUnstarted op.kind with
  | .error e => .error e
  | .ok () => flags.check op.kind op.capabilities

/-- Initializes a tree. A node whose setup fails stays unstarted. -/
def init (ctx : Context) :
    (op : Operator) → Node op → Flags → Except Error Unit × Node op
  | .seqScan scan, seqScan s, flags =>
    match admitInit (.seqScan scan) s.base flags with
    | .error e => (.error e, seqScan s)
    | .ok () =>
      match scan.openScan { s with base := s.base.takeParams ctx.params } with
      | (.error e, s) => (.error e, seqScan s)
      | (.ok (), s) =>
        match s.base.start .seqScan with
        | .error e => (.error e, seqScan s)
        | .ok base => (.ok (), seqScan { s with base })
  | .bitmap op, bitmap s, flags =>
    let (result, s) := BitmapNode.init ctx flags op s
    (result, bitmap s)
  | .subquery scan op, subquery s input, flags =>
    match admitInit (.subquery scan op) s.base flags with
    | .error e => (.error e, subquery s input)
    | .ok () =>
      let s := { s with base := s.base.takeParams ctx.params }
      match init ctx op input flags with
      | (.error e, input) => (.error e, subquery s input)
      | (.ok (), input) =>
        match s.base.start .subqueryScan with
        | .error e => (.error e, subquery s input)
        | .ok base => (.ok (), subquery { s with base } input)
  | .hash build op, hash s input, flags =>
    match admitInit (.hash build op) s.base flags with
    | .error e => (.error e, hash s input)
    | .ok () =>
      let s := { s with base := s.base.takeParams ctx.params }
      match init ctx op input flags.ofInput with
      | (.error e, input) => (.error e, hash s input)
      | (.ok (), input) =>
        match s.base.start .hash with
        | .error e => (.error e, hash s input)
        | .ok base => (.ok (), hash { s with base } input)

/-- Releases a tree. A node that is ended is left alone with its input. -/
def finish : (op : Operator) → Node op → Node op
  | .seqScan _, seqScan s =>
    match s.base.finish with
    | (false, base) => seqScan { s with base }
    | (true, base) => seqScan { SeqScan.release s with base }
  | .bitmap op, bitmap s => bitmap (BitmapNode.finish op s)
  | .subquery _ op, subquery s input =>
    match s.base.finish with
    | (false, base) => subquery { s with base } input
    | (true, base) => subquery { base, slot := .empty } (finish op input)
  | .hash _ op, hash s input =>
    match s.base.finish with
    | (false, base) => hash { s with base } input
    | (true, base) => hash { HashBuild.reset s with base } (finish op input)

/-! ## Rows -/

/-- Checks that rows may be fetched from a node; tells whether there may be more of them. -/
def admitFetch (op : Operator) (b : NodeBase) : Except Error Bool :=
  (b.state.ensureRunning op.kind "fetch from").map fun _ => !b.state.isExhausted

/-- Returns the next row. A node that has returned its last row returns none until it is
started again, without asking its input. Bitmap and hash nodes return no rows: they make their
bitmap or build their table and are exhausted. -/
def next (ctx : Context) :
    (op : Operator) → Node op → Session → Except Error (Option Slot) × Node op × Session
  | .seqScan scan, seqScan s, w =>
    match admitFetch (.seqScan scan) s.base with
    | .error e => (.error e, seqScan s, w)
    | .ok false => (.ok none, seqScan s, w)
    | .ok true =>
      match scan.fetch ctx s w with
      | (.error e, s, w) => (.error e, seqScan s, w)
      | (.ok false, s, w) => (.ok none, seqScan { s with base := s.base.exhausted }, w)
      | (.ok true, s, w) => (.ok (some s.slot), seqScan { s with base := s.base.countRow }, w)
  | .bitmap op, bitmap s, w =>
    match admitFetch (.bitmap op) s.cell.base with
    | .error e => (.error e, bitmap s, w)
    | .ok false => (.ok none, bitmap s, w)
    | .ok true =>
      match BitmapNode.build ctx op s with
      | (.error e, s) => (.error e, bitmap s, w)
      | (.ok _, s) => (.ok none, bitmap s.exhausted, w)
  | .subquery scan op, subquery s input, w =>
    match admitFetch (.subquery scan op) s.base with
    | .error e => (.error e, subquery s input, w)
    | .ok false => (.ok none, subquery s input, w)
    | .ok true =>
      match next ctx op input w with
      | (.error e, input, w) => (.error e, subquery s input, w)
      | (.ok none, input, w) =>
        (.ok none, subquery { base := s.base.exhausted, slot := .empty } input, w)
      | (.ok (some row), input, w) =>
        match scan.project s row with
        | (.error e, s) => (.error e, subquery s input, w)
        | (.ok (), s) =>
          (.ok (some (scan.shownSlot s row)), subquery { s with base := s.base.countRow } input, w)
  | .hash build op, hash s input, w =>
    match admitFetch (.hash build op) s.base with
    | .error e => (.error e, hash s input, w)
    | .ok false => (.ok none, hash s input, w)
    | .ok true =>
      -- One call of the input more than it has rows, to see its end.
      match build.build ctx op.shape.width (next ctx op) (rowsAhead op input + 1) s input w with
      | (.error e, s, input, w) => (.error e, hash s input, w)
      | (.ok (), s, input, w) => (.ok none, hash { s with base := s.base.exhausted } input, w)

/-- Builds the table of a hash node. -/
def buildTable (ctx : Context) (build : HashBuild) (op : Operator) :
    Node (.hash build op) → Session → Except Error Unit × Node (.hash build op) × Session
  | hash s input, w =>
    match build.build ctx op.shape.width (next ctx op) (rowsAhead op input + 1) s input w with
    | (result, s, input, w) => (result, hash s input, w)

/-- Makes the bitmap of a bitmap node; other nodes have none. -/
def buildBitmap (ctx : Context) :
    (op : Operator) → Node op → Except Error TidBitmap × Node op
  | op, n =>
    match n.base.state.ensureRunning op.kind "build a bitmap from" with
    | .error e => (.error e, n)
    | .ok () =>
      match op, n with
      | .bitmap op, bitmap s =>
        let (result, s) := BitmapNode.build ctx op s
        (result, bitmap s)
      | op, n => (.error (.capabilityNotSupported op.kind.name "bitmap output"), n)

/-! ## Starting again -/

/-- Starts a tree again, with new parameter values if there are any. A hash node keeps its
table unless there are. -/
def rescan (params? : Option (List Value)) :
    (op : Operator) → Node op → Except Error Unit × Node op
  | .seqScan scan, seqScan s =>
    match s.base.restart .seqScan "rescan" params? with
    | .error e => (.error e, seqScan s)
    | .ok base =>
      match scan.rescan { s with base } with
      | (.error e, s) => (.error e, seqScan s)
      | (.ok (), s) => (.ok (), seqScan { s with base := s.base.countLoop })
  | .bitmap op, bitmap s =>
    let (result, s) := BitmapNode.rescan params? op s
    (result, bitmap s)
  | .subquery _ op, subquery s input =>
    match s.base.restart .subqueryScan "rescan" params? with
    | .error e => (.error e, subquery s input)
    | .ok base =>
      let s : SubqueryScan.State := { base, slot := .empty }
      match rescan params? op input with
      | (.error e, input) => (.error e, subquery s input)
      | (.ok (), input) => (.ok (), subquery { s with base := s.base.countLoop } input)
  | .hash _ op, hash s input =>
    match s.base.restart .hash "rescan" params? with
    | .error e => (.error e, hash s input)
    | .ok base =>
      let s := { s with base }
      if HashBuild.rebuilds s params? then
        let s := HashBuild.reset s
        match rescan params? op input with
        | (.error e, input) => (.error e, hash s input)
        | (.ok (), input) => (.ok (), hash { s with base := s.base.countLoop } input)
      else
        match HashBuild.rewind s with
        | (.error e, s) => (.error e, hash s input)
        | (.ok (), s) => (.ok (), hash { s with base := s.base.countLoop } input)

/-! ## Positions -/

/-- Checks that a node remembers positions and is running. -/
def admitPosition (op : Operator) (b : NodeBase) (operation : String) : Except Error Unit :=
  if op.capabilities.markRestore then b.state.ensureRunning op.kind operation
  else .error (.capabilityNotSupported op.kind.name "mark/restore")

/-- Remembers the position of the row returned last. -/
def markPos : (op : Operator) → Node op → Except Error Unit × Node op
  | .seqScan scan, seqScan s =>
    match admitPosition (.seqScan scan) s.base "mark a position on" with
    | .error e => (.error e, seqScan s)
    | .ok () =>
      let (result, s) := scan.mark s
      (result, seqScan s)
  | .subquery scan op, subquery s input =>
    match admitPosition (.subquery scan op) s.base "mark a position on" with
    | .error e => (.error e, subquery s input)
    | .ok () =>
      let (result, input) := markPos op input
      (result, subquery s input)
  | op, n => (.error (.capabilityNotSupported op.kind.name "mark/restore"), n)

/-- Returns to the remembered position; the next row is the one behind it. -/
def restorePos : (op : Operator) → Node op → Except Error Unit × Node op
  | .seqScan scan, seqScan s =>
    match admitPosition (.seqScan scan) s.base "restore a position on" with
    | .error e => (.error e, seqScan s)
    | .ok () =>
      match scan.restore s with
      | (.error e, s) => (.error e, seqScan s)
      | (.ok (), s) =>
        match s.base.restart .seqScan "restore a position on" none with
        | .error e => (.error e, seqScan s)
        | .ok base => (.ok (), seqScan { s with base })
  | .subquery scan op, subquery s input =>
    match admitPosition (.subquery scan op) s.base "restore a position on" with
    | .error e => (.error e, subquery s input)
    | .ok () =>
      match restorePos op input with
      | (.error e, input) => (.error e, subquery { s with slot := .empty } input)
      | (.ok (), input) =>
        match s.base.restart .subqueryScan "restore a position on" none with
        | .error e => (.error e, subquery { s with slot := .empty } input)
        | .ok base => (.ok (), subquery { base, slot := .empty } input)
  | op, n => (.error (.capabilityNotSupported op.kind.name "mark/restore"), n)

/-! ## Description -/

/-- Kind, distance from the root, and base of every node, parents before inputs. -/
def describe : Nat → (op : Operator) → Node op → List (NodeKind × Nat × NodeBase)
  | depth, .seqScan _, seqScan s => [(.seqScan, depth, s.base)]
  | depth, .bitmap op, bitmap s => BitmapNode.describe depth op s
  | depth, .subquery _ op, subquery s input =>
    (.subqueryScan, depth, s.base) :: describe (depth + 1) op input
  | depth, .hash _ op, hash s input => (.hash, depth, s.base) :: describe (depth + 1) op input

end Node

end PullQuery
