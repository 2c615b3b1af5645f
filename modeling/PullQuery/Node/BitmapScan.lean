import PullQuery.Bitmap.Algebra
import PullQuery.Context
import PullQuery.Each
import PullQuery.Expr.Eval
import PullQuery.Node.Base
import PullQuery.Plan

/-!
# Bitmap nodes

An index scan makes a bitmap from the answers of an index, one for each distinct key of its
qualifier; a combination intersects or unites the bitmaps of its inputs. A node keeps its
bitmap until it is restarted or released.

## Main definitions

* `BitmapOp`: trees of bitmap nodes
* `BitmapNode`: the state of such a tree
* `distinctKeys`, `IndexQual.keys`: the keys that an index scan looks up
* `BitmapNode.init`, `BitmapNode.build`, `BitmapNode.rescan`, `BitmapNode.finish`
-/

namespace PullQuery

/-- A scan of an index. -/
structure IndexScan where
  index : BitmapIndex
  qual : IndexQual

/-- A tree of nodes that make a bitmap. -/
inductive BitmapOp where
  | indexScan (scan : IndexScan)
  | combine (how : Combination) (inputs : List BitmapOp)

/-- The state of one bitmap node: a base and the bitmap it has made. -/
structure BitmapCell where
  base : NodeBase := {}
  bitmap? : Option TidBitmap := none

/-- The state of a tree of bitmap nodes. -/
inductive BitmapNode : BitmapOp → Type where
  | indexScan {scan : IndexScan} (cell : BitmapCell) : BitmapNode (.indexScan scan)
  | combine {how : Combination} {inputs : List BitmapOp} (cell : BitmapCell)
      (states : Each BitmapNode inputs) : BitmapNode (.combine how inputs)

namespace BitmapOp

def kind : BitmapOp → NodeKind
  | indexScan _ => .bitmapIndexScan
  | combine .and _ => .bitmapAnd
  | combine .or _ => .bitmapOr

end BitmapOp

namespace BitmapCell

/-- Keeps a bitmap and counts its blocks. -/
def record (c : BitmapCell) (m : TidBitmap) : BitmapCell :=
  { base := { c.base with counters := { c.base.counters with
      lossyBlocks := m.lossyBlocks
      exactBlocks := m.blockCount - m.lossyBlocks } }
    bitmap? := some m }

/-- Counts calls of the index. -/
def countCalls (c : BitmapCell) (calls : Nat) : BitmapCell :=
  { c with base := { c.base with counters := { c.base.counters with
      indexCalls := c.base.counters.indexCalls + calls } } }

end BitmapCell

/-! ## Index scans -/

/-- The values in order, one for those that are equal. -/
def sortedDistinct (vs : List Value) : List Value :=
  dropRepeats (fun a b : Value => a == b) (sortBy (fun a b : Value => (compare a b).isLE) vs)

/-- The keys that the values of arguments give: none for NULL, one for those that are equal. -/
def distinctKeys (vs : List Value) : List Value := sortedDistinct (vs.filter fun v => !v.isNull)

/-- The distinct keys that the arguments of a qualifier give, in order and without NULL. -/
def IndexQual.keys (q : IndexQual) (params : List Value) : Except EvalError (List Value) :=
  (Expr.evalAll .empty params q.args).map distinctKeys

namespace IndexScan

/-- Unites the answers of the index for keys in turn. Tells how many calls succeeded. -/
def collect (scan : IndexScan) : List Value → TidBitmap → Nat → Except Error TidBitmap × Nat
  | [], m, calls => (.ok m, calls)
  | key :: keys, m, calls =>
    match scan.index.build ⟨scan.qual.column, scan.qual.op, key⟩ with
    | .error e => (.error e.toError, calls)
    | .ok found => collect scan keys (m.union found) (calls + 1)

/-- Makes the bitmap of an index scan. -/
def build (scan : IndexScan) (ctx : Context) (c : BitmapCell) :
    Except Error TidBitmap × BitmapCell :=
  match c.bitmap? with
  | some m => (.ok m, c)
  | none =>
    match scan.qual.keys c.base.params with
    | .error e => (.error e.toError, c)
    | .ok keys =>
      match scan.collect keys (.empty ctx.config.bitmapLimits) 0 with
      | (.error e, calls) => (.error e, c.countCalls calls)
      | (.ok m, calls) => (.ok m, (c.countCalls calls).record m)

end IndexScan

/-! ## Combinations -/

namespace Combination

/-- The bitmap of the inputs so far with the next one. -/
def step (how : Combination) (limits : BitmapLimits) (acc? : Option TidBitmap)
    (next : TidBitmap) : TidBitmap :=
  match how, acc? with
  | and, none => next
  | and, some acc => acc.inter next
  | or, none => (TidBitmap.empty limits).union next
  | or, some acc => acc.union next

/-- Whether no further input can change the result: an intersection without candidates. -/
def isSettled (how : Combination) (m : TidBitmap) : Bool :=
  match how with
  | and => !m.hasCandidates
  | or => false

end Combination

namespace BitmapNode

def cell {op : BitmapOp} : BitmapNode op → BitmapCell
  | indexScan c => c
  | combine c _ => c

/-- The tree with its root exhausted. -/
def exhausted {op : BitmapOp} : BitmapNode op → BitmapNode op
  | indexScan c => indexScan { c with base := c.base.exhausted }
  | combine c states => combine { c with base := c.base.exhausted } states

mutual

/-- Kind, distance from the root, and base of every node, parents before inputs. -/
def describe : Nat → (op : BitmapOp) → BitmapNode op → List (NodeKind × Nat × NodeBase)
  | depth, .indexScan scan, indexScan c => [((BitmapOp.indexScan scan).kind, depth, c.base)]
  | depth, .combine how inputs, combine c states =>
    ((BitmapOp.combine how inputs).kind, depth, c.base) :: describeAll (depth + 1) inputs states

def describeAll : Nat → (ops : List BitmapOp) → Each BitmapNode ops →
    List (NodeKind × Nat × NodeBase)
  | _, [], .nil => []
  | depth, op :: ops, .cons s ss => describe depth op s ++ describeAll depth ops ss

end

/-! ## Life -/

mutual

/-- The state of a tree of nodes that have not been initialized. -/
def fresh : (op : BitmapOp) → BitmapNode op
  | .indexScan _ => indexScan {}
  | .combine _ inputs => combine {} (freshAll inputs)

def freshAll : (ops : List BitmapOp) → Each BitmapNode ops
  | [] => .nil
  | op :: ops => .cons (fresh op) (freshAll ops)

end

mutual

/-- Initializes a tree of nodes. A node whose inputs cannot be set up stays unstarted. -/
def init (ctx : Context) (flags : Flags) :
    (op : BitmapOp) → BitmapNode op → Except Error Unit × BitmapNode op
  | .indexScan scan, indexScan c =>
    match c.base.state.ensureUnstarted (BitmapOp.indexScan scan).kind with
    | .error e => (.error e, indexScan c)
    | .ok () =>
      match flags.check (BitmapOp.indexScan scan).kind {} with
      | .error e => (.error e, indexScan c)
      | .ok () =>
        let c := { c with base := c.base.takeParams ctx.params }
        match c.base.start (BitmapOp.indexScan scan).kind with
        | .error e => (.error e, indexScan c)
        | .ok base => (.ok (), indexScan { c with base })
  | .combine how inputs, combine c states =>
    match c.base.state.ensureUnstarted (BitmapOp.combine how inputs).kind with
    | .error e => (.error e, combine c states)
    | .ok () =>
      match flags.check (BitmapOp.combine how inputs).kind {} with
      | .error e => (.error e, combine c states)
      | .ok () =>
        let c := { c with base := c.base.takeParams ctx.params }
        match initAll ctx flags.ofInput inputs states with
        | (.error e, states) => (.error e, combine c states)
        | (.ok (), states) =>
          match c.base.start (BitmapOp.combine how inputs).kind with
          | .error e => (.error e, combine c states)
          | .ok base => (.ok (), combine { c with base } states)

def initAll (ctx : Context) (flags : Flags) :
    (ops : List BitmapOp) → Each BitmapNode ops → Except Error Unit × Each BitmapNode ops
  | [], .nil => (.ok (), .nil)
  | op :: ops, .cons s ss =>
    match init ctx flags op s with
    | (.error e, s) => (.error e, .cons s ss)
    | (.ok (), s) =>
      let (result, ss) := initAll ctx flags ops ss
      (result, .cons s ss)

end

mutual

/-- Releases a tree of nodes. A node that is ended is left alone with its inputs. -/
def finish : (op : BitmapOp) → BitmapNode op → BitmapNode op
  | .indexScan _, indexScan c =>
    match c.base.finish with
    | (false, base) => indexScan { c with base }
    | (true, base) => indexScan { base, bitmap? := none }
  | .combine _ inputs, combine c states =>
    match c.base.finish with
    | (false, base) => combine { c with base } states
    | (true, base) => combine { base, bitmap? := none } (finishAll inputs states)

def finishAll : (ops : List BitmapOp) → Each BitmapNode ops → Each BitmapNode ops
  | [], .nil => .nil
  | op :: ops, .cons s ss => .cons (finish op s) (finishAll ops ss)

end

mutual

/-- Starts a tree of nodes again, with new parameter values if there are any. -/
def rescan (params? : Option (List Value)) :
    (op : BitmapOp) → BitmapNode op → Except Error Unit × BitmapNode op
  | .indexScan scan, indexScan c =>
    match c.base.restart (BitmapOp.indexScan scan).kind "rescan" params? with
    | .error e => (.error e, indexScan c)
    | .ok base => (.ok (), indexScan { base := base.countLoop, bitmap? := none })
  | .combine how inputs, combine c states =>
    match c.base.restart (BitmapOp.combine how inputs).kind "rescan" params? with
    | .error e => (.error e, combine c states)
    | .ok base =>
      let c : BitmapCell := { base, bitmap? := none }
      match rescanAll params? inputs states with
      | (.error e, states) => (.error e, combine c states)
      | (.ok (), states) => (.ok (), combine { c with base := c.base.countLoop } states)

def rescanAll (params? : Option (List Value)) :
    (ops : List BitmapOp) → Each BitmapNode ops → Except Error Unit × Each BitmapNode ops
  | [], .nil => (.ok (), .nil)
  | op :: ops, .cons s ss =>
    match rescan params? op s with
    | (.error e, s) => (.error e, .cons s ss)
    | (.ok (), s) =>
      let (result, ss) := rescanAll params? ops ss
      (result, .cons s ss)

end

/-! ## Bitmaps -/

mutual

/-- Makes the bitmap of a tree of nodes, or returns the one it has. -/
def build (ctx : Context) :
    (op : BitmapOp) → BitmapNode op → Except Error TidBitmap × BitmapNode op
  | .indexScan scan, indexScan c =>
    let (result, c) := scan.build ctx c
    (result, indexScan c)
  | .combine how inputs, combine c states =>
    match c.bitmap? with
    | some m => (.ok m, combine c states)
    | none =>
      match buildAll ctx how none inputs states with
      | (.error e, states) => (.error e, combine c states)
      | (.ok m, states) => (.ok m, combine (c.record m) states)

/-- Combines the bitmaps of inputs, which must be running, with those of the inputs before
them. An intersection that has lost its last candidate is empty and needs no further input. -/
def buildAll (ctx : Context) (how : Combination) (acc? : Option TidBitmap) :
    (ops : List BitmapOp) → Each BitmapNode ops → Except Error TidBitmap × Each BitmapNode ops
  | [], .nil => (.ok (acc?.getD (.empty ctx.config.bitmapLimits)), .nil)
  | op :: ops, .cons s ss =>
    match s.cell.base.state.ensureRunning op.kind "build a bitmap from" with
    | .error e => (.error e, .cons s ss)
    | .ok () =>
      match build ctx op s with
      | (.error e, s) => (.error e, .cons s ss)
      | (.ok m, s) =>
        let acc := how.step ctx.config.bitmapLimits acc? m
        -- The inputs behind a settled result are not asked for their bitmaps.
        if how.isSettled acc then (.ok (.empty ctx.config.bitmapLimits), .cons s ss)
        else
          let (result, ss) := buildAll ctx how (some acc) ops ss
          (result, .cons s ss)

end

end BitmapNode

end PullQuery
