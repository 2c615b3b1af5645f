import PullQuery.Node.Lifecycle
import PullQuery.Value

/-!
# What every node carries

Each node has a state in its life, counters of its work, and the parameter values that its
expressions are evaluated with.

## Main definitions

* `Counters`
* `NodeBase`
* `NodeBase.start`, `NodeBase.restart`, `NodeBase.exhausted`, `NodeBase.finish`: the steps of a
  node's life
* `NodeBase.started`, `NodeBase.restarted`, `NodeBase.ended`: the base behind such a step
-/

namespace PullQuery

/-- Counters of a node's work over its life. -/
structure Counters where
  /-- Initializations and restarts. -/
  loops : Nat := 0
  /-- Rows returned. -/
  rowsOut : Nat := 0
  /-- Row versions or rows read. -/
  tuplesFetched : Nat := 0
  rowsInvisible : Nat := 0
  rowsFiltered : Nat := 0
  blocksRead : Nat := 0
  indexCalls : Nat := 0
  /-- Exact and lossy blocks of the last bitmap. -/
  exactBlocks : Nat := 0
  lossyBlocks : Nat := 0
  /-- Batches, spilled rows and bytes, and the greatest memory of a hash table. -/
  batches : Nat := 0
  spilledTuples : Nat := 0
  spillBytes : Nat := 0
  peakMemory : Nat := 0
deriving DecidableEq, Repr

/-- The counters with the names they are reported under. -/
def Counters.named (c : Counters) : List (String × Nat) :=
  [("loops", c.loops), ("rows_out", c.rowsOut), ("tuples_fetched", c.tuplesFetched),
    ("rows_invisible", c.rowsInvisible), ("rows_filtered", c.rowsFiltered),
    ("blocks_read", c.blocksRead), ("index_calls", c.indexCalls),
    ("exact_blocks", c.exactBlocks), ("lossy_blocks", c.lossyBlocks), ("batches", c.batches),
    ("spilled_tuples", c.spilledTuples), ("spill_bytes", c.spillBytes),
    ("peak_memory", c.peakMemory)]

/-- State, counters and parameter values of a node. -/
structure NodeBase where
  state : NodeState := .unstarted
  counters : Counters := {}
  params : List Value := []
deriving DecidableEq

namespace NodeBase

/-- The base with one more loop counted. -/
def countLoop (b : NodeBase) : NodeBase :=
  { b with counters := { b.counters with loops := b.counters.loops + 1 } }

/-- The base of a node that takes its first parameter values. -/
def takeParams (b : NodeBase) (params : List Value) : NodeBase := { b with params }

/-- The base of a node that has been set up. -/
def started (b : NodeBase) : NodeBase := { b.countLoop with state := .active }

/-- The base of a node with new parameter values, if there are any, that is active again. -/
def restarted (b : NodeBase) (params? : Option (List Value)) : NodeBase :=
  { b with state := .active, params := params?.getD b.params }

def exhausted (b : NodeBase) : NodeBase := { b with state := b.state.exhaust }

def ended (b : NodeBase) : NodeBase := { b with state := .ended }

/-- Starts a node that has been set up and counts the loop. -/
def start (b : NodeBase) (kind : NodeKind) : Except Error NodeBase :=
  (b.state.start kind).map fun state => { b.countLoop with state }

/-- Starts a running node again, with new parameter values if there are any. -/
def restart (b : NodeBase) (kind : NodeKind) (operation : String)
    (params? : Option (List Value)) : Except Error NodeBase :=
  (b.state.restart kind operation).map fun state =>
    { b with state, params := params?.getD b.params }

/-- Ends a node; tells whether it had not ended before. -/
def finish (b : NodeBase) : Bool × NodeBase :=
  (b.state.finish.1, { b with state := b.state.finish.2 })

/-- Only an unstarted node is started. -/
theorem start_eq (b : NodeBase) (kind : NodeKind) :
    b.start kind = (b.state.ensureUnstarted kind).map fun _ => b.started := by
  rw [start, NodeState.start]
  cases b.state.ensureUnstarted kind <;> rfl

/-- Only a running node is started again. -/
theorem restart_eq (b : NodeBase) (kind : NodeKind) (operation : String)
    (params? : Option (List Value)) :
    b.restart kind operation params? =
      (b.state.ensureRunning kind operation).map fun _ => b.restarted params? := by
  rw [restart, NodeState.restart]
  cases b.state.ensureRunning kind operation <;> rfl

theorem finish_eq (b : NodeBase) : b.finish = (!b.state.isEnded, b.ended) := rfl

theorem ended_of_isEnded {b : NodeBase} (h : b.state.isEnded = true) : b.ended = b := by
  rw [ended, ← eq_of_beq h]

/-- The base with one more row returned. -/
def countRow (b : NodeBase) : NodeBase :=
  { b with counters := { b.counters with rowsOut := b.counters.rowsOut + 1 } }

end NodeBase

end PullQuery
