import PullQuery.Bitmap.Basic
import PullQuery.Heap.Visibility
import PullQuery.Spill.Store

/-!
# Execution contexts

What the nodes of one execution share: the snapshot, the oracle of visibility, the limits of
memory, and the interrupt of the statement.

## Main definitions

* `Config`: limits of memory
* `Context`: what does not change during an execution
* `Session`, `Session.sees`, `Session.checkInterrupt`: what does
-/

namespace PullQuery

/-- Limits on the memory of nodes. -/
structure Config where
  /-- The memory budget of a hash table. -/
  workMem : Nat := 4 * 1024 * 1024
  bitmapLimits : BitmapLimits := {}
  /-- The most batches of a hash table. -/
  maxBatches : Nat := 0x10000
deriving DecidableEq, Repr

/-- Limits the batches of hash tables to a count of at most `2 ^ 63`, rounded up to a power of
two. -/
def Config.withMaxBatches (c : Config) (n : Nat) : Config :=
  { c with maxBatches := nextPowerOfTwo (max n 1) }

/-- What the nodes of an execution share. -/
structure Context where
  snapshot : Snapshot := .any
  oracle : Oracle := .all
  config : Config := {}
  /-- The capacity of each spill store. -/
  spillCapacity? : Option Nat := none
  /-- The parameter values that nodes begin with. -/
  params : List Value := []

/-- The state that the nodes of an execution share. -/
structure Session where
  /-- Whether the statement has been interrupted. -/
  interrupted : Bool := false
  /-- How many questions the oracle was asked. -/
  questions : Nat := 0
deriving DecidableEq, Repr

namespace Session

/-- Asks the oracle about a row version. -/
def sees (w : Session) (ctx : Context) (t : HeapTuple) : Bool × Session :=
  (ctx.oracle.sees ctx.snapshot t,
    { interrupted := w.interrupted || ctx.oracle.interrupts (w.questions + 1)
      questions := w.questions + 1 })

/-- Fails if the statement has been interrupted. -/
def checkInterrupt (w : Session) : Except Error Unit :=
  if w.interrupted then .error .canceled else .ok ()

end Session

end PullQuery
