import PullQuery.Heap.Basic

/-!
# Visibility of row versions

An oracle decides which row versions a snapshot sees. The oracle of multiversion concurrency
sees a version whose insertion had committed before the snapshot, or is the snapshot's own,
unless its deletion had too.

## Main definitions

* `Oracle`: visibility as a scan asks for it
* `Oracle.all`, `Oracle.mvcc`
* `isVisible`: the rule of multiversion concurrency
-/

namespace PullQuery

/-- Whether a transaction's changes are final as a snapshot sees them. -/
def committedBefore (aborted : List TxId) (s : Snapshot) (x : TxId) : Bool :=
  !aborted.contains x && s.sawFinished x

/-- Whether a transaction is the one that the snapshot is taken for. -/
def Snapshot.isOwn (s : Snapshot) (x : TxId) : Bool := !x.isNone && x == s.current

/-- Whether a snapshot sees a version, given the transactions that were aborted. -/
def isVisible (aborted : List TxId) (s : Snapshot) (t : HeapTuple) : Bool :=
  s.isAny ||
    ((s.isOwn t.xmin || committedBefore aborted s t.xmin) &&
      (t.xmax.isNone || (!s.isOwn t.xmax && !committedBefore aborted s t.xmax)))

/-- Decides visibility. An oracle may raise the interrupt of the statement that asks it. -/
structure Oracle where
  sees : Snapshot → HeapTuple → Bool
  /-- Whether the question with this number, counted from one, interrupts the statement. -/
  interrupts : Nat → Bool := fun _ => false

namespace Oracle

/-- Sees every version. -/
def all : Oracle := { sees := fun _ _ => true }

/-- Sees versions by the rule of multiversion concurrency. -/
def mvcc (aborted : List TxId) : Oracle := { sees := isVisible aborted }

end Oracle

end PullQuery
