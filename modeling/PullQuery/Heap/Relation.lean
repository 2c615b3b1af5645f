import PullQuery.Heap.Scan

/-!
# Relations

A relation is a heap together with what its storage may do to a scan: refuse to open it, fail
single fetches or restarts, or not remember positions. A request that fails does not move
the scan.

## Main definitions

* `StorageFaults`: when a storage fails
* `Relation`, `RelationScan`
* `RelationScan.fetch`, `RelationScan.rescan`, `RelationScan.mark`, `RelationScan.restore`
-/

namespace PullQuery

/-- When a storage fails and what it reports. Requests are numbered from one over the life of
a scan. -/
structure StorageFaults where
  onOpen? : Option String := none
  onFetch? : Nat → Option String := fun _ => none
  onRescan? : Nat → Option String := fun _ => none

/-- A heap as plans read it. -/
structure Relation where
  heap : Heap
  faults : StorageFaults := {}
  /-- Whether the relation says that its scans remember positions. -/
  claimsPositioning : Bool := heap.positioning
  /-- Whether its scans pass positions on to the heap. -/
  keepsPositions : Bool := true

namespace Relation

/-- The relation of a heap whose storage never fails. -/
def ofHeap (heap : Heap) : Relation := { heap }

def shape (r : Relation) : Shape := r.heap.shape

end Relation

/-- A scan of a relation, with the requests made of its storage. -/
structure RelationScan where
  scan : HeapScan
  fetches : Nat := 0
  rescans : Nat := 0
deriving DecidableEq

namespace RelationScan

/-- Opens a scan. -/
def start (r : Relation) (direction : Direction) : Except StorageFault RelationScan :=
  match r.faults.onOpen? with
  | some m => .error (.reported m)
  | none => .ok { scan := .start r.heap direction }

/-- Fetches the next version in a direction. -/
def fetch (s : RelationScan) (r : Relation) (direction : Direction) :
    Except StorageFault (Option HeapTuple) × RelationScan :=
  let s := { s with fetches := s.fetches + 1 }
  match r.faults.onFetch? s.fetches with
  | some m => (.error (.reported m), s)
  | none =>
    let (result, scan) := s.scan.fetch r.heap direction
    (result, { s with scan })

/-- Goes back to where the scan began. -/
def rescan (s : RelationScan) (r : Relation) : Except StorageFault Unit × RelationScan :=
  let s := { s with rescans := s.rescans + 1 }
  match r.faults.onRescan? s.rescans with
  | some m => (.error (.reported m), s)
  | none => (.ok (), { s with scan := s.scan.rescan })

/-- Remembers the position. -/
def mark (s : RelationScan) (r : Relation) : Except StorageFault ScanPosition :=
  if r.keepsPositions then s.scan.mark r.heap else .error .noPositioning

/-- Returns to a remembered position. -/
def restore (s : RelationScan) (r : Relation) (p : ScanPosition) :
    Except StorageFault RelationScan :=
  if r.keepsPositions then (s.scan.restore r.heap p).map fun scan => { s with scan }
  else .error .noPositioning

end RelationScan

end PullQuery
