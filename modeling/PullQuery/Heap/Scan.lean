import PullQuery.Heap.Basic

/-!
# Heap scans

A scan walks over the versions that a heap holds when the scan begins, in either direction.
It can be started again, and it can return to a position it remembers.

## Main definitions

* `Direction`, `ScanPosition`
* `HeapScan`, `HeapScan.fetch`, `HeapScan.rescan`, `HeapScan.mark`, `HeapScan.restore`
-/

namespace PullQuery

inductive Direction where
  | forward
  | backward
deriving DecidableEq, Repr

namespace Direction

def reverse : Direction → Direction
  | forward => backward
  | backward => forward

end Direction

/-- A position that a scan can return to. -/
inductive ScanPosition where
  | beforeStart
  | onTuple (tid : Tid)
  | afterEnd
deriving DecidableEq, Repr

/-- Where a scan stands among its locations. -/
inductive Cursor where
  | beforeStart
  | onIndex (i : Nat)
  | afterEnd
deriving DecidableEq, Repr

namespace Cursor

/-- One step over `n` locations. At an end, and over no locations, a step leads nowhere. -/
def step (n : Nat) : Cursor → Direction → Cursor
  | beforeStart, .forward => if 0 < n then .onIndex 0 else beforeStart
  | beforeStart, .backward => beforeStart
  | afterEnd, .backward => if 0 < n then .onIndex (n - 1) else afterEnd
  | afterEnd, .forward => afterEnd
  | .onIndex i, .forward => if i + 1 < n then .onIndex (i + 1) else afterEnd
  | .onIndex i, .backward => if i = 0 then beforeStart else .onIndex (i - 1)

/-- Where a scan begins. -/
def start : Direction → Cursor
  | .forward => beforeStart
  | .backward => afterEnd

/-- How many of `n` locations lie ahead in a direction. -/
def ahead (n : Nat) : Cursor → Direction → Nat
  | beforeStart, .forward => n
  | beforeStart, .backward => 0
  | afterEnd, .forward => 0
  | afterEnd, .backward => n
  | .onIndex i, .forward => n - (i + 1)
  | .onIndex i, .backward => i

end Cursor

/-- The state of a scan. -/
structure HeapScan where
  /-- The locations of the versions to walk over, in order. -/
  locations : List Tid
  direction : Direction
  cursor : Cursor
  /-- The block of the last version fetched since the scan was started or started again. -/
  lastBlock? : Option UInt32 := none
  /-- How often a fetch went to another block than the fetch before it. -/
  blocksRead : Nat := 0
deriving DecidableEq

namespace HeapScan

/-- The scan of a heap's versions, before its first fetch. -/
def start (h : Heap) (direction : Direction) : HeapScan :=
  { locations := h.locations, direction, cursor := .start direction }

/-- How many versions lie ahead in a direction. -/
def ahead (s : HeapScan) (direction : Direction) : Nat :=
  s.cursor.ahead s.locations.length direction

/-- Counts the block of a fetched version, if it differs from the last one. -/
def visitBlock (s : HeapScan) (block : UInt32) : HeapScan :=
  if s.lastBlock? = some block then s
  else { s with lastBlock? := some block, blocksRead := s.blocksRead + 1 }

@[simp]
theorem visitBlock_locations (s : HeapScan) (block : UInt32) :
    (s.visitBlock block).locations = s.locations := by
  unfold visitBlock
  split <;> rfl

@[simp]
theorem visitBlock_direction (s : HeapScan) (block : UInt32) :
    (s.visitBlock block).direction = s.direction := by
  unfold visitBlock
  split <;> rfl

@[simp]
theorem visitBlock_cursor (s : HeapScan) (block : UInt32) :
    (s.visitBlock block).cursor = s.cursor := by
  unfold visitBlock
  split <;> rfl

/-- Steps in a direction and fetches the version there, or none at an end. -/
def fetch (s : HeapScan) (h : Heap) (direction : Direction) :
    Except StorageFault (Option HeapTuple) × HeapScan :=
  let s := { s with cursor := s.cursor.step s.locations.length direction }
  match s.cursor with
  | .onIndex i =>
    match s.locations[i]? with
    | none => (.ok none, s)
    | some tid =>
      match h.get? tid with
      | none => (.error (.vanished tid), s)
      | some t => (.ok (some t), s.visitBlock tid.block)
  | _ => (.ok none, s)

/-- Goes back to where the scan began. -/
def rescan (s : HeapScan) : HeapScan :=
  { s with cursor := .start s.direction, lastBlock? := none }

/-- The position that the scan has. -/
def position (s : HeapScan) : ScanPosition :=
  match s.cursor with
  | .beforeStart => .beforeStart
  | .afterEnd => .afterEnd
  | .onIndex i => (s.locations[i]?).elim .afterEnd .onTuple

/-- Remembers the position. -/
def mark (s : HeapScan) (h : Heap) : Except StorageFault ScanPosition :=
  if h.positioning then .ok s.position else .error .noPositioning

/-- Returns to a remembered position. -/
def restore (s : HeapScan) (h : Heap) (p : ScanPosition) : Except StorageFault HeapScan :=
  if h.positioning then
    match p with
    | .beforeStart => .ok { s with cursor := .beforeStart }
    | .afterEnd => .ok { s with cursor := .afterEnd }
    | .onTuple tid =>
      match Keyed.indexOf? id tid s.locations with
      | some i => .ok { s with cursor := .onIndex i }
      | none => .error (.unknownPosition tid)
  else .error .noPositioning

end HeapScan

end PullQuery
