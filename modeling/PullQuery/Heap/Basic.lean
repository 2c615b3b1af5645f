import PullQuery.Heap.Pages
import PullQuery.Shape
import PullQuery.Storage.Fault

/-!
# Heaps

A heap stores row versions on numbered blocks. New versions go behind the last one, so that
the order of locations is the order of insertion; deleting a version only stamps it.

## Main definitions

* `Heap`, `Heap.insert`, `Heap.insertAt`, `Heap.delete`, `Heap.get?`
* `Heap.tuples`: the stored versions by increasing location

## Main results

* `Heap.get?_store`: writing a version changes what is found at its location alone
* `Heap.tuples_store`: it goes to its place among all versions
* `Heap.hasSlot_nextTid`: insertion finds only locations that blocks have
-/

namespace PullQuery

/-- A relation stored in memory. -/
structure Heap where
  name : String
  shape : Shape
  /-- How many versions insertion puts on a block. -/
  tuplesPerPage : Nat := Tid.maxOffset
  tuplesPerPage_le : tuplesPerPage ≤ Tid.maxOffset := by exact Nat.le_refl _
  /-- Whether scans can return to remembered positions. -/
  positioning : Bool := true
  pages : HeapPages := .empty
  /-- The number of stored versions. -/
  size : Nat := 0
  size_eq : size = pages.tuples.length := by exact HeapPages.zero_eq_length_empty

namespace Heap

variable {h : Heap} {t : HeapTuple} {tid : Tid}

/-- Limits how many versions insertion puts on a block, between one and what a block holds. -/
def withTuplesPerPage (h : Heap) (n : Nat) : Heap :=
  { h with
    tuplesPerPage := max 1 (min n Tid.maxOffset)
    tuplesPerPage_le := Nat.max_le.mpr ⟨by decide, Nat.min_le_right n _⟩ }

def isEmpty (h : Heap) : Bool := h.size == 0

/-- The number of blocks with versions. -/
def pageCount (h : Heap) : Nat := h.pages.toList.length

/-- The version stored at a location. -/
def get? (h : Heap) (tid : Tid) : Option HeapTuple := h.pages.get? tid

/-- The stored versions by increasing location. -/
def tuples (h : Heap) : List HeapTuple := h.pages.tuples

theorem size_eq_length (h : Heap) : h.size = h.tuples.length := h.size_eq

theorem isEmpty_iff : h.isEmpty = true ↔ h.tuples = [] := by
  rw [isEmpty, beq_iff_eq, size_eq_length, List.length_eq_zero_iff]

theorem sorted_tuples (h : Heap) : Keyed.Sorted HeapTuple.tid h.tuples := h.pages.sorted_tuples

theorem pairwise_tuples (h : Heap) : h.tuples.Pairwise fun t u => t.tid < u.tid := h.sorted_tuples

theorem get?_eq_some_iff : h.get? tid = some t ↔ t ∈ h.tuples ∧ t.tid = tid :=
  HeapPages.get?_eq_some_iff

theorem get?_of_mem (ht : t ∈ h.tuples) : h.get? t.tid = some t := get?_eq_some_iff.mpr ⟨ht, rfl⟩

theorem hasSlot_of_get? (hget : h.get? tid = some t) : t.tid.HasSlot :=
  HeapPages.hasSlot_of_mem_tuples (get?_eq_some_iff.mp hget).1

/-- The locations of the stored versions in order. -/
def locations (h : Heap) : List Tid := h.tuples.map (·.tid)

/-! ## Writing -/

/-- Writes a version to its slot, and counts it unless it takes the place of another. -/
def store (h : Heap) (t : HeapTuple) (hslot : t.tid.HasSlot) : Heap :=
  { h with
    pages := h.pages.write t hslot
    size := h.size + if (h.get? t.tid).isSome then 0 else 1
    size_eq := by
      rw [HeapPages.tuples_write, h.pages.sorted_tuples.length_place, ← HeapPages.get?_eq_find?,
        h.size_eq]
      rfl }

theorem size_store (hslot : t.tid.HasSlot) :
    (h.store t hslot).size = h.size + if (h.get? t.tid).isSome then 0 else 1 := rfl

/-- Writing a version changes what is found at its location alone. -/
theorem get?_store (hslot : t.tid.HasSlot) :
    (h.store t hslot).get? tid = if t.tid = tid then some t else h.get? tid :=
  HeapPages.get?_write hslot

/-- A version that is written goes to its place among all versions. -/
theorem tuples_store (h : Heap) (t : HeapTuple) (hslot : t.tid.HasSlot) :
    (h.store t hslot).tuples = Keyed.place HeapTuple.tid t h.tuples :=
  h.pages.tuples_write t hslot

/-! ## Insertion and deletion -/

/-- The location behind the last slot: on its block, if there is room. -/
def nextTid (h : Heap) : Tid :=
  match h.pages.toList.getLast? with
  | none => ⟨0, 1⟩
  | some p =>
    if p.slots.length < h.tuplesPerPage then ⟨p.block, UInt16.ofNat p.slots.length + 1⟩
    else ⟨p.block + 1, 1⟩

theorem hasSlot_nextTid (h : Heap) : h.nextTid.HasSlot := by
  have hmax : Tid.maxOffset = 291 := rfl
  have hperPage := h.tuplesPerPage_le
  have hone : 1 ≤ (1 : UInt16).toNat ∧ (1 : UInt16).toNat ≤ Tid.maxOffset := by decide
  unfold nextTid
  split
  · exact hone
  · split
    · unfold Tid.HasSlot
      rw [UInt16.toNat_add, UInt16.toNat_ofNat']
      simp only [UInt16.toNat_ofNat]
      omega
    · exact hone

/-- Stores a new version behind the last one and returns its location. -/
def insert (h : Heap) (row : Row) (xmin : TxId) : Tid × Heap :=
  (h.nextTid, h.store ⟨h.nextTid, xmin, TxId.none, row⟩ h.hasSlot_nextTid)

/-- Stores a version at a free location. -/
def insertAt (h : Heap) (t : HeapTuple) : Except StorageFault Heap :=
  if hslot : t.tid.HasSlot then
    if (h.get? t.tid).isSome then .error (.occupied t.tid) else .ok (h.store t hslot)
  else .error (.invalidLocation t.tid)

/-- Stamps a version as deleted by a transaction. -/
def delete (h : Heap) (tid : Tid) (xmax : TxId) : Except StorageFault Heap :=
  match hget : h.get? tid with
  | some t =>
    have hslot : t.tid.HasSlot := hasSlot_of_get? hget
    .ok (h.store { t with xmax } hslot)
  | none => .error (.notFound tid)

end Heap

end PullQuery
