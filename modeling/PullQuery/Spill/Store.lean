import PullQuery.Assoc
import PullQuery.Count
import PullQuery.Sort
import PullQuery.Spill.Codec

/-!
# Spill stores

A spill store keeps the tuples of the batches of a hash table that are not in memory, each
batch in a file of its own. A file is read as a whole and is empty afterwards.

## Main definitions

* `SpillStore`, `SpillStore.append`, `SpillStore.takeBatch`
* `SpillStore.batchSize`, `SpillStore.bytesHeld`

## Main results

* `SpillStore.file_write`, `SpillStore.file_clear`: writing and clearing change one file alone
-/

namespace PullQuery

/-- The encoded tuples of a batch. -/
structure BatchFile where
  data : List UInt8 := []
  tuples : Nat := 0
deriving DecidableEq

/-- Files of encoded tuples, one for each batch. -/
structure SpillStore where
  /-- The most bytes that all files together may hold. -/
  capacity? : Option Nat := none
  files : List (Nat × BatchFile) := []
  /-- The bytes written since the store was made, those taken out again included. -/
  bytesWritten : Nat := 0
  batches_nodup : (Assoc.keys files).Nodup := by exact .nil
deriving DecidableEq

namespace SpillStore

/-- The file of a batch. -/
def file (s : SpillStore) (batch : Nat) : BatchFile := (Assoc.find? batch s.files).getD {}

/-- How many tuples a batch has. -/
def batchSize (s : SpillStore) (batch : Nat) : Nat := (s.file batch).tuples

/-- The bytes in all files. -/
def bytesHeld (s : SpillStore) : Nat := sumBy (·.2.data.length) s.files

/-- Whether so many bytes more would exceed the capacity. -/
def exceeds (s : SpillStore) (bytes : Nat) : Bool :=
  match s.capacity? with
  | none => false
  | some capacity => capacity < s.bytesHeld + bytes

/-- Adds an encoded tuple at the end of a batch. -/
def write (s : SpillStore) (batch : Nat) (bytes : List UInt8) : SpillStore :=
  let f := s.file batch
  { s with
    files := Assoc.put batch ⟨f.data ++ bytes, f.tuples + 1⟩ s.files
    bytesWritten := s.bytesWritten + bytes.length
    batches_nodup := Assoc.nodup_keys_put s.batches_nodup }

theorem file_write (s : SpillStore) (batch : Nat) (bytes : List UInt8) (b : Nat) :
    (s.write batch bytes).file b =
      if b = batch then ⟨(s.file batch).data ++ bytes, (s.file batch).tuples + 1⟩
      else s.file b := by
  simp only [file, write, Assoc.find?_put]
  split <;> rfl

/-- Adds a tuple at the end of a batch. -/
def append (s : SpillStore) (batch : Nat) (t : SpilledTuple) : Except StorageFault SpillStore :=
  match t.encode with
  | .error e => .error e
  | .ok bytes =>
    if s.exceeds bytes.length then .error (.spaceExhausted s.bytesHeld (s.capacity?.getD 0))
    else .ok (s.write batch bytes)

/-- Empties the file of a batch. -/
def clear (s : SpillStore) (batch : Nat) : SpillStore :=
  { s with
    files := Assoc.put batch {} s.files
    batches_nodup := Assoc.nodup_keys_put s.batches_nodup }

theorem file_clear (s : SpillStore) (batch b : Nat) :
    (s.clear batch).file b = if b = batch then {} else s.file b := by
  simp only [file, clear, Assoc.find?_put]
  split <;> rfl

/-- Removes the tuples of a batch and returns them in order. The file is empty afterwards
even if it cannot be read. -/
def takeBatch (s : SpillStore) (batch : Nat) :
    Except StorageFault (List SpilledTuple) × SpillStore :=
  match SpilledTuple.readAll (s.file batch).data with
  | (_, some e, _) => (.error e, s.clear batch)
  | (ts, none, _) => (.ok ts, s.clear batch)

/-- The batches with tuples and how many they have, by increasing batch. -/
def nonemptyBatches (s : SpillStore) : List (Nat × Nat) :=
  sortBy (fun x y : Nat × Nat => x.1 ≤ y.1)
    ((s.files.map fun x => (x.1, x.2.tuples)).filter fun x => x.2 != 0)

end SpillStore

end PullQuery
