import PullQuery.Count

/-!
# Sizing of hash tables

A hash table is given a memory budget and powers of two for its batches and buckets. From an
estimate of its rows it starts with the fewest batches of which one fits the budget.

## Main definitions

* `HashTableConfig`, `HashTableConfig.single`, `HashTableConfig.forEstimate`
-/

namespace PullQuery

/-- The memory charged for a stored tuple beside its row: what holds it and its position. -/
def tupleOverhead : Nat := 40

/-- The sizes of a hash table. Counts are 64-bit numbers; those of batches and buckets are rounded
up to powers of two, and stand for a table only up to `2 ^ 63`, the last power of two that such a
number has. -/
structure HashTableConfig where
  /-- The memory budget for resident rows. -/
  workMem : Nat
  /-- The most batches the table may be split into. -/
  maxBatches : Nat
  /-- The batches to start with. -/
  batches : Nat
  buckets : Nat
deriving DecidableEq, Repr

namespace HashTableConfig

/-- The bounds of the bucket count. -/
def minBuckets : Nat := 0x400

def maxBuckets : Nat := 0x100000

/-- The bound of the batch count. -/
def batchLimit : Nat := 0x80000000

/-- A table of one batch. -/
def single (workMem maxBatches : Nat) : HashTableConfig :=
  { workMem
    maxBatches := nextPowerOfTwo (max 1 (min maxBatches batchLimit))
    batches := 1
    buckets := minBuckets }

/-- The memory estimated for rows of a given width. -/
def estimatedMemory (rows width : Nat) : Nat :=
  saturatingMul rows (saturatingAdd width tupleOverhead)

/-- A quotient rounded up. -/
def ceilDiv (a b : Nat) : Nat := if a % b = 0 then a / b else a / b + 1

/-- A table for so many rows of a given width: with as many batches as the estimate needs. -/
def forEstimate (workMem maxBatches rows width : Nat) : HashTableConfig :=
  let base := single workMem maxBatches
  let total := estimatedMemory rows width
  { base with
    buckets := nextPowerOfTwo (max minBuckets (min rows maxBuckets))
    batches :=
      if total ≤ workMem then 1
      else nextPowerOfTwo (min (ceilDiv total (max workMem 1)) base.maxBatches) }

end HashTableConfig

end PullQuery
