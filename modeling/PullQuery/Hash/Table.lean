import PullQuery.Hash.Config
import PullQuery.Spill.Store

/-!
# Hash tables in batches

Rows are found by a 32-bit hash. Each row belongs to a batch that its hash decides; the rows of
the current batch are in memory, those of every other batch in a file of the spill store. A
table that would exceed its memory budget doubles its batches and moves all rows to theirs,
until doubling no longer helps or a batch other than the first has been loaded; from then on
it keeps the rows of the current batch in memory whatever they take.

## Main definitions

* `HashTable`, `HashTable.ofConfig`, `HashTable.batchOf`
* `HashTable.split`: doubles the batches
* `HashTable.insert`, `HashTable.lookup`, `HashTable.loadBatch`
-/

namespace PullQuery

/-- Rotates a hash to the right. -/
def rotateHash (hash : UInt32) (n : Nat) : UInt32 :=
  let k := UInt32.ofNat (n % 32)
  hash >>> k ||| hash <<< (32 - k)

/-- The memory charged for a stored row. -/
def SpilledTuple.size (t : SpilledTuple) : Nat := t.row.size + tupleOverhead

/-- A hash table of which one batch is in memory. -/
structure HashTable where
  workMem : Nat
  /-- The binary logarithm of the bucket count. -/
  logBuckets : Nat
  /-- The binary logarithm of the greatest batch count. -/
  logMaxBatches : Nat
  /-- The binary logarithm of the batch count. -/
  logBatches : Nat
  current : Nat := 0
  /-- Whether doubling the batches may still help. -/
  growth : Bool := true
  /-- Whether batches have been switched, so that their number is final. -/
  isFixed : Bool := false
  /-- The rows of the current batch in order of insertion. -/
  resident : List SpilledTuple := []
  /-- For each hash the positions of its resident rows, in order. -/
  buckets : List (UInt32 × List Nat) := []
  /-- The memory of the resident rows, and the most it has been. -/
  used : Nat := 0
  peak : Nat := 0
  store : SpillStore
  /-- How many rows were written to files. -/
  spilled : Nat := 0
  /-- How many rows were inserted. -/
  total : Nat := 0

/-- What a table knows about a hash. -/
inductive HashLookup where
  /-- The rows with the hash in order of insertion. -/
  | found (rows : List Row)
  | noMatch
  /-- The rows with the hash belong to a batch that is not in memory. -/
  | notLoaded (batch : Nat)
deriving DecidableEq

namespace HashTable

/-- The empty table of the given sizes, with counts of at most `2 ^ 63`. -/
def ofConfig (c : HashTableConfig) (store : SpillStore) : HashTable :=
  { workMem := c.workMem
    logBuckets := ceilLog2 c.buckets
    logMaxBatches := ceilLog2 c.maxBatches
    logBatches := ceilLog2 c.batches
    store }

def batchCount (t : HashTable) : Nat := 1 <<< t.logBatches

/-- The batch of a hash: its lowest bits once the bits that choose a bucket are rotated out. -/
def batchOf (t : HashTable) (hash : UInt32) : Nat :=
  (rotateHash hash t.logBuckets).toNat % t.batchCount

/-- The number of hashes with resident rows. -/
def bucketCount (t : HashTable) : Nat := t.buckets.length

/-- The positions of the resident rows with a hash. -/
def positions (t : HashTable) (hash : UInt32) : List Nat :=
  (Assoc.find? hash t.buckets).getD []

/-! ## Moving rows -/

/-- Keeps a row in memory. -/
def keep (t : HashTable) (x : SpilledTuple) : HashTable :=
  { t with
    resident := t.resident ++ [x]
    buckets := Assoc.put x.hash (t.positions x.hash ++ [t.resident.length]) t.buckets
    used := t.used + x.size
    peak := max t.peak (t.used + x.size) }

/-- Writes a row to the file of a batch. -/
def spill (t : HashTable) (batch : Nat) (x : SpilledTuple) :
    Except StorageFault Unit × HashTable :=
  match t.store.append batch x with
  | .error e => (.error e, t)
  | .ok store => (.ok (), { t with store, spilled := t.spilled + 1 })

/-- Applies an operation that may fail to rows in turn, up to the first error. -/
def forEach (op : HashTable → SpilledTuple → Except StorageFault Unit × HashTable) :
    List SpilledTuple → HashTable → Except StorageFault Unit × HashTable
  | [], t => (.ok (), t)
  | x :: xs, t =>
    match op t x with
    | (.error e, t) => (.error e, t)
    | (.ok (), t) => forEach op xs t

/-- The table without its resident rows. -/
def clearResident (t : HashTable) : HashTable := { t with resident := [], buckets := [], used := 0 }

/-- Moves the rows of a file to the files of their batches. -/
def refile (t : HashTable) (batch : Nat) : Except StorageFault Unit × HashTable :=
  match t.store.takeBatch batch with
  | (.error e, store) => (.error e, { t with store })
  | (.ok xs, store) => forEach (fun t x => t.spill (t.batchOf x.hash) x) xs { t with store }

/-- Moves the rows of files with rows, other than the current batch's, in turn. -/
def refileAll : List Nat → HashTable → Except StorageFault Unit × HashTable
  | [], t => (.ok (), t)
  | b :: bs, t =>
    if b = t.current ∨ t.store.batchSize b = 0 then refileAll bs t
    else
      match t.refile b with
      | (.error e, t) => (.error e, t)
      | (.ok (), t) => refileAll bs t

/-- Keeps a row in memory if it belongs to the current batch, and else writes it to its file. -/
def settle (t : HashTable) (x : SpilledTuple) : Except StorageFault Unit × HashTable :=
  if t.batchOf x.hash = t.current then (.ok (), t.keep x) else t.spill (t.batchOf x.hash) x

/-- Doubles the batches and moves every row to its batch. A split that moves none or all of
the resident rows is of no use and ends the growth of the table. -/
def split (t : HashTable) : Except StorageFault Unit × HashTable :=
  -- The resident rows first: those of the new partner of the current batch leave memory.
  match forEach settle t.resident { t.clearResident with logBatches := t.logBatches + 1 } with
  | (.error e, t') => (.error e, t')
  | (.ok (), t') =>
    let useless := t'.resident.length = t.resident.length ∨ t'.resident.length = 0
    -- Then the files of the old batches: each is divided between its batch and the partner.
    match refileAll (List.range t.batchCount) t' with
    | (.error e, t') => (.error e, t')
    | (.ok (), t') => (.ok (), if useless then { t' with growth := false } else t')

/-- Puts a row into memory or into its file. A row of the current batch that exceeds the
memory budget splits the table first, at most `splits` times. -/
def place : Nat → HashTable → SpilledTuple → Except StorageFault Unit × HashTable
  | splits, t, x =>
    if t.batchOf x.hash ≠ t.current then t.spill (t.batchOf x.hash) x
    else if t.used + x.size ≤ t.workMem then (.ok (), t.keep x)
    else if t.growth && !t.isFixed then
      match splits with
      | 0 => (.ok (), t.keep x)
      | splits + 1 =>
        match t.split with
        | (.error e, t) => (.error e, t)
        | (.ok (), t) => place splits t x
    else (.ok (), t.keep x)

/-- How often the batches may still be doubled. -/
def splitsLeft (t : HashTable) : Nat := t.logMaxBatches - t.logBatches

/-- Puts a row into memory or into its file. -/
def route (t : HashTable) (x : SpilledTuple) : Except StorageFault Unit × HashTable :=
  place t.splitsLeft t x

/-! ## Operations -/

/-- Adds a row. -/
def insert (t : HashTable) (x : SpilledTuple) : Except StorageFault Unit × HashTable :=
  route { t with total := t.total + 1 } x

/-- The rows with a hash, as far as their batch is in memory. -/
def lookup (t : HashTable) (hash : UInt32) : HashLookup :=
  let batch := t.batchOf hash
  if batch = t.current then
    match Assoc.find? hash t.buckets with
    | none => .noMatch
    | some is => .found (is.filterMap fun i => t.resident[i]?.map (·.row))
  else if t.store.batchSize batch = 0 then .noMatch
  else .notLoaded batch

/-- Replaces the rows in memory by those of another batch. -/
def switchTo (t : HashTable) (batch : Nat) : Except StorageFault Unit × HashTable :=
  -- An error leaves the table with the old batch as the current one.
  match forEach (fun t' x => t'.spill t.current x) t.resident
      { t.clearResident with isFixed := true } with
  | (.error e, t) => (.error e, t)
  | (.ok (), t) =>
    match t.store.takeBatch batch with
    | (.error e, store) => (.error e, { t with current := batch, store })
    | (.ok xs, store) => forEach route xs { t with current := batch, store }

/-- Brings a batch into memory. -/
def loadBatch (t : HashTable) (batch : Nat) : Except Error Unit × HashTable :=
  if t.batchCount ≤ batch then
    (.error (.invalidState "Hash" "load a batch into" "partitioned into fewer batches"), t)
  else if batch = t.current then (.ok (), t)
  else
    match t.switchTo batch with
    | (.error e, t) => (.error e.toError, t)
    | (.ok (), t) => (.ok (), t)

end HashTable

end PullQuery
