import PullQuery.Context
import PullQuery.Expr.Eval
import PullQuery.Hash.KeyHash
import PullQuery.Hash.Table
import PullQuery.Node.Base
import PullQuery.Shape
import PullQuery.Slot

/-!
# Hash nodes

A hash node reads all rows of its input into a hash table, keyed by the hash of its key
expressions, for a consumer that looks up rows by the same hash. A table is either built from
the whole input or not at all: once building has failed, it is refused until the node is
restarted.

## Main definitions

* `HashBuild`, `HashBuild.State`
* `HashBuild.build`: builds the table
* `HashBuild.lookup`, `HashBuild.loadBatch`, `HashBuild.probeHash?`
-/

namespace PullQuery

/-- A node that builds a hash table. -/
structure HashBuild where
  keys : List Expr
  hasher : KeyHasher
  estimatedRows : Nat

namespace HashBuild

/-- The state of a hash node. -/
structure State where
  base : NodeBase := {}
  table? : Option HashTable := none
  /-- Whether building has failed since the node was started. -/
  aborted : Bool := false

namespace State

def countFetched (s : State) : State :=
  { s with base := { s.base with
      counters := { s.base.counters with tuplesFetched := s.base.counters.tuplesFetched + 1 } } }

def countFiltered (s : State) : State :=
  { s with base := { s.base with
      counters := { s.base.counters with rowsFiltered := s.base.counters.rowsFiltered + 1 } } }

/-- Takes over a built table and counts its batches, its spilled rows and its memory. -/
def install (s : State) (t : HashTable) : State :=
  { s with
    table? := some t
    base := { s.base with counters := { s.base.counters with
      batches := t.batchCount
      spilledTuples := t.spilled
      spillBytes := t.store.bytesWritten
      peakMemory := max s.base.counters.peakMemory t.peak } } }

/-- Notes the memory and the spilled bytes of the table after a batch was loaded. -/
def noteLoad (s : State) (t : HashTable) : State :=
  { s with
    table? := some t
    base := { s.base with counters := { s.base.counters with
      spillBytes := t.store.bytesWritten
      peakMemory := max s.base.counters.peakMemory t.peak } } }

end State

/-! ## Building -/

/-- The hash of a row by key expressions; none if a NULL key takes the row out. -/
def hashRow (n : HashBuild) (params : List Value) (keys : List Expr) (row : Row) :
    Except EvalError (Option UInt32) :=
  (Expr.evalAll row params keys).map n.hasher.hashValues?

/-- Adds a row to the table, unless a NULL key takes it out. -/
def absorb (n : HashBuild) (t : HashTable) (s : State) (row : Row) :
    Except Error HashTable × State :=
  match n.hashRow s.base.params n.keys row with
  | .error e => (.error e.toError, s)
  | .ok none => (.ok t, s.countFiltered)
  | .ok (some hash) =>
    match t.insert ⟨hash, row⟩ with
    | (.error e, _) => (.error e.toError, s)
    | (.ok (), t) => (.ok t, s)

/-- Adds the rows that `next` returns to the table until there are no more, at most `limit` of
them, as long as the statement is not interrupted. -/
def drain {σ : Type} (n : HashBuild)
    (next : σ → Session → Except Error (Option Slot) × σ × Session) :
    Nat → HashTable → State → σ → Session → Except Error HashTable × State × σ × Session
  | 0, t, s, input, w => (.ok t, s, input, w)
  | limit + 1, t, s, input, w =>
    match next input w with
    | (.error e, input, w) => (.error e, s, input, w)
    | (.ok none, input, w) => (.ok t, s, input, w)
    | (.ok (some slot), input, w) =>
      match w.checkInterrupt with
      | .error e => (.error e, s, input, w)
      | .ok () =>
        match slot.row? with
        | none =>
          (.error (.invalidState NodeKind.hash.name "build" "missing a child row"), s, input, w)
        | some row =>
          match n.absorb t s.countFetched row with
          | (.error e, s) => (.error e, s, input, w)
          | (.ok t, s) => drain n next limit t s input w

/-- The empty table for rows of a given width. -/
def emptyTable (n : HashBuild) (ctx : Context) (width : Nat) : HashTable :=
  .ofConfig (.forEstimate ctx.config.workMem ctx.config.maxBatches n.estimatedRows width)
    { capacity? := ctx.spillCapacity? }

/-- Builds the table from at most `limit` rows that `next` returns. A table that is there
already is kept. -/
def build {σ : Type} (n : HashBuild) (ctx : Context) (width : Nat)
    (next : σ → Session → Except Error (Option Slot) × σ × Session) (limit : Nat)
    (s : State) (input : σ) (w : Session) : Except Error Unit × State × σ × Session :=
  match s.base.state.ensureRunning .hash "build" with
  | .error e => (.error e, s, input, w)
  | .ok () =>
    if s.aborted then
      (.error (.invalidState NodeKind.hash.name "build" "aborted"), s, input, w)
    else if s.table?.isSome then (.ok (), s, input, w)
    else
      -- The rows that were read are lost with the table if one of them fails.
      match n.drain next limit (n.emptyTable ctx width) s input w with
      | (.error e, s, input, w) => (.error e, { s with aborted := true }, input, w)
      | (.ok t, s, input, w) => (.ok (), s.install t, input, w)

/-! ## Probing -/

/-- The error of an operation that needs the table. -/
def notBuilt : Error := .invalidState NodeKind.hash.name "probe" "not built"

/-- Looks up a hash in the table. -/
def lookup (s : State) (hash : UInt32) : Except Error HashLookup :=
  match s.base.state.ensureRunning .hash "probe" with
  | .error e => .error e
  | .ok () =>
    match s.table? with
    | none => .error notBuilt
    | some t => .ok (t.lookup hash)

/-- Brings a batch of the table into memory. -/
def loadBatch (s : State) (batch : Nat) : Except Error Unit × State :=
  match s.base.state.ensureRunning .hash "load a batch into" with
  | .error e => (.error e, s)
  | .ok () =>
    match s.table? with
    | none => (.error notBuilt, s)
    | some t =>
      match t.loadBatch batch with
      | (.error e, t) => (.error e, { s with table? := some t })
      | (.ok (), t) => (.ok (), s.noteLoad t)

/-- The hash of a row of the other side by as many keys; none if a NULL key takes it out. -/
def probeHash? (n : HashBuild) (s : State) (row : Row) (keys : List Expr) :
    Except Error (Option UInt32) :=
  if keys.length ≠ n.keys.length then
    .error (.invalidPlan ("probe has " ++ toString keys.length ++ " hash keys, build side has "
      ++ toString n.keys.length))
  else
    match n.hashRow s.base.params keys row with
    | .error e => .error e.toError
    | .ok hash? => .ok hash?

/-! ## Restarting -/

/-- Whether a restart reads the input again: with new parameter values, or without a table. -/
def rebuilds (s : State) (params? : Option (List Value)) : Bool :=
  params?.isSome || s.table?.isNone

/-- Forgets the table and a failure to build it. -/
def reset (s : State) : State := { s with table? := none, aborted := false }

/-- Goes back to the first batch of the table. -/
def rewind (s : State) : Except Error Unit × State :=
  match s.table? with
  | none => (.ok (), s)
  | some t =>
    let (result, t) := t.loadBatch 0
    (result, { s with table? := some t })

end HashBuild

end PullQuery
