import Mathlib.Data.List.Perm.Basic
import PullQuery.Proofs.Hash.Batches

/-!
# Requests to a hash table

A table is used by adding rows and loading batches in any order. Requests may fail; the table
goes on being used as the failure left it.

## Main definitions

* `TableRequest`, `TableRequest.serve`
* `HashTable.run`: the table after requests in turn
* `HashTable.inserted`, `HashTable.accepted`: the rows of all insertions and of those that
  succeed

## Main results

* `HashTable.Holds.serve`: a request that succeeds adds its rows
-/

namespace PullQuery

/-- What is asked of a table. -/
inductive TableRequest where
  | insert (x : SpilledTuple)
  | load (batch : Nat)

namespace TableRequest

/-- The rows that a request adds. -/
def rows : TableRequest → List SpilledTuple
  | insert x => [x]
  | load _ => []

/-- Carries out a request. -/
def serve (t : HashTable) : TableRequest → Except Error Unit × HashTable
  | insert x =>
    match t.insert x with
    | (.error e, t) => (.error e.toError, t)
    | (.ok (), t) => (.ok (), t)
  | load batch => t.loadBatch batch

end TableRequest

namespace HashTable

variable {t t' : HashTable} {rows : List SpilledTuple} {x : SpilledTuple}

/-- The table after requests in turn, whether they succeed or not. -/
def run : List TableRequest → HashTable → HashTable
  | [], t => t
  | r :: rs, t => run rs (r.serve t).2

/-- The rows of all insertions, in order. -/
def inserted (rs : List TableRequest) : List SpilledTuple := rs.flatMap (·.rows)

/-- The rows that a request adds to a table. -/
def added (t : HashTable) (r : TableRequest) : List SpilledTuple :=
  if (r.serve t).1.isOk then r.rows else []

/-- The rows of the insertions that succeed, in order. -/
def accepted : List TableRequest → HashTable → List SpilledTuple
  | [], _ => []
  | r :: rs, t => t.added r ++ accepted rs (r.serve t).2

theorem serve_insert_eq_ok (h : (TableRequest.insert x).serve t = (.ok (), t')) :
    t.insert x = (.ok (), t') := by
  rw [TableRequest.serve] at h
  split at h
  · simp at h
  · next t₁ hinsert => rw [hinsert, (Prod.mk.inj h).2]

/-- A request that succeeds adds its rows and keeps all others. -/
theorem Holds.serve {r : TableRequest} (h : t.Holds rows) (hs : r.serve t = (.ok (), t')) :
    t'.Holds (rows ++ r.rows) := by
  cases r with
  | insert x => exact h.insert (serve_insert_eq_ok hs)
  | load batch =>
    rw [TableRequest.rows, List.append_nil]
    exact (h.loadBatch hs).1

/-- A batch that does not exist is refused. -/
theorem loadBatch_out_of_range {batch : Nat} (h : t.batchCount ≤ batch) :
    ∃ e, t.loadBatch batch = (.error e, t) := ⟨_, if_pos h⟩

end HashTable

end PullQuery
