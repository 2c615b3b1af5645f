/-!
# Snapshots

A snapshot records which transactions had finished when it was taken: those below `xmin`,
and those below `xmax` that were not in progress.

## Main definitions

* `TxId`: transaction numbers; zero is no transaction
* `Snapshot`, `Snapshot.any`, `Snapshot.ofBounds`
* `Snapshot.sawFinished`: whether a transaction had finished when the snapshot was taken

## Main results

* `Snapshot.mem_sortTxIds`, `Snapshot.pairwise_sortTxIds`: the transactions in progress are kept
  in increasing order, each once
-/

namespace PullQuery

/-- The number of a transaction. -/
abbrev TxId := Nat

namespace TxId

/-- The number that stands for no transaction. -/
def none : TxId := 0

/-- The greatest transaction number. -/
def last : TxId := 0xffffffffffffffff

def isNone (x : TxId) : Bool := x == none

end TxId

/-- Which transactions had finished at some moment. -/
structure Snapshot where
  xmin : TxId
  xmax : TxId
  /-- The transactions in progress, in increasing order. -/
  inProgress : List TxId
  /-- The transaction that the snapshot is taken for. -/
  current : TxId
  /-- Whether visibility is to be ignored. -/
  isAny : Bool
deriving DecidableEq

namespace Snapshot

/-- Puts a number into an increasing list that does not hold it yet. -/
def insertTxId (x : TxId) : List TxId → List TxId
  | [] => [x]
  | y :: ys => if x < y then x :: y :: ys else if x = y then y :: ys else y :: insertTxId x ys

@[simp]
theorem mem_insertTxId {x z : TxId} {xs : List TxId} :
    z ∈ insertTxId x xs ↔ z = x ∨ z ∈ xs := by
  induction xs with
  | nil => simp [insertTxId]
  | cons y ys ih =>
    unfold insertTxId
    split
    · exact List.mem_cons
    · split
      · next hxy => simp [hxy]
      · rw [List.mem_cons, ih, List.mem_cons]
        exact or_left_comm

/-- The numbers in increasing order, each once. -/
def sortTxIds (xs : List TxId) : List TxId := xs.foldr insertTxId []

@[simp]
theorem mem_sortTxIds {x : TxId} {xs : List TxId} : x ∈ sortTxIds xs ↔ x ∈ xs := by
  induction xs with
  | nil => simp [sortTxIds]
  | cons y ys ih =>
    have h : x ∈ ys.foldr insertTxId [] ↔ x ∈ ys := ih
    simp [sortTxIds, h]

theorem pairwise_insertTxId {x : TxId} {xs : List TxId} (h : xs.Pairwise (· < ·)) :
    (insertTxId x xs).Pairwise (· < ·) := by
  induction xs with
  | nil => exact List.pairwise_singleton _ _
  | cons y ys ih =>
    have ⟨hfirst, hrest⟩ := List.pairwise_cons.mp h
    unfold insertTxId
    split
    · next hlt =>
      refine List.pairwise_cons.mpr ⟨fun z hz => ?_, h⟩
      rcases List.mem_cons.mp hz with rfl | hz
      · exact hlt
      · exact Nat.lt_trans hlt (hfirst z hz)
    · split
      · exact h
      · next hlt hne =>
        refine List.pairwise_cons.mpr ⟨fun z hz => ?_, ih hrest⟩
        rcases mem_insertTxId.mp hz with rfl | hz
        · exact Nat.lt_of_le_of_ne (Nat.le_of_not_lt hlt) (Ne.symm hne)
        · exact hfirst z hz

/-- The sorted numbers increase strictly. -/
theorem pairwise_sortTxIds (xs : List TxId) : (sortTxIds xs).Pairwise (· < ·) := by
  induction xs with
  | nil => exact .nil
  | cons x xs ih => exact pairwise_insertTxId ih

/-- The snapshot with the given bounds and transactions in progress. -/
def ofBounds (xmin xmax : TxId) (inProgress : List TxId) : Snapshot :=
  { xmin, xmax, inProgress := sortTxIds inProgress, current := TxId.none, isAny := false }

/-- The snapshot that sees every version. -/
def any : Snapshot :=
  { xmin := TxId.none, xmax := TxId.last, inProgress := [], current := TxId.none, isAny := true }

def withCurrent (s : Snapshot) (x : TxId) : Snapshot := { s with current := x }

def isInProgress (s : Snapshot) (x : TxId) : Bool := s.inProgress.contains x

/-- Whether a transaction had finished when the snapshot was taken. -/
def sawFinished (s : Snapshot) (x : TxId) : Bool :=
  if s.xmax ≤ x then false
  else if x < s.xmin then true
  else !s.isInProgress x

end Snapshot

end PullQuery
