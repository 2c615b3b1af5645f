import PullQuery.Proofs.Hash.Placement

/-!
# Reserving memory for a row

The memory for a row of the current batch is reserved. A reservation above the budget is refused
with an error, which the table answers itself: it splits and reserves again as long as it can grow,
and then keeps the row all the same. Placing a row in this way does what `HashTable.route` does,
and no refused reservation is reported, however large the row is and whatever the budget.

## Main definitions

* `HashTable.reserve`, `HashTable.canGrow`
* `HashTable.placeReserved`: places a row by reserving memory for it

## Main results

* `HashTable.splitsLeft_split`: a split uses up one of the splits that are left
* `HashTable.placeReserved_eq`, `HashTable.placeReserved_ne_refused`
-/

namespace PullQuery

namespace HashTable

variable {t : HashTable}

/-- Reserves memory beside that of the rows in memory. -/
def reserve (t : HashTable) (size : Nat) : Except Error Unit :=
  if t.workMem < t.used + size then .error (.memoryBudgetExceeded size t.used t.workMem)
  else .ok ()

/-- Whether doubling the batches may help, and there may be more of them. -/
def canGrow (t : HashTable) : Bool :=
  t.growth && !t.isFixed && decide (t.logBatches < t.logMaxBatches)

/-- The answer of an operation as it is reported to the user. -/
def reported : Except StorageFault Unit × HashTable → Except Error Unit × HashTable
  | (.error e, t) => (.error e.toError, t)
  | (.ok (), t) => (.ok (), t)

/-- Puts a row into memory that is reserved for it, or into its file. After a refused reservation
the table is split, if it can grow, and memory is reserved again, at most `retries` times; a
refusal that cannot be retried for want of retries is reported. -/
def placeReserved : Nat → HashTable → SpilledTuple → Except Error Unit × HashTable
  | retries, t, x =>
    if t.batchOf x.hash ≠ t.current then reported (t.spill (t.batchOf x.hash) x)
    else
      match t.reserve x.size with
      | .ok () => (.ok (), t.keep x)
      | .error e =>
        if e.isFatal then (.error e, t)
        else if t.canGrow then
          match retries with
          | 0 => (.error e, t)
          | retries + 1 =>
            match t.split with
            | (.error e, t) => (.error e.toError, t)
            | (.ok (), t) => placeReserved retries t x
        else (.ok (), t.keep x)

theorem reserve_of_le {size : Nat} (h : t.used + size ≤ t.workMem) : t.reserve size = .ok () :=
  if_neg (Nat.not_lt.mpr h)

theorem reserve_of_lt {size : Nat} (h : t.workMem < t.used + size) :
    t.reserve size = .error (.memoryBudgetExceeded size t.used t.workMem) := if_pos h

theorem canGrow_eq (t : HashTable) :
    t.canGrow = (t.growth && !t.isFixed && decide (0 < t.splitsLeft)) := by
  have hlogs : t.logBatches < t.logMaxBatches ↔ 0 < t.splitsLeft := Nat.sub_pos_iff_lt.symm
  rw [canGrow, decide_eq_decide.mpr hlogs]

theorem splitsLeft_split (t : HashTable) : t.split.2.splitsLeft = t.splitsLeft - 1 := by
  obtain ⟨-, hmax, hbatches⟩ := logs_split t
  rw [splitsLeft, hmax, hbatches, Nat.sub_add_eq, splitsLeft]

section Steps

variable {x : SpilledTuple} (retries : Nat)

theorem placeReserved_of_ne (h : t.batchOf x.hash ≠ t.current) :
    placeReserved retries t x = reported (t.spill (t.batchOf x.hash) x) := by
  rw [placeReserved.eq_def]
  exact if_pos h

/-- A row is kept if there is room for it, or if the table cannot grow. -/
theorem placeReserved_of_not_mustSplit (hcurrent : t.batchOf x.hash = t.current)
    (h : t.MustSplit x → t.splitsLeft = 0) : placeReserved retries t x = (.ok (), t.keep x) := by
  rw [placeReserved.eq_def]
  rcases Nat.lt_or_ge t.workMem (t.used + x.size) with hfull | hroom
  · have hgrow : t.canGrow = false := by
      rw [canGrow_eq, Bool.and_eq_false_imp, decide_eq_false_iff_not, Nat.not_lt, Nat.le_zero]
      exact fun hgrowth => h ⟨hcurrent, hfull, hgrowth⟩
    simp [hcurrent, reserve_of_lt hfull, Error.isFatal, hgrow]
  · simp [hcurrent, reserve_of_le hroom]

/-- A refused reservation splits a table that can grow, and is made again. -/
theorem placeReserved_of_mustSplit (h : t.MustSplit x) (hleft : 0 < t.splitsLeft) :
    placeReserved (retries + 1) t x =
      match t.split with
      | (.error e, t') => (.error e.toError, t')
      | (.ok (), t') => placeReserved retries t' x := by
  obtain ⟨hcurrent, hfull, hgrowth⟩ := h
  have hgrow : t.canGrow = true := by rw [canGrow_eq, hgrowth, decide_eq_true hleft, Bool.and_self]
  rw [placeReserved.eq_def]
  simp only [hcurrent, ne_eq, not_true_eq_false, reserve_of_lt hfull, Error.isFatal, hgrow,
    Bool.false_eq_true, if_true, if_false]

end Steps

/-- As many retries as there are splits left suffice: a row is placed as `route` places it. -/
theorem placeReserved_eq {t : HashTable} {retries : Nat} (h : t.splitsLeft ≤ retries)
    (x : SpilledTuple) : placeReserved retries t x = reported (t.route x) := by
  -- The recursion is on the retries: each split takes one of them, and one of the splits left.
  rcases hroute : t.route x with ⟨r, t'⟩
  obtain ⟨hother, hspill⟩ | ⟨hcurrent, hnone, rfl, rfl⟩ | ⟨hmust, left, hleft, hsplit⟩ :=
    place_cases hroute
  · rw [placeReserved_of_ne retries hother, hspill]
  · exact placeReserved_of_not_mustSplit retries hcurrent hnone
  · cases retries with
    | zero => omega
    | succ retries =>
      rw [placeReserved_of_mustSplit retries hmust (by omega)]
      obtain ⟨e, hfails, rfl⟩ | ⟨t₁, hsplits, hplace⟩ := hsplit
      · rw [hfails]
        rfl
      · have hused : t₁.splitsLeft = t.splitsLeft - 1 := by rw [← splitsLeft_split, hsplits]
        rw [hleft, Nat.add_sub_cancel] at hused
        have hagain : placeReserved retries t₁ x = reported (t₁.route x) :=
          placeReserved_eq (by omega) x
        rw [hsplits, ← hplace, ← hused]
        exact hagain

/-- No refused reservation is reported, whatever the row and the budget are. -/
theorem placeReserved_ne_refused (t : HashTable) (x : SpilledTuple) (requested used budget : Nat) :
    (placeReserved t.splitsLeft t x).1 ≠ .error (.memoryBudgetExceeded requested used budget) := by
  rw [placeReserved_eq le_rfl]
  rcases t.route x with ⟨e | ⟨⟩, t'⟩ <;> simp [reported, StorageFault.toError]

end HashTable

end PullQuery
