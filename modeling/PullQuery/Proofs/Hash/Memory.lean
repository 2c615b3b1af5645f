import Mathlib.Order.MinMax
import PullQuery.Proofs.Hash.Rows

/-!
# The memory of a hash table

A table charges its budget for the rows in memory. Rows that are written to files change nothing
of this; a split only takes rows out, so that it never needs more memory than the table had. The
budget is exceeded for a row only if the table may not be split any more, and then it never is
again.

## Main definitions

* `HashTable.SameMemory`: two tables have the same rows in memory and the same setup
* `HashTable.Metered`: the memory in use is that of the rows, and was never more than the peak
* `HashTable.Closed`: the table may not be split any more
* `HashTable.Budgeted`: the budget was exceeded only by a table that may not be split
* `HashTable.Ages`: what an operation leaves as it was, and in which direction the rest goes

## Main results

* `HashTable.forEach_keeps`, `HashTable.refileAll_keeps`: what each step keeps, steps in turn keep
* `HashTable.doubles_split`: a split needs no more memory
* `HashTable.Budgeted.place`, `HashTable.budgeted_switchTo`
-/

namespace PullQuery

namespace HashTable

variable {t t' t₁ t₂ t₃ : HashTable} {x : SpilledTuple} {xs : List SpilledTuple}

/-! ## Rows in turn -/

/-- What each operation keeps, operations in turn keep, whether they succeed or not. -/
theorem forEach_keeps {P : HashTable → Prop}
    {op : HashTable → SpilledTuple → Except StorageFault Unit × HashTable}
    (hop : ∀ t x, P t → P (op t x).2) (xs : List SpilledTuple) (h : P t) :
    P (forEach op xs t).2 := by
  induction xs generalizing t with
  | nil => exact h
  | cons x xs ih =>
    have hx := hop t x h
    rw [forEach]
    split
    · next hfirst =>
      rw [hfirst] at hx
      exact hx
    · next hfirst =>
      rw [hfirst] at hx
      exact ih hx

/-- What moving the rows of one file keeps, moving those of all files keeps. -/
theorem refileAll_keeps {P : HashTable → Prop} (hfile : ∀ t b, P t → P (t.refile b).2)
    (bs : List Nat) (h : P t) : P (refileAll bs t).2 := by
  induction bs generalizing t with
  | nil => exact h
  | cons b bs ih =>
    have hb := hfile t b h
    rw [refileAll]
    split
    · exact ih h
    · split
      · next hrefile =>
        rw [hrefile] at hb
        exact hb
      · next hrefile =>
        rw [hrefile] at hb
        exact ih hb

/-! ## Rows that are written to files -/

/-- Whether two tables have the same rows in memory and agree in all that decides where a row
belongs and what room there is. -/
structure SameMemory (t t' : HashTable) : Prop extends SameSetup t t' where
  resident : t'.resident = t.resident
  used : t'.used = t.used
  peak : t'.peak = t.peak

namespace SameMemory

theorem refl (t : HashTable) : SameMemory t t := ⟨.refl t, rfl, rfl, rfl⟩

theorem trans (h : SameMemory t₁ t₂) (h' : SameMemory t₂ t₃) : SameMemory t₁ t₃ :=
  ⟨h.toSameSetup.trans h'.toSameSetup, h'.resident.trans h.resident, h'.used.trans h.used,
    h'.peak.trans h.peak⟩

/-- A table with other files of the same capacity. -/
theorem of_store {store : SpillStore} (h : store.capacity? = t.store.capacity?) :
    SameMemory t { t with store } := ⟨⟨rfl, rfl, rfl, rfl, rfl, rfl, rfl, h⟩, rfl, rfl, rfl⟩

end SameMemory

theorem sameMemory_spill (t : HashTable) (batch : Nat) (x : SpilledTuple) :
    SameMemory t (t.spill batch x).2 := by
  rcases hs : t.spill batch x with ⟨e | _, t'⟩
  · obtain rfl := spill_eq_error hs
    exact .refl t'
  · obtain ⟨store, hstore, rfl⟩ := spill_eq_ok hs
    exact ⟨⟨rfl, rfl, rfl, rfl, rfl, rfl, rfl, SpillStore.capacity_append hstore⟩, rfl, rfl, rfl⟩

/-- Rows that are written to any files in turn. -/
theorem sameMemory_forEach_spill (batch : HashTable → SpilledTuple → Nat) (xs : List SpilledTuple)
    (t : HashTable) : SameMemory t (forEach (fun t x => t.spill (batch t x) x) xs t).2 :=
  forEach_keeps (fun t₁ x h => h.trans (sameMemory_spill t₁ (batch t₁ x) x)) xs (.refl t)

theorem capacity_takeBatch (s : SpillStore) (batch : Nat) :
    (s.takeBatch batch).2.capacity? = s.capacity? := by
  unfold SpillStore.takeBatch
  split <;> rfl

theorem sameMemory_refile (t : HashTable) (batch : Nat) : SameMemory t (t.refile batch).2 := by
  have hcapacity := capacity_takeBatch t.store batch
  rw [refile]
  split
  · next htaken =>
    rw [htaken] at hcapacity
    exact .of_store hcapacity
  · next htaken =>
    rw [htaken] at hcapacity
    exact (SameMemory.of_store hcapacity).trans
      (sameMemory_forEach_spill (fun t x => t.batchOf x.hash) _ _)

theorem sameMemory_refileAll (bs : List Nat) (t : HashTable) :
    SameMemory t (refileAll bs t).2 :=
  refileAll_keeps (fun t₁ b h => h.trans (sameMemory_refile t₁ b)) bs (.refl t)

/-! ## The memory in use -/

/-- Whether the memory in use is that of the rows in memory, and was never more than the peak. -/
structure Metered (t : HashTable) : Prop where
  used_eq : t.used = sumBy SpilledTuple.size t.resident
  used_le_peak : t.used ≤ t.peak

namespace Metered

theorem congr (h : t.Metered) (hsame : SameMemory t t') : t'.Metered where
  used_eq := by rw [hsame.used, hsame.resident, h.used_eq]
  used_le_peak := by
    rw [hsame.used, hsame.peak]
    exact h.used_le_peak

theorem keep (h : t.Metered) (x : SpilledTuple) : (t.keep x).Metered where
  used_eq := by
    show t.used + x.size = sumBy SpilledTuple.size (t.resident ++ [x])
    rw [sumBy_append, sumBy_cons, sumBy_nil, h.used_eq, Nat.add_zero]
  used_le_peak := Nat.le_max_right ..

end Metered

/-! ## Splits -/

/-- Whether a table is another one with the batches doubled, which had no need of more memory. -/
structure Doubles (t t' : HashTable) : Prop where
  metered : t'.Metered
  peak : t'.peak = t.peak
  workMem : t'.workMem = t.workMem
  logMaxBatches : t'.logMaxBatches = t.logMaxBatches
  logBatches : t'.logBatches = t.logBatches + 1
  current : t'.current = t.current
  isFixed : t'.isFixed = t.isFixed
  growth : t.growth = false → t'.growth = false

theorem Doubles.congr (h : Doubles t t₁) (hsame : SameMemory t₁ t₂) : Doubles t t₂ where
  metered := h.metered.congr hsame
  peak := hsame.peak.trans h.peak
  workMem := hsame.workMem.trans h.workMem
  logMaxBatches := hsame.logMaxBatches.trans h.logMaxBatches
  logBatches := hsame.logBatches.trans h.logBatches
  current := hsame.current.trans h.current
  isFixed := hsame.isFixed.trans h.isFixed
  growth hgrowth := hsame.growth.trans (h.growth hgrowth)

/-- Rows that are put back into memory or into files need no more than their own memory. -/
theorem doubles_forEach_settle (h : Doubles t t₁)
    (hroom : t₁.used + sumBy SpilledTuple.size xs ≤ t₁.peak) :
    Doubles t (forEach settle xs t₁).2 := by
  -- What is left to put back has room, at every row on the way.
  induction xs generalizing t₁ with
  | nil => exact h
  | cons x xs ih =>
    rw [sumBy_cons] at hroom
    rw [forEach, settle]
    split
    · -- The row was written to a file, and that failed.
      next hrow =>
      split at hrow
      · simp at hrow
      · have hspill := sameMemory_spill t₁ (t₁.batchOf x.hash) x
        rw [hrow] at hspill
        exact h.congr hspill
    · next t₂ hrow =>
      split at hrow
      · obtain rfl := (Prod.mk.inj hrow).2
        have hpeak : max t₁.peak (t₁.used + x.size) = t₁.peak := Nat.max_eq_left (by omega)
        apply ih
        · exact ⟨h.metered.keep x, hpeak.trans h.peak, h.workMem, h.logMaxBatches, h.logBatches,
            h.current, h.isFixed, h.growth⟩
        · show t₁.used + x.size + sumBy SpilledTuple.size xs ≤ max t₁.peak (t₁.used + x.size)
          omega
      · have hspill := sameMemory_spill t₁ (t₁.batchOf x.hash) x
        rw [hrow] at hspill
        apply ih (h.congr hspill)
        rw [hspill.used, hspill.peak]
        omega

/-- A split needs no more memory than the table had, whether it succeeds or not. -/
theorem doubles_split (h : t.Metered) : Doubles t t.split.2 := by
  have hempty : Doubles t { t.clearResident with logBatches := t.logBatches + 1 } :=
    ⟨⟨rfl, Nat.zero_le _⟩, rfl, rfl, rfl, rfl, rfl, rfl, id⟩
  have hroom : 0 + sumBy SpilledTuple.size t.resident ≤ t.peak := by
    rw [Nat.zero_add, ← h.used_eq]
    exact h.used_le_peak
  have hresident : Doubles t (forEach settle t.resident
      { t.clearResident with logBatches := t.logBatches + 1 }).2 :=
    doubles_forEach_settle hempty hroom
  rw [split]
  split
  · next hsettle =>
    rw [hsettle] at hresident
    exact hresident
  · next t₁ hsettle =>
    rw [hsettle] at hresident
    have hfiles := hresident.congr (sameMemory_refileAll (List.range t.batchCount) t₁)
    dsimp only
    split
    · next hrefile =>
      rw [hrefile] at hfiles
      exact hfiles
    · next hrefile =>
      rw [hrefile] at hfiles
      split
      · -- Growth is given up.
        exact ⟨⟨hfiles.metered.used_eq, hfiles.metered.used_le_peak⟩, hfiles.peak, hfiles.workMem,
          hfiles.logMaxBatches, hfiles.logBatches, hfiles.current, hfiles.isFixed, fun _ => rfl⟩
      · exact hfiles

/-! ## The budget -/

/-- Whether a table may not be split any more: growth was given up, there are as many batches as
there may be, or batches have been switched. -/
def Closed (t : HashTable) : Prop :=
  t.growth = false ∨ t.logMaxBatches ≤ t.logBatches ∨ t.isFixed = true

/-- Whether the memory in use is that of the rows, and was above the budget only in a table that
may not be split any more. -/
structure Budgeted (t : HashTable) : Prop extends Metered t where
  closed : t.workMem < t.peak → t.Closed

/-- What becomes of a table's sizes over time; `switched` tells whether batches have been switched
meanwhile. -/
structure Ages (switched : Bool) (t t' : HashTable) : Prop where
  workMem : t'.workMem = t.workMem
  logMaxBatches : t'.logMaxBatches = t.logMaxBatches
  peak_le : t.peak ≤ t'.peak
  logBatches_le : t.logBatches ≤ t'.logBatches
  logBatches_le_max : t'.logBatches ≤ max t.logBatches t.logMaxBatches
  growth : t.growth = false → t'.growth = false
  isFixed : t'.isFixed = (t.isFixed || switched)
  /-- The number of batches is final in a table that may not be split. -/
  final : t.Closed → t'.logBatches = t.logBatches

namespace Ages

variable {switched switched' : Bool}

theorem refl (t : HashTable) : Ages false t t :=
  ⟨rfl, rfl, le_rfl, le_rfl, Nat.le_max_left .., id, (Bool.or_false _).symm, fun _ => rfl⟩

theorem closed (h : Ages switched t t') (ht : t.Closed) : t'.Closed := by
  obtain hgrowth | hmax | hfixed := ht
  · exact .inl (h.growth hgrowth)
  · refine .inr (.inl ?_)
    rw [h.logMaxBatches]
    exact hmax.trans h.logBatches_le
  · exact .inr (.inr (by rw [h.isFixed, hfixed, Bool.true_or]))

theorem trans (h : Ages switched t₁ t₂) (h' : Ages switched' t₂ t₃) :
    Ages (switched || switched') t₁ t₃ where
  workMem := h'.workMem.trans h.workMem
  logMaxBatches := h'.logMaxBatches.trans h.logMaxBatches
  peak_le := h.peak_le.trans h'.peak_le
  logBatches_le := h.logBatches_le.trans h'.logBatches_le
  logBatches_le_max := by
    have hfirst := h.logBatches_le_max
    have hrest := h'.logBatches_le_max
    rw [h.logMaxBatches] at hrest
    omega
  growth hgrowth := h'.growth (h.growth hgrowth)
  isFixed := by rw [h'.isFixed, h.isFixed, Bool.or_assoc]
  final hclosed := (h'.final (h.closed hclosed)).trans (h.final hclosed)

theorem of_sameMemory (h : SameMemory t t') : Ages false t t' where
  workMem := h.workMem
  logMaxBatches := h.logMaxBatches
  peak_le := h.peak.ge
  logBatches_le := h.logBatches.ge
  logBatches_le_max := h.logBatches.trans_le (Nat.le_max_left ..)
  growth := h.growth.trans
  isFixed := by rw [h.isFixed, Bool.or_false]
  final _ := h.logBatches

theorem keep (t : HashTable) (x : SpilledTuple) : Ages false t (t.keep x) :=
  ⟨rfl, rfl, Nat.le_max_left .., le_rfl, Nat.le_max_left .., id, (Bool.or_false _).symm,
    fun _ => rfl⟩

/-- A table that may be split ages when it is. -/
theorem of_doubles (h : Doubles t t') (hopen : ¬ t.Closed) : Ages false t t' where
  workMem := h.workMem
  logMaxBatches := h.logMaxBatches
  peak_le := h.peak.ge
  logBatches_le := by
    rw [h.logBatches]
    omega
  logBatches_le_max := by
    have hfew : ¬ t.logMaxBatches ≤ t.logBatches := fun hmax => hopen (.inr (.inl hmax))
    rw [h.logBatches]
    omega
  growth := h.growth
  isFixed := by rw [h.isFixed, Bool.or_false]
  final hclosed := absurd hclosed hopen

end Ages

/-- A row for which a table may be split is one for which it has splits left. -/
theorem MustSplit.not_closed (h : t.MustSplit x) (hleft : 0 < t.splitsLeft) : ¬ t.Closed := by
  have hgrowth := h.2.2
  rw [Bool.and_eq_true, Bool.not_eq_true'] at hgrowth
  unfold splitsLeft at hleft
  rintro (hnone | hmax | hfixed)
  · simp [hnone] at hgrowth
  · omega
  · simp [hfixed] at hgrowth

/-- Above the budget, a table that need not be split may not be. -/
theorem closed_of_not_mustSplit (hcurrent : t.batchOf x.hash = t.current)
    (hfull : t.workMem < t.used + x.size) (h : t.MustSplit x → t.splitsLeft = 0) : t.Closed := by
  by_cases hmust : t.MustSplit x
  · have hnone := h hmust
    unfold splitsLeft at hnone
    exact .inr (.inl (by omega))
  · have hgrowth : ¬ (t.growth && !t.isFixed) = true := fun hgrowth =>
      hmust ⟨hcurrent, hfull, hgrowth⟩
    rw [Bool.and_eq_true, Bool.not_eq_true', not_and_or, Bool.not_eq_true, Bool.not_eq_false]
      at hgrowth
    exact hgrowth.imp_right .inr

namespace Budgeted

theorem congr (h : t.Budgeted) (hsame : SameMemory t t') : t'.Budgeted where
  toMetered := h.toMetered.congr hsame
  closed hpeak := by
    rw [hsame.workMem, hsame.peak] at hpeak
    exact (Ages.of_sameMemory hsame).closed (h.closed hpeak)

/-- A row is kept in memory if it has room there, or else in a table that may not be split. -/
theorem keep (h : t.Budgeted) (hclosed : t.workMem < t.used + x.size → t.Closed) :
    (t.keep x).Budgeted where
  toMetered := h.toMetered.keep x
  closed hpeak := by
    apply (Ages.keep t x).closed
    obtain hpeak | hfull := lt_max_iff.mp hpeak
    · exact h.closed hpeak
    · exact hclosed hfull

/-- A table that was split is within its budget, for it was so before. -/
theorem of_doubles (h : t.Budgeted) (hopen : ¬ t.Closed) (hsplit : Doubles t t') :
    t'.Budgeted where
  toMetered := hsplit.metered
  closed hpeak := by
    rw [hsplit.workMem, hsplit.peak] at hpeak
    exact absurd (h.closed hpeak) hopen

theorem of_total (h : t.Budgeted) (total : Nat) : { t with total := total }.Budgeted :=
  ⟨⟨h.used_eq, h.used_le_peak⟩, h.closed⟩

/-! ## Rows that come in -/

/-- Putting a row in its place. The row is kept above the budget only when no split is left. -/
theorem place {splits : Nat} (hsplits : splits = t.splitsLeft) (h : t.Budgeted)
    (x : SpilledTuple) :
    (HashTable.place splits t x).2.Budgeted ∧ Ages false t (HashTable.place splits t x).2 := by
  induction splits using Nat.strongRecOn generalizing t with
  | ind splits ih =>
    rcases hp : HashTable.place splits t x with ⟨r, t'⟩
    obtain ⟨-, hspill⟩ | ⟨hcurrent, hmust, -, rfl⟩ |
      ⟨hmust, n, rfl, hsplit⟩ := place_cases hp
    · have hsame := sameMemory_spill t (t.batchOf x.hash) x
      rw [hspill] at hsame
      exact ⟨h.congr hsame, .of_sameMemory hsame⟩
    · refine ⟨h.keep ?_, .keep t x⟩
      intro hfull
      exact closed_of_not_mustSplit hcurrent hfull fun hmust' => hsplits ▸ hmust hmust'
    · have hopen := hmust.not_closed (hsplits ▸ Nat.succ_pos n)
      have hdoubles := doubles_split h.toMetered
      obtain ⟨e, hsplit, -⟩ | ⟨t₁, hsplit, hrest⟩ := hsplit
      · rw [hsplit] at hdoubles
        exact ⟨h.of_doubles hopen hdoubles, .of_doubles hdoubles hopen⟩
      · -- One split fewer is left, and the row is tried again.
        rw [hsplit] at hdoubles
        have hleft : n = t₁.splitsLeft := by
          unfold splitsLeft at hsplits ⊢
          rw [hdoubles.logMaxBatches, hdoubles.logBatches]
          omega
        have hplaced := ih n (Nat.lt_succ_self n) hleft (h.of_doubles hopen hdoubles)
        rw [hrest] at hplaced
        exact ⟨hplaced.1, (Ages.of_doubles hdoubles hopen).trans hplaced.2⟩

theorem insert (h : t.Budgeted) (x : SpilledTuple) :
    (t.insert x).2.Budgeted ∧ Ages false t (t.insert x).2 := by
  have hcounted : Ages false t { t with total := t.total + 1 } :=
    ⟨rfl, rfl, le_rfl, le_rfl, Nat.le_max_left .., id, (Bool.or_false _).symm, fun _ => rfl⟩
  obtain ⟨hbudgeted, hages⟩ := place rfl (h.of_total (t.total + 1)) x
  exact ⟨hbudgeted, hcounted.trans hages⟩

end Budgeted

/-! ## Batches that come in -/

/-- Bringing a batch into memory makes the number of batches final, whatever fails on the way. -/
theorem budgeted_switchTo (t : HashTable) (batch : Nat) :
    (t.switchTo batch).2.Budgeted ∧ Ages true t (t.switchTo batch).2 := by
  have hempty : Budgeted { t.clearResident with isFixed := true } :=
    ⟨⟨rfl, Nat.zero_le _⟩, fun _ => .inr (.inr rfl)⟩
  have hfixed : Ages true t { t.clearResident with isFixed := true } :=
    ⟨rfl, rfl, le_rfl, le_rfl, Nat.le_max_left .., id, (Bool.or_true _).symm, fun _ => rfl⟩
  have hsame := sameMemory_forEach_spill (fun _ _ => t.current) t.resident
    { t.clearResident with isFixed := true }
  rw [switchTo]
  split
  · next hspill =>
    rw [hspill] at hsame
    exact ⟨hempty.congr hsame, hfixed.trans (.of_sameMemory hsame)⟩
  · next t₁ hspill =>
    rw [hspill] at hsame
    have hleft := hempty.congr hsame
    have hages : Ages true t t₁ := hfixed.trans (.of_sameMemory hsame)
    -- The batch in memory and the files are other ones, of which the budget takes no notice.
    have hother (store : SpillStore) : Budgeted { t₁ with current := batch, store } ∧
        Ages true t { t₁ with current := batch, store } := by
      have hmoved : Ages false t₁ { t₁ with current := batch, store } :=
        ⟨rfl, rfl, le_rfl, le_rfl, Nat.le_max_left .., id, (Bool.or_false _).symm, fun _ => rfl⟩
      exact ⟨⟨⟨hleft.used_eq, hleft.used_le_peak⟩, hleft.closed⟩, hages.trans hmoved⟩
    split
    · exact hother _
    · refine forEach_keeps (P := fun t' => t'.Budgeted ∧ Ages true t t') ?_ _ (hother _)
      rintro t₂ x ⟨hbudgeted, hages⟩
      obtain ⟨hplaced, hages'⟩ := hbudgeted.place rfl x
      exact ⟨hplaced, hages.trans hages'⟩

end HashTable

end PullQuery
