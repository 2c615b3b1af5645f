import PullQuery.Proofs.Hash.Batches
import PullQuery.Proofs.Hash.Memory
import PullQuery.Proofs.Spill.Queues

/-!
# What it takes to switch batches

To bring another batch into memory, a table writes the rows that are in memory to their file and
keeps those of the other batch. It counts just the rows that are written, and no more memory is
used than the rows that come in take.

## Main definitions

* `HashTable.Writes`: a table has written some rows to files meanwhile
* `HashTable.leaving`: the rows that leave memory for a batch

## Main results

* `HashTable.forEach_route`: once batches have been switched, rows of the batch in memory are kept
* `HashTable.Holds.writes_loadBatch`, `HashTable.Holds.peak_loadBatch_le`
-/

namespace PullQuery

namespace HashTable

variable {t t' t₁ t₂ t₃ : HashTable} {x : SpilledTuple} {xs ys rows : List SpilledTuple}
  {batch : Nat}

/-! ## Rows that are written -/

/-- Whether a table is another one that has written some rows to files meanwhile. -/
structure Writes (t t' : HashTable) (xs : List SpilledTuple) : Prop where
  spilled : t'.spilled = t.spilled + xs.length
  bytesWritten :
    t'.store.bytesWritten = t.store.bytesWritten + sumBy SpilledTuple.encodedSize xs

theorem Writes.refl (t : HashTable) : Writes t t [] := ⟨rfl, rfl⟩

theorem Writes.trans (h : Writes t₁ t₂ xs) (h' : Writes t₂ t₃ ys) : Writes t₁ t₃ (xs ++ ys) where
  spilled := by rw [h'.spilled, h.spilled, List.length_append, Nat.add_assoc]
  bytesWritten := by rw [h'.bytesWritten, h.bytesWritten, sumBy_append, Nat.add_assoc]

theorem writes_spill (h : t.spill batch x = (.ok (), t')) : Writes t t' [x] := by
  obtain ⟨store, hstore, rfl⟩ := spill_eq_ok h
  obtain ⟨bytes, hbytes, rfl⟩ := SpillStore.append_eq_ok hstore
  refine ⟨rfl, ?_⟩
  show t.store.bytesWritten + bytes.length = _
  rw [SpilledTuple.length_encode hbytes, sumBy_cons, sumBy_nil, Nat.add_zero]

theorem writes_forEach_spill (h : forEach (fun t x => t.spill batch x) xs t = (.ok (), t')) :
    Writes t t' xs := by
  induction xs generalizing t with
  | nil =>
    obtain rfl := (Prod.mk.inj h).2
    exact .refl t
  | cons x xs ih =>
    obtain ⟨t₁, hspill, hrest⟩ := forEach_cons_eq_ok h
    exact (writes_spill hspill).trans (ih hrest)

/-! ## Rows that are kept -/

theorem route_of_isFixed (hfixed : t.isFixed = true) (hx : t.batchOf x.hash = t.current) :
    t.route x = (.ok (), t.keep x) := by
  obtain ⟨hother, -⟩ | ⟨-, -, hr, ht⟩ | ⟨hmust, -⟩ := place_cases (rfl : t.route x = t.route x)
  · exact absurd hx hother
  · exact Prod.ext hr ht
  · have hgrows := hmust.isFixed
    rw [hfixed] at hgrows
    contradiction

/-- A table with a final number of batches keeps the rows of the batch in memory. -/
theorem forEach_route (hfixed : t.isFixed = true) (hxs : ∀ x ∈ xs, t.batchOf x.hash = t.current) :
    forEach route xs t = (.ok (), xs.foldl keep t) := by
  induction xs generalizing t with
  | nil => rfl
  | cons x xs ih =>
    rw [forEach, route_of_isFixed hfixed (hxs x (List.mem_cons_self ..))]
    exact ih hfixed fun y hy => hxs y (List.mem_cons_of_mem x hy)

theorem writes_foldl_keep (xs : List SpilledTuple) (t : HashTable) :
    Writes t (xs.foldl keep t) [] := by
  induction xs generalizing t with
  | nil => exact .refl t
  | cons x xs ih => exact ⟨(ih (t.keep x)).spilled, (ih (t.keep x)).bytesWritten⟩

theorem peak_foldl_keep_le (xs : List SpilledTuple) (t : HashTable) :
    (xs.foldl keep t).peak ≤ max t.peak (t.used + sumBy SpilledTuple.size xs) := by
  induction xs generalizing t with
  | nil => exact Nat.le_max_left ..
  | cons x xs ih =>
    have hrest : (xs.foldl keep (t.keep x)).peak ≤
        max (max t.peak (t.used + x.size)) (t.used + x.size + sumBy SpilledTuple.size xs) :=
      ih (t.keep x)
    rw [List.foldl_cons, sumBy_cons]
    omega

/-! ## Switches -/

/-- The rows that leave memory when a batch is brought into it. -/
def leaving (t : HashTable) (batch : Nat) : List SpilledTuple :=
  if batch = t.current then [] else t.resident

/-- The two halves of a switch, of which the first writes rows and the second keeps some. -/
theorem Holds.switchTo_eq_foldl (h : t.Holds rows) (hother : batch ≠ t.current)
    (hs : t.switchTo batch = (.ok (), t')) :
    ∃ t₁, Writes t t₁ t.resident ∧ t₁.used = 0 ∧ t₁.peak = t.peak ∧
      t' = (t.batchRows batch).foldl HashTable.keep t₁ := by
  obtain ⟨t₁, hspill, hroute⟩ := switchTo_steps h.sound hother hs
  have hwrites := writes_forEach_spill hspill
  have hsame := sameMemory_forEach_spill (fun _ _ => t.current) t.resident
    { t.clearResident with isFixed := true }
  rw [hspill] at hsame
  have hhere : ∀ x ∈ t.store.tuples batch, t₁.batchOf x.hash = batch := by
    intro x hx
    rw [hsame.batchOf]
    exact h.batchOf_of_mem_tuples hother x hx
  have hkept : forEach route (t.store.tuples batch)
      { t₁ with current := batch, store := t₁.store.clear batch } = (.ok (), _) :=
    forEach_route hsame.isFixed hhere
  rw [batchRows_other hother]
  exact ⟨{ t₁ with current := batch, store := t₁.store.clear batch },
    ⟨hwrites.spilled, hwrites.bytesWritten⟩, hsame.used, hsame.peak,
    congrArg Prod.snd (hroute.symm.trans hkept)⟩

/-- A table counts the rows that leave memory for a batch as written. -/
theorem Holds.writes_loadBatch (h : t.Holds rows) (hl : t.loadBatch batch = (.ok (), t')) :
    Writes t t' (t.leaving batch) := by
  obtain ⟨-, ⟨hcurrent, rfl⟩ | ⟨hother, hswitch⟩⟩ := loadBatch_eq_ok hl
  · rw [leaving, if_pos hcurrent]
    exact .refl t'
  · obtain ⟨t₁, hwrites, -, -, rfl⟩ := h.switchTo_eq_foldl hother hswitch
    rw [leaving, if_neg hother, ← List.append_nil t.resident]
    exact hwrites.trans (writes_foldl_keep _ t₁)

theorem peak_le_loadBatch (hl : t.loadBatch batch = (.ok (), t')) : t.peak ≤ t'.peak := by
  obtain ⟨-, ⟨-, rfl⟩ | ⟨-, hswitch⟩⟩ := loadBatch_eq_ok hl
  · exact le_rfl
  · obtain ⟨-, hages⟩ := budgeted_switchTo t batch
    rw [hswitch] at hages
    exact hages.peak_le

/-- Bringing a batch into memory takes no more memory than its rows do. -/
theorem Holds.peak_loadBatch_le (h : t.Holds rows) (hl : t.loadBatch batch = (.ok (), t')) :
    t'.peak ≤ max t.peak (sumBy SpilledTuple.size (t.batchRows batch)) := by
  obtain ⟨-, ⟨-, rfl⟩ | ⟨hother, hswitch⟩⟩ := loadBatch_eq_ok hl
  · exact Nat.le_max_left ..
  · obtain ⟨t₁, -, hused, hpeak, rfl⟩ := h.switchTo_eq_foldl hother hswitch
    have hkept := peak_foldl_keep_le (t.batchRows batch) t₁
    rwa [hused, hpeak, Nat.zero_add] at hkept

/-- A table has the same rows in each batch, whichever is in memory. -/
theorem Holds.batchRows_loadBatch (h : t.Holds rows) (hl : t.loadBatch batch = (.ok (), t'))
    (b : Nat) : t'.batchRows b = t.batchRows b := by
  obtain ⟨h', -, hbatchOf⟩ := h.loadBatch hl
  rw [h'.batchRows_eq, h.batchRows_eq]
  simp only [hbatchOf]

end HashTable

end PullQuery
