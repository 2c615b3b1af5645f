import Mathlib.Data.List.Perm.Basic
import PullQuery.Hash.Table
import PullQuery.Proofs.Spill.Files

/-!
# The rows of a hash table

Where the rows of a table are: in memory, under an index from hashes to positions, and in the
files of its spill store. Keeping a row in memory and writing it to a file leave a sound table
with that row at the end of one of the lists.

## Main definitions

* `HashTable.stored`: all rows of a table
* `HashTable.Sound`: the index and the files describe the rows they are about
* `HashTable.Gains`: a table is another one with more rows in memory and in files

## Main results

* `HashTable.lookup_current`: a look-up in the current batch finds the resident rows
* `HashTable.Gains.keep`, `HashTable.Gains.spill`, `HashTable.Gains.forEach`
-/

namespace PullQuery

/-- The rows with a hash, in order. -/
def rowsWith (hash : UInt32) (xs : List SpilledTuple) : List Row :=
  (xs.filter fun x => x.hash = hash).map (·.row)

/-- The positions of the tuples with a hash, in order. -/
def hashPositions (hash : UInt32) (xs : List SpilledTuple) : List Nat :=
  (xs.zipIdx.filter fun p => p.1.hash = hash).map (·.2)

theorem hashPositions_concat (hash : UInt32) (xs : List SpilledTuple) (x : SpilledTuple) :
    hashPositions hash (xs ++ [x]) =
      if x.hash = hash then hashPositions hash xs ++ [xs.length] else hashPositions hash xs := by
  unfold hashPositions
  rw [List.zipIdx_append, List.filter_append, List.map_append]
  split
  · next h => simp [h]
  · next h => simp [h]

theorem map_fst_filter_zipIdx (hash : UInt32) (xs : List SpilledTuple) :
    ((xs.zipIdx.filter fun p => p.1.hash = hash).map (·.1)) =
      xs.filter fun x => x.hash = hash := by
  conv_rhs => rw [← List.zipIdx_map_fst 0 xs]
  rw [List.filter_map]
  rfl

/-- The rows at the positions of a hash are the rows with that hash. -/
theorem filterMap_hashPositions (hash : UInt32) (xs : List SpilledTuple) :
    ((hashPositions hash xs).filterMap fun i => xs[i]?.map (·.row)) = rowsWith hash xs := by
  unfold hashPositions rowsWith
  rw [← map_fst_filter_zipIdx, List.filterMap_map, List.map_map, ← List.filterMap_eq_map]
  apply List.filterMap_congr
  intro p hp
  -- An element of the list with positions is found at its position.
  have hget : xs[p.2]? = some p.1 :=
    List.mem_zipIdx_iff_getElem?.mp (List.mem_of_mem_filter hp)
  simp [hget]

theorem hashPositions_eq_nil_iff {hash : UInt32} {xs : List SpilledTuple} :
    hashPositions hash xs = [] ↔ rowsWith hash xs = [] := by
  unfold hashPositions rowsWith
  rw [← map_fst_filter_zipIdx, List.map_eq_nil_iff, List.map_eq_nil_iff, List.map_eq_nil_iff]

namespace HashTable

variable {t t' : HashTable} {x : SpilledTuple}

/-! ## Sound tables -/

/-- The rows of a table, in memory and in files. -/
def stored (t : HashTable) : List SpilledTuple := t.resident ++ t.store.contents

/-- Whether the buckets list the positions of the resident rows, hash by hash. -/
def Indexed (t : HashTable) : Prop :=
  ∀ hash, Assoc.find? hash t.buckets =
    if hashPositions hash t.resident = [] then none else some (hashPositions hash t.resident)

/-- Whether the index and the files of a table describe the rows they are about. -/
structure Sound (t : HashTable) : Prop where
  store : t.store.Sound
  index : t.Indexed

theorem Indexed.positions_eq (h : t.Indexed) (hash : UInt32) :
    t.positions hash = hashPositions hash t.resident := by
  rw [positions, h hash]
  split
  · next hnil => rw [hnil, Option.getD_none]
  · rfl

theorem indexed_clearResident (t : HashTable) : t.clearResident.Indexed := fun _ => rfl

theorem Indexed.keep (h : t.Indexed) (x : SpilledTuple) : (t.keep x).Indexed := by
  intro hash
  change Assoc.find? hash (Assoc.put x.hash _ t.buckets) = _
  rw [Assoc.find?_put, h.positions_eq, HashTable.keep, hashPositions_concat]
  -- Only the list of the row's own hash changes, and it is not empty then.
  by_cases hh : x.hash = hash
  · rw [if_pos hh.symm, if_pos hh, hh, if_neg (by simp)]
  · rw [if_neg (Ne.symm hh), if_neg hh]
    exact h hash

theorem Sound.keep (h : t.Sound) (x : SpilledTuple) : (t.keep x).Sound :=
  ⟨h.store, h.index.keep x⟩

/-- A look-up in the current batch finds the resident rows. -/
theorem lookup_current (h : t.Indexed) {hash : UInt32} (hb : t.batchOf hash = t.current) :
    t.lookup hash =
      if rowsWith hash t.resident = [] then .noMatch else .found (rowsWith hash t.resident) := by
  unfold lookup
  simp only [if_pos hb, h hash, hashPositions_eq_nil_iff]
  by_cases hrows : rowsWith hash t.resident = []
  · simp only [if_pos hrows]
  · simp only [if_neg hrows, filterMap_hashPositions]

/-- A look-up in another batch only sees whether it has rows. -/
theorem lookup_other {hash : UInt32} (h : t.Sound) (hb : t.batchOf hash ≠ t.current) :
    t.lookup hash =
      if t.store.tuples (t.batchOf hash) = [] then .noMatch else .notLoaded (t.batchOf hash) := by
  unfold lookup
  simp only [if_neg hb, h.store.batchSize_eq_zero_iff]

/-! ## Tables with the same setup -/

/-- Whether two tables agree in all that decides where a row belongs and what room there is. -/
structure SameSetup (t t' : HashTable) : Prop where
  workMem : t'.workMem = t.workMem
  logBuckets : t'.logBuckets = t.logBuckets
  logMaxBatches : t'.logMaxBatches = t.logMaxBatches
  logBatches : t'.logBatches = t.logBatches
  current : t'.current = t.current
  growth : t'.growth = t.growth
  isFixed : t'.isFixed = t.isFixed
  capacity : t'.store.capacity? = t.store.capacity?

namespace SameSetup

theorem refl (t : HashTable) : SameSetup t t := ⟨rfl, rfl, rfl, rfl, rfl, rfl, rfl, rfl⟩

theorem trans {t₁ t₂ t₃ : HashTable} (h : SameSetup t₁ t₂) (h' : SameSetup t₂ t₃) :
    SameSetup t₁ t₃ where
  workMem := h'.workMem.trans h.workMem
  logBuckets := h'.logBuckets.trans h.logBuckets
  logMaxBatches := h'.logMaxBatches.trans h.logMaxBatches
  logBatches := h'.logBatches.trans h.logBatches
  current := h'.current.trans h.current
  growth := h'.growth.trans h.growth
  isFixed := h'.isFixed.trans h.isFixed
  capacity := h'.capacity.trans h.capacity

theorem batchCount (h : SameSetup t t') : t'.batchCount = t.batchCount := by
  rw [HashTable.batchCount, HashTable.batchCount, h.logBatches]

theorem batchOf (h : SameSetup t t') (hash : UInt32) : t'.batchOf hash = t.batchOf hash := by
  rw [HashTable.batchOf, HashTable.batchOf, h.logBuckets, h.batchCount]

end SameSetup

/-! ## Tables with more rows -/

/-- Whether a table is another one with more rows: those in `kept` in memory and those in
`written b` at the end of the file of batch `b`. -/
structure Gains (t t' : HashTable) (kept : List SpilledTuple)
    (written : Nat → List SpilledTuple) : Prop where
  setup : SameSetup t t'
  sound : t'.Sound
  resident : t'.resident = t.resident ++ kept
  files : ∀ b, t'.store.tuples b = t.store.tuples b ++ written b

theorem spill_eq_ok {batch : Nat} (h : t.spill batch x = (.ok (), t')) :
    ∃ store, t.store.append batch x = .ok store ∧
      t' = { t with store, spilled := t.spilled + 1 } := by
  unfold spill at h
  split at h
  · simp at h
  · next store hstore => exact ⟨store, hstore, (Prod.mk.inj h).2.symm⟩

theorem spill_eq_error {batch : Nat} {e : StorageFault} (h : t.spill batch x = (.error e, t')) :
    t' = t := by
  unfold spill at h
  split at h
  · exact (Prod.mk.inj h).2.symm
  · simp at h

/-- Whether a table is to be split before a row is put in its place. -/
def MustSplit (t : HashTable) (x : SpilledTuple) : Prop :=
  t.batchOf x.hash = t.current ∧ t.workMem < t.used + x.size ∧ (t.growth && !t.isFixed)

instance (t : HashTable) (x : SpilledTuple) : Decidable (t.MustSplit x) :=
  inferInstanceAs (Decidable (_ ∧ _ ∧ _))

theorem MustSplit.isFixed (h : t.MustSplit x) : t.isFixed = false := by
  have hgrowth := h.2.2
  rw [Bool.and_eq_true, Bool.not_eq_true'] at hgrowth
  exact hgrowth.2

/-- What placing a row may do: it writes the row to its file, it keeps the row in memory, or it
splits the table first and goes on with the result if there is one. -/
theorem place_cases {splits : Nat} {r : Except StorageFault Unit}
    (h : place splits t x = (r, t')) :
    (t.batchOf x.hash ≠ t.current ∧ t.spill (t.batchOf x.hash) x = (r, t')) ∨
    (t.batchOf x.hash = t.current ∧ (t.MustSplit x → splits = 0) ∧ r = .ok () ∧
      t' = t.keep x) ∨
    (t.MustSplit x ∧ ∃ n, splits = n + 1 ∧
      ((∃ e, t.split = (.error e, t') ∧ r = .error e) ∨
        ∃ t₁, t.split = (.ok (), t₁) ∧ place n t₁ x = (r, t'))) := by
  have hkept (h : ((.ok (), t.keep x) : Except StorageFault Unit × HashTable) = (r, t')) :
      r = .ok () ∧ t' = t.keep x := ⟨(Prod.mk.inj h).1.symm, (Prod.mk.inj h).2.symm⟩
  unfold place at h
  split at h
  · next hx => exact .inl ⟨hx, h⟩
  · next hx =>
    have hcurrent := Decidable.not_not.mp hx
    split at h
    · -- There is room in memory.
      next hroom =>
      exact .inr (.inl ⟨hcurrent, fun hmust => absurd hroom (Nat.not_le.mpr hmust.2.1), hkept h⟩)
    · next hroom =>
      split at h
      · next hgrowth =>
        split at h
        · -- No splits are left, and the row is kept above the budget.
          exact .inr (.inl ⟨hcurrent, fun _ => rfl, hkept h⟩)
        · refine .inr (.inr ⟨⟨hcurrent, Nat.not_le.mp hroom, hgrowth⟩, _, rfl, ?_⟩)
          split at h
          · next e t₁ hsplit =>
            obtain ⟨rfl, rfl⟩ := Prod.mk.inj h
            exact .inl ⟨e, hsplit, rfl⟩
          · next t₁ hsplit => exact .inr ⟨t₁, hsplit, h⟩
      · -- The table may not grow, and the row is kept above the budget.
        next hgrowth =>
        exact .inr (.inl ⟨hcurrent, fun hmust => absurd hmust.2.2 hgrowth, hkept h⟩)

namespace Gains

theorem refl (h : t.Sound) : Gains t t [] fun _ => [] :=
  ⟨.refl t, h, (List.append_nil _).symm, fun _ => (List.append_nil _).symm⟩

theorem trans {t₁ t₂ t₃ : HashTable} {kept kept' : List SpilledTuple}
    {written written' : Nat → List SpilledTuple} (h : Gains t₁ t₂ kept written)
    (h' : Gains t₂ t₃ kept' written') :
    Gains t₁ t₃ (kept ++ kept') fun b => written b ++ written' b where
  setup := h.setup.trans h'.setup
  sound := h'.sound
  resident := by rw [h'.resident, h.resident, List.append_assoc]
  files b := by rw [h'.files, h.files, List.append_assoc]

theorem keep (h : t.Sound) (x : SpilledTuple) : Gains t (t.keep x) [x] fun _ => [] where
  setup := ⟨rfl, rfl, rfl, rfl, rfl, rfl, rfl, rfl⟩
  sound := h.keep x
  resident := rfl
  files _ := (List.append_nil _).symm

theorem spill (h : t.Sound) {batch : Nat} (hs : t.spill batch x = (.ok (), t')) :
    Gains t t' [] fun b => if b = batch then [x] else [] := by
  obtain ⟨store, hstore, rfl⟩ := spill_eq_ok hs
  refine ⟨⟨rfl, rfl, rfl, rfl, rfl, rfl, rfl, SpillStore.capacity_append hstore⟩,
    ⟨h.store.append hstore, h.index⟩, (List.append_nil _).symm, fun b => ?_⟩
  rw [h.store.tuples_append hstore]
  split
  · rfl
  · exact (List.append_nil _).symm

end Gains

/-! ## Rows in turn -/

section ForEach

variable {op : HashTable → SpilledTuple → Except StorageFault Unit × HashTable}
  {xs : List SpilledTuple}

theorem forEach_cons_eq_ok (h : forEach op (x :: xs) t = (.ok (), t')) :
    ∃ t₁, op t x = (.ok (), t₁) ∧ forEach op xs t₁ = (.ok (), t') := by
  rw [forEach] at h
  split at h
  · simp at h
  · next t₁ hop => exact ⟨t₁, hop, h⟩

/-- What each operation adds comes together in order. -/
theorem Gains.forEach (kept : SpilledTuple → List SpilledTuple)
    (written : SpilledTuple → Nat → List SpilledTuple)
    (hop : ∀ t₁ t₂, ∀ x ∈ xs, SameSetup t t₁ → t₁.Sound → op t₁ x = (.ok (), t₂) →
      Gains t₁ t₂ (kept x) (written x))
    (ht : t.Sound) (h : HashTable.forEach op xs t = (.ok (), t')) :
    Gains t t' (xs.flatMap kept) fun b => xs.flatMap (written · b) := by
  induction xs generalizing t with
  | nil =>
    obtain rfl := (Prod.mk.inj h).2
    exact .refl ht
  | cons x xs ih =>
    obtain ⟨t₁, hx, hxs⟩ := forEach_cons_eq_ok h
    have hfirst := hop t t₁ x (List.mem_cons_self ..) (.refl t) ht hx
    have hop' : ∀ t₂ t₃, ∀ y ∈ xs, SameSetup t₁ t₂ → t₂.Sound → op t₂ y = (.ok (), t₃) →
        Gains t₂ t₃ (kept y) (written y) := by
      intro t₂ t₃ y hy hsetup
      exact hop t₂ t₃ y (List.mem_cons_of_mem x hy) (hfirst.setup.trans hsetup)
    have hrest := ih hop' hfirst.sound hxs
    simpa only [List.flatMap_cons] using hfirst.trans hrest

end ForEach

end HashTable

end PullQuery
