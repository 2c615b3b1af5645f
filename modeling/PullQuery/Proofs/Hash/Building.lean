import PullQuery.Proofs.Hash.Memory
import PullQuery.Proofs.Hash.Probe
import PullQuery.Proofs.Hash.Unlimited

/-!
# Building a hash table

Building reads the input into a new table and leaves the rest of a hash node as it was, save for
counters. Tables that hold the same rows in the same batches answer look-ups alike, and go on
doing so when batches are loaded.

## Main definitions

* `HashTable.Alike`: tables with the same rows in the same batches
* `HashTable.Equivalent`: tables that answer look-ups and load batches alike
* `HashTable.Unmoved`: a table has the same batch in memory, and was given as many rows
* `HashBuild.Continues`: a state of a node differs from another in counters of what it read

## Main results

* `HashTable.Equivalent.lookup_eq`, `HashTable.Equivalent.loadBatch`
* `HashTable.current_insert`, `HashTable.total_insert`
* `HashBuild.continues_drain`, `HashBuild.table_of_drain`, `HashBuild.input_of_build`: what reading
  the input keeps
* `HashBuild.unlimited_of_drain`, `HashBuild.current_of_drain`
* `HashBuild.build_of_none`, `HashBuild.build_of_table`, `HashBuild.build_of_aborted`
-/

namespace PullQuery

/-! ## Tables -/

namespace HashTable

variable {t t' : HashTable} {rows : List SpilledTuple} {batch : Nat}

theorem Holds.batchCount_loadBatch (h : t.Holds rows) (hl : t.loadBatch batch = (.ok (), t')) :
    t'.batchCount = t.batchCount := by
  obtain ⟨-, ⟨-, rfl⟩ | ⟨hother, hswitch⟩⟩ := loadBatch_eq_ok hl
  · rfl
  · obtain ⟨hsetup, -⟩ := switchTo_eq_ok h.sound hother (h.batchOf_of_mem_tuples hother) hswitch
    exact hsetup.batchCount

/-- Whether two tables hold the same rows in the same batches. -/
structure Alike (t t' : HashTable) : Prop where
  rows : ∃ rows, t.Holds rows ∧ t'.Holds rows
  batchCount_eq : t'.batchCount = t.batchCount
  batchOf_eq : ∀ hash, t'.batchOf hash = t.batchOf hash

namespace Alike

theorem refl (h : t.Holds rows) : t.Alike t := ⟨⟨rows, h, h⟩, rfl, fun _ => rfl⟩

theorem symm (h : t.Alike t') : t'.Alike t := by
  obtain ⟨rows, ht, ht'⟩ := h.rows
  exact ⟨⟨rows, ht', ht⟩, h.batchCount_eq.symm, fun hash => (h.batchOf_eq hash).symm⟩

/-- Tables with the same batch in memory answer every look-up alike. -/
theorem lookup_eq (h : t.Alike t') (hcurrent : t.current = t'.current) (hash : UInt32) :
    t.lookup hash = t'.lookup hash := by
  obtain ⟨rows, ht, ht'⟩ := h.rows
  have hbatch := h.batchOf_eq
  by_cases hb : t.batchOf hash = t.current
  · have hb' : t'.batchOf hash = t'.current := by rw [hbatch, hb, hcurrent]
    rw [ht.lookup_current hb, ht'.lookup_current hb']
  · have hb' : t'.batchOf hash ≠ t'.current := by rwa [hbatch, ← hcurrent]
    -- The files of the batch have the same rows.
    have hfiles : t.store.tuples (t.batchOf hash) = t'.store.tuples (t'.batchOf hash) := by
      rw [← batchRows_other hb, ← batchRows_other hb', ht.batchRows_eq, ht'.batchRows_eq]
      simp only [hbatch]
    rw [HashTable.lookup_other ht.sound hb, HashTable.lookup_other ht'.sound hb', hfiles, hbatch]

theorem loadBatch (h : t.Alike t') {t₁ : HashTable} (hload : t'.loadBatch batch = (.ok (), t₁)) :
    t.Alike t₁ := by
  obtain ⟨rows, ht, ht'⟩ := h.rows
  obtain ⟨ht₁, -, hbatch₁⟩ := ht'.loadBatch hload
  exact ⟨⟨rows, ht, ht₁⟩, (ht'.batchCount_loadBatch hload).trans h.batchCount_eq,
    fun hash => (hbatch₁ hash).trans (h.batchOf_eq hash)⟩

end Alike

/-- Whether two tables are the same, or hold the same rows, have the same batch in memory, and
load every batch. -/
def Equivalent (t t' : HashTable) : Prop :=
  t = t' ∨ t.Alike t' ∧ t.current = t'.current ∧ t.Unlimited ∧ t'.Unlimited

namespace Equivalent

theorem lookup_eq (h : t.Equivalent t') (hash : UInt32) : t.lookup hash = t'.lookup hash := by
  obtain rfl | ⟨halike, hcurrent, -⟩ := h
  · rfl
  · exact halike.lookup_eq hcurrent hash

/-- Equivalent tables load their batches alike and stay equivalent. -/
theorem loadBatch (h : t.Equivalent t') (batch : Nat) :
    (t.loadBatch batch).1 = (t'.loadBatch batch).1 ∧
      (t.loadBatch batch).2.Equivalent (t'.loadBatch batch).2 := by
  obtain rfl | ⟨halike, hcurrent, ht, ht'⟩ := h
  · exact ⟨rfl, .inl rfl⟩
  · by_cases hbatch : batch < t.batchCount
    · obtain ⟨t₁, hload, ht₁⟩ := ht.loadBatch hbatch
      obtain ⟨t₁', hload', ht₁'⟩ := ht'.loadBatch (halike.batchCount_eq ▸ hbatch)
      obtain ⟨rows, hholds, hholds'⟩ := halike.rows
      have hcurrent₁ : t₁.current = t₁'.current :=
        (hholds.loadBatch hload).2.1.trans (hholds'.loadBatch hload').2.1.symm
      rw [hload, hload']
      have halike₁ := ((halike.loadBatch hload').symm.loadBatch hload).symm
      exact ⟨rfl, .inr ⟨halike₁, hcurrent₁, ht₁, ht₁'⟩⟩
    · -- There is no such batch in either.
      have hrange := Nat.not_lt.mp hbatch
      have hrange' : t'.batchCount ≤ batch := halike.batchCount_eq ▸ hrange
      rw [HashTable.loadBatch, HashTable.loadBatch, if_pos hrange, if_pos hrange']
      exact ⟨rfl, .inr ⟨halike, hcurrent, ht, ht'⟩⟩

end Equivalent

/-! ## The batch in memory -/

/-- Whether a table has the same batch in memory as another one, and was given as many rows. -/
structure Unmoved (t t' : HashTable) : Prop where
  current : t'.current = t.current
  total : t'.total = t.total

section Unmoved

variable {t₁ t₂ t₃ : HashTable}

theorem Unmoved.refl (t : HashTable) : Unmoved t t := ⟨rfl, rfl⟩

theorem Unmoved.trans (h : Unmoved t₁ t₂) (h' : Unmoved t₂ t₃) : Unmoved t₁ t₃ :=
  ⟨h'.current.trans h.current, h'.total.trans h.total⟩

theorem unmoved_spill (t : HashTable) (batch : Nat) (x : SpilledTuple) :
    Unmoved t (t.spill batch x).2 := by
  unfold spill
  split
  · exact .refl t
  · exact ⟨rfl, rfl⟩

theorem unmoved_settle (t : HashTable) (x : SpilledTuple) : Unmoved t (t.settle x).2 := by
  unfold settle
  split
  · exact ⟨rfl, rfl⟩
  · exact unmoved_spill t _ x

theorem unmoved_refile (t : HashTable) (batch : Nat) : Unmoved t (t.refile batch).2 := by
  unfold refile
  split
  · exact ⟨rfl, rfl⟩
  · exact forEach_keeps (fun t₁ x h => h.trans (unmoved_spill t₁ (t₁.batchOf x.hash) x)) _
      ⟨rfl, rfl⟩

theorem unmoved_refileAll (bs : List Nat) (t : HashTable) : Unmoved t (refileAll bs t).2 :=
  refileAll_keeps (fun t₁ b h => h.trans (unmoved_refile t₁ b)) bs (.refl t)

theorem unmoved_split (t : HashTable) : Unmoved t t.split.2 := by
  have hresident : Unmoved t (forEach settle t.resident
      { t.clearResident with logBatches := t.logBatches + 1 }).2 :=
    forEach_keeps (fun t₁ x h => h.trans (unmoved_settle t₁ x)) t.resident ⟨rfl, rfl⟩
  unfold split
  split
  · next hsettle =>
    rw [hsettle] at hresident
    exact hresident
  · next t₁ hsettle =>
    rw [hsettle] at hresident
    have hfiles := hresident.trans (unmoved_refileAll (List.range t.batchCount) t₁)
    dsimp only
    split
    · next hrefile =>
      rw [hrefile] at hfiles
      exact hfiles
    · next hrefile =>
      rw [hrefile] at hfiles
      split
      · exact ⟨hfiles.current, hfiles.total⟩
      · exact hfiles

theorem unmoved_place (splits : Nat) (t : HashTable) (x : SpilledTuple) :
    Unmoved t (place splits t x).2 := by
  induction splits using Nat.strongRecOn generalizing t with
  | ind splits ih =>
    rcases hp : place splits t x with ⟨r, t'⟩
    have hsplits := unmoved_split t
    obtain ⟨-, hspill⟩ | ⟨-, -, -, rfl⟩ | ⟨-, n, rfl, ⟨e, hsplit, -⟩ | ⟨t₁, hsplit, hrest⟩⟩ :=
      place_cases hp
    · have hspills := unmoved_spill t (t.batchOf x.hash) x
      rwa [hspill] at hspills
    · exact ⟨rfl, rfl⟩
    · rwa [hsplit] at hsplits
    · rw [hsplit] at hsplits
      have hplaced := ih n (Nat.lt_succ_self n) t₁
      rw [hrest] at hplaced
      exact hsplits.trans hplaced

/-- Insertions leave the same batch in memory. -/
theorem current_insert (t : HashTable) (x : SpilledTuple) :
    (t.insert x).2.current = t.current :=
  (unmoved_place _ { t with total := t.total + 1 } x).current

/-- Insertions count the row, wherever it goes. -/
theorem total_insert (t : HashTable) (x : SpilledTuple) : (t.insert x).2.total = t.total + 1 :=
  (unmoved_place _ { t with total := t.total + 1 } x).total

end Unmoved

end HashTable

/-! ## Nodes -/

namespace HashBuild

variable {σ : Type} {next : σ → Session → Except Error (Option Slot) × σ × Session}
  {n : HashBuild} {s s' s'' : State} {t : HashTable} {ctx : Context}

/-- Whether a state differs from another in no more than counters, other than that of the rows
that it returns. -/
structure Continues (s s' : State) : Prop extends SameLife s s' where
  table_eq : s'.table? = s.table?
  aborted_eq : s'.aborted = s.aborted
  rowsOut_eq : s'.base.counters.rowsOut = s.base.counters.rowsOut

theorem Continues.refl (s : State) : Continues s s := ⟨⟨rfl, rfl⟩, rfl, rfl, rfl⟩

theorem Continues.trans (h : Continues s s') (h' : Continues s' s'') : Continues s s'' :=
  ⟨h.toSameLife.trans h'.toSameLife, h'.table_eq.trans h.table_eq,
    h'.aborted_eq.trans h.aborted_eq, h'.rowsOut_eq.trans h.rowsOut_eq⟩

theorem continues_absorb (n : HashBuild) (t : HashTable) (s : State) (row : Row) :
    Continues s (n.absorb t s row).2 := by
  unfold absorb
  split
  · exact .refl s
  · exact ⟨⟨rfl, rfl⟩, rfl, rfl, rfl⟩
  · split
    · exact .refl s
    · exact .refl s

theorem absorb_eq (n : HashBuild) (t : HashTable) (h : s.base.params = s'.base.params) (row : Row) :
    (n.absorb t s row).1 = (n.absorb t s' row).1 := by
  unfold absorb
  rw [h]
  split
  · rfl
  · rfl
  · split
    · rfl
    · rfl

/-- Reading the input changes no more than counters beside it, and it keeps what every call of
the input keeps. -/
theorem continues_drain (n : HashBuild) (t : HashTable) (s : State) (limit : Nat) (w : Session)
    {Q : σ → Prop} (hnext : ∀ i w, Q i → Q (next i w).2.1) {i : σ} (hi : Q i) :
    Continues s (n.drain next limit t s i w).2.1 ∧ Q (n.drain next limit t s i w).2.2.1 := by
  induction limit generalizing t s i w with
  | zero => exact ⟨.refl s, hi⟩
  | succ limit ih =>
    rw [drain]
    have hi' := hnext i w hi
    generalize next i w = called at hi'
    obtain ⟨r, i', w'⟩ := called
    rcases r with e | _ | slot
    · exact ⟨.refl s, hi'⟩
    · exact ⟨.refl s, hi'⟩
    · dsimp only
      split
      · exact ⟨.refl s, hi'⟩
      · split
        · exact ⟨.refl s, hi'⟩
        · next row _ =>
          have hcount : Continues s s.countFetched := ⟨⟨rfl, rfl⟩, rfl, rfl, rfl⟩
          have habsorb := hcount.trans (continues_absorb n t s.countFetched row)
          split
          · next hrow =>
            rw [hrow] at habsorb
            exact ⟨habsorb, hi'⟩
          · next hrow =>
            rw [hrow] at habsorb
            obtain ⟨hrest, hleft⟩ := ih _ _ _ hi'
            exact ⟨habsorb.trans hrest, hleft⟩

theorem continues_of_drain {limit : Nat} {i i₁ : σ} {w w₁ : Session} {r : Except Error HashTable}
    {s₁ : State} (h : n.drain next limit t s i w = (r, s₁, i₁, w₁)) : Continues s s₁ := by
  have hcontinues : Continues s (n.drain next limit t s i w).2.1 :=
    (continues_drain n t s limit w (Q := fun _ => True) (fun i w _ => trivial) trivial).1
  rwa [h] at hcontinues

/-- What every call of the input keeps of it, building keeps. -/
theorem input_of_build {Q : σ → Prop} {ctx : Context} {width limit : Nat} {i i₁ : σ}
    {w w₁ : Session} {r : Except Error Unit} {s₁ : State} (hnext : ∀ i w, Q i → Q (next i w).2.1)
    (hi : Q i) (h : n.build ctx width next limit s i w = (r, s₁, i₁, w₁)) : Q i₁ := by
  have hread := (continues_drain n (n.emptyTable ctx width) s limit w hnext hi).2
  obtain ⟨-, -, rfl, -⟩ | ⟨-, -, -, ⟨e, _, hdrain, -, -⟩ | ⟨t, _, hdrain, -, -⟩⟩ := build_cases h
  · exact hi
  · rwa [hdrain] at hread
  · rwa [hdrain] at hread

theorem unlimited_of_absorb {row : Row} (hrow : ∀ hash, SpilledTuple.Storable ⟨hash, row⟩)
    (ht : t.Unlimited) {t₁ : HashTable} {s₁ : State} (h : n.absorb t s row = (.ok t₁, s₁)) :
    t₁.Unlimited := by
  unfold absorb at h
  split at h
  · simp at h
  · obtain rfl := Except.ok.inj (Prod.mk.inj h).1
    exact ht
  · next hash _ =>
    obtain ⟨t₂, hinsert, ht₂⟩ := ht.insert (hrow hash)
    rw [hinsert] at h
    obtain rfl := Except.ok.inj (Prod.mk.inj h).1
    exact ht₂

/-- What taking each row that the input returns keeps of a table, reading the input keeps. -/
theorem table_of_drain {Q : σ → Prop} {P : HashTable → Prop}
    (hnext : ∀ i w, Q i → Q (next i w).2.1)
    (habsorb : ∀ i w slot row, Q i → (next i w).1 = .ok (some slot) → slot.row? = some row →
      ∀ t s t₁ s₁, P t → n.absorb t s row = (.ok t₁, s₁) → P t₁)
    {limit : Nat} {i i₁ : σ} {w w₁ : Session} {t₁ : HashTable} {s₁ : State} (hi : Q i) (ht : P t)
    (h : n.drain next limit t s i w = (.ok t₁, s₁, i₁, w₁)) : P t₁ := by
  induction limit generalizing t s i w with
  | zero =>
    obtain rfl := Except.ok.inj (Prod.mk.inj h).1
    exact ht
  | succ limit ih =>
    have hi' := hnext i w hi
    have hrow := habsorb i w
    obtain ⟨-, rfl, -⟩ | ⟨slot, row, i', w', t₂, s₂, hcalled, -, hslot, htaken, hrest⟩ :=
      drain_ok_cases h
    · exact ht
    · rw [hcalled] at hi' hrow
      exact ih hi' (hrow slot row hi rfl hslot _ _ _ _ ht htaken) hrest

/-- A table without a limit on its files takes all rows that can be stored. -/
theorem unlimited_of_drain {Q : σ → Prop} (hnext : ∀ i w, Q i → Q (next i w).2.1)
    (hrows : ∀ i w slot row hash, Q i → (next i w).1 = .ok (some slot) → slot.row? = some row →
      SpilledTuple.Storable ⟨hash, row⟩)
    {limit : Nat} {i i₁ : σ} {w w₁ : Session} {t₁ : HashTable} {s₁ : State} (hi : Q i)
    (ht : t.Unlimited) (h : n.drain next limit t s i w = (.ok t₁, s₁, i₁, w₁)) :
    t₁.Unlimited := by
  refine table_of_drain hnext ?_ hi ht h
  intro i w slot row hi hslot hrow t s t₁ s₁ ht habsorb
  exact unlimited_of_absorb (hrows i w slot row · hi hslot hrow) ht habsorb

theorem current_of_absorb {row : Row} {t₁ : HashTable} {s₁ : State}
    (h : n.absorb t s row = (.ok t₁, s₁)) : t₁.current = t.current := by
  unfold absorb at h
  split at h
  · simp at h
  · obtain rfl := Except.ok.inj (Prod.mk.inj h).1
    rfl
  · next hash _ =>
    have hcurrent := HashTable.current_insert t ⟨hash, row⟩
    split at h
    · simp at h
    · next hinsert =>
      rw [hinsert] at hcurrent
      obtain rfl := Except.ok.inj (Prod.mk.inj h).1
      exact hcurrent

/-- Building leaves the same batch in memory. -/
theorem current_of_drain {limit : Nat} {i i₁ : σ} {w w₁ : Session} {t₁ : HashTable} {s₁ : State}
    (h : n.drain next limit t s i w = (.ok t₁, s₁, i₁, w₁)) : t₁.current = t.current := by
  refine table_of_drain (Q := fun _ => True) (P := fun t' => t'.current = t.current)
    (fun _ _ _ => trivial) ?_ trivial rfl h
  intro _ _ _ _ _ _ _ t' s' t₂ s₂ hsame habsorb
  exact (current_of_absorb habsorb).trans hsame

section Build

variable {width limit : Nat} {i : σ} {w : Session}

theorem build_of_aborted (hrun : s.base.state.isRunning = true) (ha : s.aborted = true) :
    n.build ctx width next limit s i w =
      (.error (.invalidState NodeKind.hash.name "build" "aborted"), s, i, w) := by
  rw [build, NodeState.ensureRunning_eq_ok_iff.mpr hrun]
  dsimp only
  rw [if_pos ha]

/-- A table that is there is kept. -/
theorem build_of_table (hrun : s.base.state.isRunning = true) (ha : s.aborted = false)
    (ht : s.table? = some t) : n.build ctx width next limit s i w = (.ok (), s, i, w) := by
  rw [build, NodeState.ensureRunning_eq_ok_iff.mpr hrun]
  dsimp only
  rw [ha, ht, if_neg Bool.false_ne_true]
  rfl

/-- A table that is not there is built from the input. -/
theorem build_of_none (hrun : s.base.state.isRunning = true) (ha : s.aborted = false)
    (ht : s.table? = none) : n.build ctx width next limit s i w =
      match n.drain next limit (n.emptyTable ctx width) s i w with
      | (.error e, s, i, w) => (.error e, { s with aborted := true }, i, w)
      | (.ok t, s, i, w) => (.ok (), s.install t, i, w) := by
  rw [build, NodeState.ensureRunning_eq_ok_iff.mpr hrun]
  dsimp only
  rw [ha, ht, if_neg Bool.false_ne_true]
  rfl

/-- A table built from any input holds some rows, and its first batch is in memory. -/
theorem holds_of_drain {t : HashTable} {s₁ : State} {i₁ : σ} {w₁ : Session}
    (h : n.drain next limit (n.emptyTable ctx width) s i w = (.ok t, s₁, i₁, w₁)) :
    ∃ rows, t.Holds rows := by
  obtain ⟨-, rows, hcontains⟩ := (contains_emptyTable n ctx width s.base.params).drain h
  exact ⟨rows, hcontains.holds⟩

end Build

end HashBuild

end PullQuery
