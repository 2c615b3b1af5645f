import Mathlib.Data.List.Perm.Basic
import PullQuery.Proofs.Hash.Rows

/-!
# The batches of a hash table

The invariant of a table: every row that was inserted is in its batch, the batches list their
rows in order of insertion, and the current batch is in memory alone. While a table is split,
some rows are still where they were before; so the invariant is stated for any assignment of
rows to homes. Moving the rows of one batch changes their homes and keeps the order in every
batch, because no file that receives rows has rows from elsewhere.

## Main definitions

* `HashTable.batchRows`: the rows of a batch
* `HashTable.Housed`: each batch has the rows that are at home there
* `HashTable.Holds`: each row is at home in its batch

## Main results

* `HashTable.Housed.move`: the rows of one batch go to new homes
* `HashTable.Holds.split`, `HashTable.Holds.place`, `HashTable.Holds.switchTo`
-/

namespace PullQuery

/-- Two selections of which one is empty, one after the other, are one selection. -/
theorem filter_append_filter_of_separate {α : Type} {p q : α → Bool} {xs : List α}
    (h : ∀ x ∈ xs, q x → ∀ y ∈ xs, ¬ p y) :
    xs.filter p ++ xs.filter q = xs.filter fun x => p x || q x := by
  by_cases hq : ∃ x ∈ xs, q x
  · -- An element of the second selection leaves none for the first.
    obtain ⟨x, hx, hqx⟩ := hq
    have hp := h x hx hqx
    rw [List.filter_eq_nil_iff.mpr hp, List.nil_append]
    exact List.filter_congr fun y hy => by simp [hp y hy]
  · have hq' : ∀ x ∈ xs, ¬ q x := by
      intro x hx hqx
      exact hq ⟨x, hx, hqx⟩
    rw [List.filter_eq_nil_iff.mpr hq', List.append_nil]
    exact List.filter_congr fun y hy => by simp [hq' y hy]

/-- A selection as a list of none or one for each element. -/
theorem flatMap_ite_singleton {α : Type} (p : α → Prop) [DecidablePred p] (xs : List α) :
    (xs.flatMap fun x => if p x then [x] else []) = xs.filter fun x => p x := by
  induction xs with
  | nil => rfl
  | cons x xs ih =>
    rw [List.flatMap_cons, ih]
    by_cases hx : p x <;> simp [hx]

namespace HashTable

variable {t t' : HashTable} {rows xs : List SpilledTuple} {x : SpilledTuple}
  {home dest : SpilledTuple → Nat} {batch : Nat}

/-! ## Batches -/

theorem batchCount_pos (t : HashTable) : 0 < t.batchCount := by
  rw [batchCount, Nat.one_shiftLeft]
  exact Nat.two_pow_pos _

theorem batchOf_lt (t : HashTable) (hash : UInt32) : t.batchOf hash < t.batchCount :=
  Nat.mod_lt _ t.batchCount_pos

/-- Doubling the batches leaves a row in its batch or moves it to the new partner. -/
theorem batchOf_mod_of_split (h : t'.logBuckets = t.logBuckets)
    (hsplit : t'.logBatches = t.logBatches + 1) (hash : UInt32) :
    t'.batchOf hash % t.batchCount = t.batchOf hash := by
  rw [batchOf, batchOf, h, batchCount, hsplit, Nat.shiftLeft_succ, batchCount]
  exact Nat.mod_mul_left_mod _ _ _

/-- The rows of a batch, in memory or in its file. -/
def batchRows (t : HashTable) (batch : Nat) : List SpilledTuple :=
  if batch = t.current then t.resident else t.store.tuples batch

theorem batchRows_current (t : HashTable) : t.batchRows t.current = t.resident := if_pos rfl

theorem batchRows_other (hb : batch ≠ t.current) :
    t.batchRows batch = t.store.tuples batch := if_neg hb

/-! ## Homes of rows -/

/-- Whether each batch of a table has just the rows that are at home there, in order. -/
structure Housed (home : SpilledTuple → Nat) (t : HashTable) (rows : List SpilledTuple) :
    Prop where
  sound : t.Sound
  /-- The rows of the current batch are in memory only. -/
  current_file : t.store.tuples t.current = []
  batchRows_eq : ∀ b, t.batchRows b = rows.filter fun x => home x = b

/-- Whether a table has just the given rows, each in its batch, in order. -/
structure Holds (t : HashTable) (rows : List SpilledTuple) : Prop
    extends Housed (fun x => t.batchOf x.hash) t rows where
  current_lt : t.current < t.batchCount

namespace Housed

theorem congr (h : Housed home t rows) (hhome : ∀ x ∈ rows, home x = dest x) :
    Housed dest t rows where
  sound := h.sound
  current_file := h.current_file
  batchRows_eq b := by
    rw [h.batchRows_eq]
    exact List.filter_congr fun x hx => by rw [hhome x hx]

/-- The rows of one batch go to new homes, each behind the rows that are there. This keeps the
order if a batch that receives rows has no rows of its own. -/
theorem move (h : Housed home t rows) (dest : SpilledTuple → Nat) (batch : Nat)
    (hs : t'.Sound) (hfile : t'.store.tuples t'.current = [])
    (hrows : ∀ b, t'.batchRows b =
      (if b = batch then [] else t.batchRows b) ++
        (t.batchRows batch).filter fun x => dest x = b)
    (hsep : ∀ x ∈ rows, home x = batch → ∀ y ∈ rows, home y = dest x → home y = batch) :
    Housed (fun x => if home x = batch then dest x else home x) t' rows where
  sound := hs
  current_file := hfile
  batchRows_eq b := by
    rw [hrows, h.batchRows_eq b, h.batchRows_eq batch, List.filter_filter]
    by_cases hb : b = batch
    · -- The batch is left with those of its rows that stay.
      rw [if_pos hb, List.nil_append]
      apply List.filter_congr
      intro x _
      by_cases hx : home x = batch <;> simp [hx, hb]
    · -- Another batch has rows of its own or rows that arrive, but not both.
      rw [if_neg hb, filter_append_filter_of_separate]
      · apply List.filter_congr
        intro x _
        by_cases hx : home x = batch <;> simp [hx, Ne.symm hb]
      · intro x hx hdest y hy hhome
        simp only [Bool.and_eq_true, decide_eq_true_eq] at hdest hhome
        have hbatch := hsep x hx hdest.2 y hy (hhome.trans hdest.1.symm)
        exact hb (hhome.symm.trans hbatch)

/-- New rows go behind those that are there. -/
theorem gain {kept : List SpilledTuple} {written : Nat → List SpilledTuple}
    (h : Housed home t rows) (hg : Gains t t' kept written) (hfile : written t.current = [])
    (hrows : ∀ b, (if b = t.current then kept else written b) =
      xs.filter fun x => home x = b) :
    Housed home t' (rows ++ xs) where
  sound := hg.sound
  current_file := by rw [hg.setup.current, hg.files, h.current_file, hfile, List.nil_append]
  batchRows_eq b := by
    rw [List.filter_append, ← h.batchRows_eq, ← hrows, batchRows, batchRows, hg.setup.current,
      hg.resident, hg.files]
    split <;> rfl

end Housed

/-- What single writes and keeps add to a table that holds its rows. -/
theorem Holds.gain {kept : List SpilledTuple} {written : Nat → List SpilledTuple}
    (h : t.Holds rows) (hg : Gains t t' kept written) (hfile : written t.current = [])
    (hrows : ∀ b, (if b = t.current then kept else written b) =
      xs.filter fun x => t.batchOf x.hash = b) :
    t'.Holds (rows ++ xs) where
  toHoused := (h.toHoused.gain hg hfile hrows).congr fun x _ => (hg.setup.batchOf x.hash).symm
  current_lt := by
    rw [hg.setup.current, hg.setup.batchCount]
    exact h.current_lt

theorem Holds.keep (h : t.Holds rows) (hx : t.batchOf x.hash = t.current) :
    (t.keep x).Holds (rows ++ [x]) := by
  refine h.gain (.keep h.sound x) rfl ?_
  intro b
  rw [List.filter_singleton, hx]
  by_cases hb : t.current = b
  · simp [hb]
  · simp [hb, Ne.symm hb]

theorem Holds.spill (h : t.Holds rows) (hx : t.batchOf x.hash ≠ t.current)
    (hs : t.spill (t.batchOf x.hash) x = (.ok (), t')) : t'.Holds (rows ++ [x]) := by
  refine h.gain (.spill h.sound hs) (if_neg (Ne.symm hx)) ?_
  intro b
  rw [List.filter_singleton]
  by_cases hb : t.batchOf x.hash = b
  · subst hb
    simp [hx]
  · simp [hb, Ne.symm hb]

/-! ## Splits -/

theorem Gains.spillHome {t₁ t₂ : HashTable} (hsetup : SameSetup t t₁) (hs : t₁.Sound)
    (h : t₁.spill (t₁.batchOf x.hash) x = (.ok (), t₂)) :
    Gains t₁ t₂ [] fun b => if t.batchOf x.hash = b then [x] else [] := by
  have hspill := Gains.spill hs h
  rw [hsetup.batchOf] at hspill
  simpa only [eq_comm] using hspill

/-- Rows that are written to the files of their batches. -/
theorem Gains.spillHomeAll (hs : t.Sound)
    (h : HashTable.forEach (fun t x => t.spill (t.batchOf x.hash) x) xs t = (.ok (), t')) :
    Gains t t' [] fun b => xs.filter fun x => t.batchOf x.hash = b := by
  have hg := Gains.forEach (fun _ => []) (fun x b => if t.batchOf x.hash = b then [x] else [])
    (fun _ _ _ _ => Gains.spillHome) hs h
  refine ⟨hg.setup, hg.sound, ?_, ?_⟩
  · rw [hg.resident, List.flatMap_eq_nil_iff.mpr fun _ _ => rfl]
  · intro b
    rw [hg.files, flatMap_ite_singleton]

/-- A row of the current batch is kept in memory, any other goes to its file. -/
theorem Gains.settle {t₁ t₂ : HashTable} (hsetup : SameSetup t t₁) (hs : t₁.Sound)
    (h : t₁.settle x = (.ok (), t₂)) :
    Gains t₁ t₂ (if t.batchOf x.hash = t.current then [x] else [])
      fun b => if t.batchOf x.hash ≠ t.current ∧ t.batchOf x.hash = b then [x] else [] := by
  rw [HashTable.settle, hsetup.batchOf, hsetup.current, ← hsetup.batchOf] at h
  split at h
  · next hx =>
    obtain rfl := (Prod.mk.inj h).2
    rw [hsetup.batchOf] at hx
    simpa [hx] using Gains.keep hs x
  · next hx =>
    rw [hsetup.batchOf] at hx
    simpa [hx] using Gains.spillHome hsetup hs h

theorem Gains.settleAll (hs : t.Sound)
    (h : HashTable.forEach HashTable.settle xs t = (.ok (), t')) :
    Gains t t' (xs.filter fun x => t.batchOf x.hash = t.current)
      fun b => xs.filter fun x => t.batchOf x.hash ≠ t.current ∧ t.batchOf x.hash = b := by
  have hg := Gains.forEach (fun x => if t.batchOf x.hash = t.current then [x] else [])
    (fun x b => if t.batchOf x.hash ≠ t.current ∧ t.batchOf x.hash = b then [x] else [])
    (fun _ _ _ _ => Gains.settle) hs h
  simpa only [flatMap_ite_singleton] using hg

/-- The rows of a file go behind those of the files of their batches. -/
theorem refile_eq_ok (hs : t.Sound) (h : t.refile batch = (.ok (), t')) :
    SameSetup t t' ∧ t'.Sound ∧ t'.resident = t.resident ∧ ∀ b, t'.store.tuples b =
      (if b = batch then [] else t.store.tuples b) ++
        (t.store.tuples batch).filter fun x => t.batchOf x.hash = b := by
  rw [refile, hs.store.takeBatch_eq] at h
  have hcleared : Sound { t with store := t.store.clear batch } := ⟨hs.store.clear batch, hs.index⟩
  have hsetup : SameSetup t { t with store := t.store.clear batch } :=
    ⟨rfl, rfl, rfl, rfl, rfl, rfl, rfl, rfl⟩
  have hmoved := Gains.spillHomeAll hcleared h
  refine ⟨hsetup.trans hmoved.setup, hmoved.sound, ?_, ?_⟩
  · rw [hmoved.resident, List.append_nil]
  · intro b
    rw [hmoved.files, SpillStore.tuples_clear]
    rfl

/-- Where a row is at home while the files of the batches `bs` are still to be divided: in its
old batch if that is one of them, and else in its new one. -/
def pendingHome (new : SpilledTuple → Nat) (old current : Nat) (bs : List Nat)
    (x : SpilledTuple) : Nat :=
  if new x % old ∈ bs ∧ new x % old ≠ current then new x % old else new x

section PendingHome

variable {new : SpilledTuple → Nat} {old current : Nat} {bs : List Nat}

/-- Old and new homes are partners. -/
theorem pendingHome_mod (new : SpilledTuple → Nat) (old current : Nat) (bs : List Nat)
    (x : SpilledTuple) :
    pendingHome new old current bs x % old = new x % old := by
  unfold pendingHome
  split
  · exact Nat.mod_mod _ _
  · rfl

theorem pendingHome_cons_eq_iff (hb : batch < old) (hcur : batch ≠ current) :
    pendingHome new old current (batch :: bs) x = batch ↔ new x % old = batch := by
  constructor
  · intro h
    have hmod := pendingHome_mod new old current (batch :: bs) x
    rw [← hmod, h, Nat.mod_eq_of_lt hb]
  · rintro rfl
    exact if_pos ⟨List.mem_cons_self .., hcur⟩

/-- The rows of other batches stay where they are. -/
theorem pendingHome_cons_of (h : new x % old = batch → batch = current) :
    pendingHome new old current (batch :: bs) x = pendingHome new old current bs x := by
  unfold pendingHome
  by_cases hx : new x % old = batch
  · have hcur := hx.trans (h hx)
    rw [if_neg fun hc => hc.2 hcur, if_neg fun hc => hc.2 hcur]
  · simp only [List.mem_cons, hx, false_or]

/-- The rows of the next batch go to their new homes. -/
theorem pendingHome_cons (hb : batch < old) (hcur : batch ≠ current) (hnot : batch ∉ bs) :
    (if pendingHome new old current (batch :: bs) x = batch then new x
      else pendingHome new old current (batch :: bs) x) = pendingHome new old current bs x := by
  simp only [pendingHome_cons_eq_iff hb hcur]
  split
  · next hx => exact (if_neg fun hc => hnot (hx ▸ hc.1)).symm
  · next hx => exact pendingHome_cons_of fun hx' => absurd hx' hx

end PendingHome

namespace Housed

/-- The rows of a file go to their batches. -/
theorem refile (h : Housed home t rows) (hb : batch ≠ t.current)
    (hcur : ∀ x ∈ rows, home x = batch → t.batchOf x.hash ≠ t.current)
    (hsep : ∀ x ∈ rows, home x = batch → ∀ y ∈ rows, home y = t.batchOf x.hash → home y = batch)
    (hr : t.refile batch = (.ok (), t')) :
    Housed (fun x => if home x = batch then t.batchOf x.hash else home x) t' rows := by
  obtain ⟨hsetup, hs, hresident, hfiles⟩ := refile_eq_ok h.sound hr
  have hrows := h.batchRows_eq batch
  rw [batchRows_other hb] at hrows
  -- Nothing is written to the file of the current batch.
  have hnone : ((t.store.tuples batch).filter fun x => t.batchOf x.hash = t.current) = [] := by
    rw [hrows, List.filter_filter, List.filter_eq_nil_iff]
    intro x hx hhome
    simp only [Bool.and_eq_true, decide_eq_true_eq] at hhome
    exact hcur x hx hhome.2 hhome.1
  refine h.move (fun x => t.batchOf x.hash) batch hs ?_ ?_ hsep
  · rw [hsetup.current, hfiles, if_neg (Ne.symm hb), h.current_file, hnone, List.append_nil]
  · intro b
    by_cases hbc : b = t.current
    · -- The rows in memory stay as they are.
      subst hbc
      rw [if_neg (Ne.symm hb), batchRows_other hb, hnone, ← hsetup.current, batchRows_current,
        hsetup.current, batchRows_current, hresident, List.append_nil]
    · have hbc' : b ≠ t'.current := by rwa [hsetup.current]
      rw [batchRows_other hbc', batchRows_other hbc, batchRows_other hb, hfiles]

/-- Dividing the files of old batches one after the other. -/
theorem refileAll {old : Nat} {bs : List Nat}
    (h : Housed (pendingHome (fun x => t.batchOf x.hash) old t.current bs) t rows)
    (hcurrent : t.current < old) (hbs : bs.Nodup) (hlt : ∀ b ∈ bs, b < old)
    (hr : HashTable.refileAll bs t = (.ok (), t')) :
    SameSetup t t' ∧ Housed (fun x => t.batchOf x.hash) t' rows := by
  induction bs generalizing t with
  | nil =>
    obtain rfl := (Prod.mk.inj hr).2
    exact ⟨.refl t, h.congr fun x _ => if_neg (by simp)⟩
  | cons b bs ih =>
    have hnot : b ∉ bs := (List.nodup_cons.mp hbs).1
    have hb : b < old := hlt b (List.mem_cons_self ..)
    have hrest : ∀ c ∈ bs, c < old := by
      intro c hc
      exact hlt c (List.mem_cons_of_mem b hc)
    rw [HashTable.refileAll] at hr
    split at hr
    · next hskip =>
      -- The rows of this batch are in memory, or it has none.
      refine ih (h.congr ?_) hcurrent hbs.of_cons hrest hr
      intro x hx
      apply pendingHome_cons_of
      intro hhome
      by_contra hcur
      have hempty := h.sound.store.batchSize_eq_zero_iff.mp (hskip.resolve_left hcur)
      rw [← batchRows_other hcur, h.batchRows_eq, List.filter_eq_nil_iff] at hempty
      exact hempty x hx (decide_eq_true ((pendingHome_cons_eq_iff hb hcur).mpr hhome))
    · next hskip =>
      have hcur : b ≠ t.current := by
        intro hc
        exact hskip (.inl hc)
      split at hr
      · simp at hr
      · next t₁ hfile =>
        have hsetup := (refile_eq_ok h.sound hfile).1
        have hmoved := h.refile hcur (fun x hx hhome hdest => ?_)
          (fun x hx hhome y hy hyhome => ?_) hfile
        · have hpending : Housed (pendingHome (fun x => t₁.batchOf x.hash) old t₁.current bs)
              t₁ rows := by
            rw [hsetup.current]
            simpa only [hsetup.batchOf] using
              hmoved.congr fun x _ => pendingHome_cons hb hcur hnot
          have hcurrent₁ : t₁.current < old := by rwa [hsetup.current]
          obtain ⟨hsetup', hdone⟩ := ih hpending hcurrent₁ hbs.of_cons hrest hr
          exact ⟨hsetup.trans hsetup', by simpa only [hsetup.batchOf] using hdone⟩
        · -- The new home of a row is its old batch or the partner, which is not in memory either.
          rw [pendingHome_cons_eq_iff hb hcur, hdest, Nat.mod_eq_of_lt hcurrent] at hhome
          exact hcur hhome.symm
        · -- Rows that are at home where these go have the same old batch.
          rw [pendingHome_cons_eq_iff hb hcur] at hhome ⊢
          rw [← hhome, ← hyhome, pendingHome_mod]

end Housed

/-- The rows in memory, once the batches are doubled, stay there or go behind those of the files
of their batches. -/
theorem settleAll_eq_ok (hs : t.Sound) (h : forEach settle t.resident
      { t.clearResident with logBatches := t.logBatches + 1 } = (.ok (), t')) :
    SameSetup { t with logBatches := t.logBatches + 1 } t' ∧ t'.Sound ∧
      (t'.resident = t.resident.filter fun x => t'.batchOf x.hash = t.current) ∧
      ∀ b, t'.store.tuples b = t.store.tuples b ++
        t.resident.filter fun x => t'.batchOf x.hash ≠ t.current ∧ t'.batchOf x.hash = b := by
  have hempty : Sound { t.clearResident with logBatches := t.logBatches + 1 } :=
    ⟨hs.store, indexed_clearResident t⟩
  have hcleared : SameSetup { t with logBatches := t.logBatches + 1 }
      { t.clearResident with logBatches := t.logBatches + 1 } :=
    ⟨rfl, rfl, rfl, rfl, rfl, rfl, rfl, rfl⟩
  have hg := Gains.settleAll hempty h
  refine ⟨hcleared.trans hg.setup, hg.sound, ?_, ?_⟩
  · simp only [hg.setup.batchOf]
    exact hg.resident
  · simp only [hg.setup.batchOf]
    exact hg.files

namespace Holds

/-- The first part of a split: the rows in memory go to their batches. -/
theorem settle (h : t.Holds rows) (hr : HashTable.forEach HashTable.settle t.resident
      { t.clearResident with logBatches := t.logBatches + 1 } = (.ok (), t')) :
    SameSetup { t with logBatches := t.logBatches + 1 } t' ∧
      Housed (pendingHome (fun x => t'.batchOf x.hash) t.batchCount t'.current
        (List.range t.batchCount)) t' rows := by
  obtain ⟨hsetup, hs, hresident, hfiles⟩ := settleAll_eq_ok h.sound hr
  have hcurrent : t'.current = t.current := hsetup.current
  have hmod : ∀ x, t'.batchOf x % t.batchCount = t.batchOf x :=
    batchOf_mod_of_split hsetup.logBuckets hsetup.logBatches
  refine ⟨hsetup, ?_⟩
  have hmoved := h.move (fun x => t'.batchOf x.hash) t.current hs ?_ (fun b => ?_)
    (fun x _ hx y _ hy => ?_)
  · -- The rows of memory have moved; those of every other old batch still have to.
    apply hmoved.congr
    intro x _
    have hmem : t.batchOf x.hash ∈ List.range t.batchCount :=
      List.mem_range.mpr (t.batchOf_lt x.hash)
    by_cases hx : t.batchOf x.hash = t.current
    · simp [pendingHome, hmod, hcurrent, hx]
    · simp [pendingHome, hmod, hcurrent, hx, hmem]
  · rw [hcurrent, hfiles, h.current_file, List.nil_append, List.filter_eq_nil_iff]
    simp
  · by_cases hb : b = t.current
    · rw [if_pos hb, hb, ← hcurrent, batchRows_current, hcurrent, batchRows_current, hresident,
        List.nil_append]
    · have hb' : b ≠ t'.current := by rwa [hcurrent]
      rw [if_neg hb, batchRows_other hb', batchRows_other hb, batchRows_current, hfiles]
      congr 1
      apply List.filter_congr
      intro x _
      by_cases hx : t'.batchOf x.hash = b
      · simp [hx, hb]
      · simp [hx]
  · -- A row that stays in an old batch is in memory only if it was there before.
    have hlt : t'.batchOf x.hash < t.batchCount := hy ▸ t.batchOf_lt y.hash
    rw [hy, ← Nat.mod_eq_of_lt hlt, hmod, hx]

theorem of_growth (h : t.Holds rows) (growth : Bool) : { t with growth := growth }.Holds rows :=
  ⟨⟨⟨h.sound.store, h.sound.index⟩, h.current_file, h.batchRows_eq⟩, h.current_lt⟩

theorem of_total (h : t.Holds rows) (total : Nat) : { t with total := total }.Holds rows :=
  ⟨⟨⟨h.sound.store, h.sound.index⟩, h.current_file, h.batchRows_eq⟩, h.current_lt⟩

/-- A table that is split holds the same rows. -/
theorem split (h : t.Holds rows) (hs : t.split = (.ok (), t')) : t'.Holds rows := by
  rw [HashTable.split] at hs
  split at hs
  · simp at hs
  · next t₁ hresident =>
    obtain ⟨hsetup, hpending⟩ := h.settle hresident
    have hcurrent : t₁.current < t.batchCount := hsetup.current ▸ h.current_lt
    dsimp only at hs
    split at hs
    · simp at hs
    · next t₂ hfiles =>
      obtain ⟨hsetup', hhoused⟩ := hpending.refileAll hcurrent List.nodup_range
        (fun b hb => List.mem_range.mp hb) hfiles
      -- Every row has been moved, and the current batch is still one of the batches.
      have hcount : t₁.batchCount = 2 * t.batchCount := by
        rw [batchCount, hsetup.logBatches, Nat.shiftLeft_succ, batchCount]
      have hholds : t₂.Holds rows :=
        ⟨hhoused.congr fun x _ => (hsetup'.batchOf x.hash).symm, by
          rw [hsetup'.current, hsetup'.batchCount, hcount]
          omega⟩
      obtain rfl := (Prod.mk.inj hs).2
      split
      · -- Growth is given up if the split was of no use.
        exact hholds.of_growth false
      · exact hholds

/-! ## Rows that come in -/

/-- A row that is put in its place comes behind all others. -/
theorem place {splits : Nat} (h : t.Holds rows) (hp : HashTable.place splits t x = (.ok (), t')) :
    t'.Holds (rows ++ [x]) := by
  induction splits using Nat.strongRecOn generalizing t with
  | ind splits ih =>
    obtain ⟨hx, hspill⟩ | ⟨hx, -, -, rfl⟩ | ⟨-, n, rfl, ⟨e, -, he⟩ | ⟨t₁, hsplit, hrest⟩⟩ :=
      place_cases hp
    · exact h.spill hx hspill
    · exact h.keep hx
    · simp at he
    · exact ih n (Nat.lt_succ_self n) (h.split hsplit) hrest

theorem insert (h : t.Holds rows) (hi : t.insert x = (.ok (), t')) : t'.Holds (rows ++ [x]) :=
  (h.of_total (t.total + 1)).place hi

end Holds

/-! ## Batches that come in -/

/-- Rows that are written to one file. -/
theorem Gains.spillAll (hs : t.Sound)
    (h : HashTable.forEach (fun t x => t.spill batch x) xs t = (.ok (), t')) :
    Gains t t' [] fun b => if b = batch then xs else [] := by
  have hg := Gains.forEach (fun _ => []) (fun x b => if b = batch then [x] else [])
    (fun _ _ _ _ _ hs₁ hx => Gains.spill hs₁ hx) hs h
  refine ⟨hg.setup, hg.sound, ?_, ?_⟩
  · rw [hg.resident, List.flatMap_eq_nil_iff.mpr fun _ _ => rfl]
  · intro b
    rw [hg.files, flatMap_ite_singleton (fun _ => b = batch)]
    by_cases hb : b = batch <;> simp [hb]

/-- A table with a final number of batches keeps all rows of the current batch in memory. -/
theorem Gains.routeAll (hs : t.Sound) (hfixed : t.isFixed = true)
    (hxs : ∀ x ∈ xs, t.batchOf x.hash = t.current)
    (h : HashTable.forEach route xs t = (.ok (), t')) : Gains t t' xs fun _ => [] := by
  have hg := Gains.forEach (fun x => [x]) (fun _ _ => [])
    (fun t₁ t₂ x hx hsetup hs₁ hroute => ?_) hs h
  · refine ⟨hg.setup, hg.sound, ?_, ?_⟩
    · rw [hg.resident, List.flatMap_singleton']
    · intro b
      rw [hg.files, List.flatMap_eq_nil_iff.mpr fun _ _ => rfl]
  · have hhere : t₁.batchOf x.hash = t₁.current := by
      rw [hsetup.batchOf, hsetup.current, hxs x hx]
    obtain ⟨hother, -⟩ | ⟨-, -, -, rfl⟩ | ⟨hmust, -⟩ := place_cases hroute
    · exact absurd hhere hother
    · exact .keep hs₁ x
    · -- The number of batches is final, so that the table is not split.
      have hgrows := hmust.isFixed
      rw [hsetup.isFixed, hfixed] at hgrows
      contradiction

/-- The two halves of a switch: the rows in memory are written to their file, and then those of
another file are put in their places. -/
theorem switchTo_steps (hs : t.Sound) (hother : batch ≠ t.current)
    (h : t.switchTo batch = (.ok (), t')) :
    ∃ t₁, forEach (fun t' x => t'.spill t.current x) t.resident
        { t.clearResident with isFixed := true } = (.ok (), t₁) ∧
      forEach route (t.store.tuples batch)
        { t₁ with current := batch, store := t₁.store.clear batch } = (.ok (), t') := by
  rw [switchTo] at h
  have hempty : Sound { t.clearResident with isFixed := true } :=
    ⟨hs.store, indexed_clearResident t⟩
  split at h
  · simp at h
  · next t₁ hspill =>
    have hg := Gains.spillAll hempty hspill
    -- The file that comes in is not the one that was written to.
    have htaken : t₁.store.tuples batch = t.store.tuples batch := by
      rw [hg.files, if_neg hother, List.append_nil]
      rfl
    rw [hg.sound.store.takeBatch_eq, htaken] at h
    exact ⟨t₁, hspill, h⟩

/-- The rows in memory go behind those of their file, and the rows of another file, which belong
to one batch, come into memory. -/
theorem switchTo_eq_ok (hs : t.Sound) (hother : batch ≠ t.current)
    (hxs : ∀ x ∈ t.store.tuples batch, t.batchOf x.hash = batch)
    (h : t.switchTo batch = (.ok (), t')) :
    SameSetup { t with current := batch, isFixed := true } t' ∧ t'.Sound ∧
      t'.resident = t.store.tuples batch ∧
      ∀ b, t'.store.tuples b =
        if b = batch then [] else t.store.tuples b ++ if b = t.current then t.resident else [] := by
  obtain ⟨t₁, hspill, hroute⟩ := switchTo_steps hs hother h
  have hempty : Sound { t.clearResident with isFixed := true } :=
    ⟨hs.store, indexed_clearResident t⟩
  have hg₁ := Gains.spillAll hempty hspill
  have hcleared : Sound { t₁ with current := batch, store := t₁.store.clear batch } :=
    ⟨hg₁.sound.store.clear batch, hg₁.sound.index⟩
  have hhere : ∀ x ∈ t.store.tuples batch, t₁.batchOf x.hash = batch := by
    intro x hx
    rw [hg₁.setup.batchOf]
    exact hxs x hx
  have hg₂ := Gains.routeAll hcleared hg₁.setup.isFixed hhere hroute
  have hsetup₁ : SameSetup { t with current := batch, isFixed := true }
      { t₁ with current := batch, store := t₁.store.clear batch } :=
    ⟨hg₁.setup.workMem, hg₁.setup.logBuckets, hg₁.setup.logMaxBatches, hg₁.setup.logBatches,
      rfl, hg₁.setup.growth, hg₁.setup.isFixed, hg₁.setup.capacity⟩
  refine ⟨hsetup₁.trans hg₂.setup, hg₂.sound, ?_, ?_⟩
  · rw [hg₂.resident, hg₁.resident]
    rfl
  · intro b
    rw [hg₂.files, SpillStore.tuples_clear, hg₁.files, List.append_nil]
    rfl

/-- The rows in the file of a batch that is not in memory belong to it. -/
theorem Holds.batchOf_of_mem_tuples (h : t.Holds rows) (hother : batch ≠ t.current) :
    ∀ x ∈ t.store.tuples batch, t.batchOf x.hash = batch := by
  intro x hx
  rw [← batchRows_other hother, h.batchRows_eq] at hx
  exact of_decide_eq_true (List.mem_filter.mp hx).2

/-- A batch that is brought into memory is the current one afterwards. -/
theorem Holds.switchTo (h : t.Holds rows) (hbatch : batch < t.batchCount)
    (hother : batch ≠ t.current) (hs : t.switchTo batch = (.ok (), t')) :
    t'.Holds rows ∧ t'.current = batch ∧ ∀ hash, t'.batchOf hash = t.batchOf hash := by
  obtain ⟨hsetup, hsound, hresident, hfiles⟩ :=
    switchTo_eq_ok h.sound hother (h.batchOf_of_mem_tuples hother) hs
  have hcurrent : t'.current = batch := hsetup.current
  have hbatchOf : ∀ hash, t'.batchOf hash = t.batchOf hash := hsetup.batchOf
  refine ⟨⟨⟨hsound, ?_, ?_⟩, ?_⟩, hcurrent, hbatchOf⟩
  · rw [hcurrent, hfiles, if_pos rfl]
  · intro b
    simp only [hbatchOf]
    rw [← h.batchRows_eq b]
    by_cases hb : b = batch
    · rw [hb, ← hcurrent, batchRows_current, hcurrent, batchRows_other hother, hresident]
    · have hb' : b ≠ t'.current := by rwa [hcurrent]
      rw [batchRows_other hb', hfiles, if_neg hb, batchRows]
      split
      · -- The file of the old batch was empty, so that its rows are those from memory.
        next hold => rw [hold, h.current_file, List.nil_append]
      · rw [List.append_nil]
  · rw [hcurrent, hsetup.batchCount]
    exact hbatch

/-- A batch that is there is in memory already, or it is exchanged for the one that is. -/
theorem loadBatch_eq_ok (h : t.loadBatch batch = (.ok (), t')) :
    batch < t.batchCount ∧
      (batch = t.current ∧ t' = t ∨ batch ≠ t.current ∧ t.switchTo batch = (.ok (), t')) := by
  rw [loadBatch] at h
  split at h
  · simp at h
  · next hbatch =>
    refine ⟨Nat.not_le.mp hbatch, ?_⟩
    split at h
    · next hcurrent => exact .inl ⟨hcurrent, (Prod.mk.inj h).2.symm⟩
    · next hother =>
      split at h
      · simp at h
      · next t₁ hswitch =>
        obtain rfl := (Prod.mk.inj h).2
        exact .inr ⟨hother, hswitch⟩

namespace Holds

theorem loadBatch (h : t.Holds rows) (hl : t.loadBatch batch = (.ok (), t')) :
    t'.Holds rows ∧ t'.current = batch ∧ ∀ hash, t'.batchOf hash = t.batchOf hash := by
  obtain ⟨hbatch, ⟨hcurrent, rfl⟩ | ⟨hother, hswitch⟩⟩ := loadBatch_eq_ok hl
  · exact ⟨h, hcurrent.symm, fun _ => rfl⟩
  · exact h.switchTo hbatch hother hswitch

/-! ## Look-ups -/

/-- The rows with a hash are all in one batch. -/
theorem rowsWith_batchRows (h : t.Holds rows) (hash : UInt32) :
    rowsWith hash (t.batchRows (t.batchOf hash)) = rowsWith hash rows := by
  rw [rowsWith, h.batchRows_eq, List.filter_filter, rowsWith]
  congr 1
  apply List.filter_congr
  intro x _
  by_cases hx : x.hash = hash <;> simp [hx]

theorem lookup_current (h : t.Holds rows) {hash : UInt32} (hb : t.batchOf hash = t.current) :
    t.lookup hash =
      if rowsWith hash rows = [] then .noMatch else .found (rowsWith hash rows) := by
  rw [HashTable.lookup_current h.sound.index hb, ← batchRows_current, ← hb,
    h.rowsWith_batchRows]

/-- A look-up in a batch that is not in memory misses only rows that do not exist. -/
theorem lookup_other (h : t.Holds rows) {hash : UInt32} (hb : t.batchOf hash ≠ t.current) :
    t.lookup hash = .noMatch ∧ rowsWith hash rows = [] ∨
      t.lookup hash = .notLoaded (t.batchOf hash) := by
  rw [HashTable.lookup_other h.sound hb]
  split
  · next hempty =>
    rw [← h.rowsWith_batchRows, batchRows_other hb, hempty]
    exact .inl ⟨rfl, rfl⟩
  · exact .inr rfl

/-- Once the batch of a hash is loaded, a look-up finds all its rows. -/
theorem lookup_loadBatch (h : t.Holds rows) {hash : UInt32}
    (hl : t.loadBatch (t.batchOf hash) = (.ok (), t')) :
    t'.lookup hash =
      if rowsWith hash rows = [] then .noMatch else .found (rowsWith hash rows) := by
  obtain ⟨h', hcurrent, hbatchOf⟩ := h.loadBatch hl
  exact h'.lookup_current ((hbatchOf hash).trans hcurrent.symm)

end Holds

/-! ## New tables -/

theorem holds_ofConfig (c : HashTableConfig) (capacity? : Option Nat) :
    (ofConfig c { capacity? }).Holds [] where
  sound := ⟨SpillStore.sound_empty capacity?, fun _ => rfl⟩
  current_file := SpillStore.tuples_empty capacity? 0
  batchRows_eq b := by
    rw [batchRows]
    split
    · rfl
    · exact SpillStore.tuples_empty capacity? b
  current_lt := batchCount_pos _

end HashTable

end PullQuery
