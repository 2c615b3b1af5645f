import Mathlib.Data.List.Perm.Basic
import PullQuery.Proofs.Hash.Ledger
import PullQuery.Proofs.Hash.Requests

/-!
# Rows that a hash table loses

Over files of limited capacity a request may fail. Rows are lost exactly if it fails in the
middle of a move: while a split divides the rows of the old batches, or while a batch is loaded.
The rows of the current batch, or of a file, are in hand then, and those that have not reached
a new place are dropped. Any other failure leaves every row in its place.

## Main definitions

* `HashTable.KeepsAll`: a table keeps each of some rows in one place, where a look-up sees it
* `HashTable.breaksMove`: whether one of some requests fails in the middle of a move

## Main results

* `HashTable.keepsAll_run_iff`: the accepted rows are kept just if no move is broken off
-/

namespace PullQuery

namespace HashTable

variable {t t' : HashTable} {rows : List SpilledTuple} {x : SpilledTuple}

/-- Whether each of the rows is in one place, in memory or in a file, and a look-up of its hash
neither denies it nor leaves it out. -/
structure KeepsAll (t : HashTable) (rows : List SpilledTuple) : Prop where
  stored : rows.Perm t.stored
  found : ∀ x ∈ rows, t.lookup x.hash ≠ .noMatch ∧
    ∀ xs, t.lookup x.hash = .found xs → x.row ∈ xs

/-! ## Moves that are broken off -/

/-- Whether a split on the way of placing a row fails. -/
def placeBreaks : Nat → HashTable → SpilledTuple → Bool
  | 0, _, _ => false
  | splits + 1, t, x =>
    if t.MustSplit x then
      match t.split with
      | (.error _, _) => true
      | (.ok (), t) => placeBreaks splits t x
    else false

theorem placeBreaks_of_not_mustSplit {splits : Nat} (h : t.MustSplit x → splits = 0) :
    placeBreaks splits t x = false := by
  cases splits with
  | zero => rfl
  | succ n => exact if_neg fun hmust => Nat.succ_ne_zero n (h hmust)

theorem placeBreaks_of_split_error {n : Nat} {e : StorageFault} (hmust : t.MustSplit x)
    (hsplit : t.split = (.error e, t')) : placeBreaks (n + 1) t x = true := by
  rw [placeBreaks, if_pos hmust, hsplit]

theorem placeBreaks_of_split_ok {n : Nat} (hmust : t.MustSplit x)
    (hsplit : t.split = (.ok (), t')) : placeBreaks (n + 1) t x = placeBreaks n t' x := by
  rw [placeBreaks, if_pos hmust, hsplit]

/-- Unless a split is broken off, a row that is not put in its place is all that is missing. -/
theorem Holds.place_of_not_breaks {splits : Nat} {r : Except StorageFault Unit}
    (h : t.Holds rows) (hp : HashTable.place splits t x = (r, t'))
    (hbreaks : placeBreaks splits t x = false) :
    t'.Holds (rows ++ if r.isOk then [x] else []) := by
  induction splits using Nat.strongRecOn generalizing t with
  | ind splits ih =>
    obtain ⟨hx, hspill⟩ | ⟨hx, -, rfl, rfl⟩ |
      ⟨hmust, n, rfl, ⟨e, hsplit, -⟩ | ⟨t₁, hsplit, hrest⟩⟩ := place_cases hp
    · rcases r with e | _
      · obtain rfl := spill_eq_error hspill
        exact (List.append_nil rows).symm ▸ h
      · exact h.spill hx hspill
    · exact h.keep hx
    · rw [placeBreaks_of_split_error hmust hsplit] at hbreaks
      contradiction
    · rw [placeBreaks_of_split_ok hmust hsplit] at hbreaks
      exact ih n (Nat.lt_succ_self n) (h.split hsplit) hrest hbreaks

/-- Rows other than the one in hand are lost exactly if a split is broken off. -/
theorem place_ledger {splits : Nat} {r : Except StorageFault Unit} (h : t.Sound)
    (hp : place splits t x = (r, t')) :
    ∃ lost, ((if r.isOk then [x] else []) ++ t.stored).Perm (lost ++ t'.stored) ∧
      (lost = [] ↔ placeBreaks splits t x = false) := by
  induction splits using Nat.strongRecOn generalizing t with
  | ind splits ih =>
    obtain ⟨hx, hspill⟩ | ⟨-, hmust, rfl, rfl⟩ |
      ⟨hmust, n, rfl, ⟨e, hsplit, rfl⟩ | ⟨t₁, hsplit, hrest⟩⟩ := place_cases hp
    · -- A row that is not written to its file is in hand again, and none else has moved.
      have hnot : placeBreaks splits t x = false :=
        placeBreaks_of_not_mustSplit fun hmust => absurd hmust.1 hx
      refine ⟨[], ?_, iff_of_true rfl hnot⟩
      rcases r with e | _
      · obtain rfl := spill_eq_error hspill
        exact .refl _
      · exact (hspill ▸ accounts_spill h _ x).stored_of_ok
    · exact ⟨[], (accounts_keep h x).stored_of_ok,
        iff_of_true rfl (placeBreaks_of_not_mustSplit hmust)⟩
    · -- The split that fails loses rows, and the row in hand is refused.
      obtain ⟨lost, hlost, hperm⟩ := (hsplit ▸ accounts_split h).lost_of_error
      have hbreaks := placeBreaks_of_split_error (n := n) hmust hsplit
      exact ⟨lost, hperm, iff_of_false hlost (by simp [hbreaks])⟩
    · -- The split loses nothing; what is lost is lost after it.
      have hsame := hsplit ▸ accounts_split h
      obtain ⟨lost, hperm, hlost⟩ := ih n (Nat.lt_succ_self n) hsame.sound hrest
      rw [placeBreaks_of_split_ok hmust hsplit]
      exact ⟨lost, (hsame.stored_of_ok.append_left _).trans hperm, hlost⟩

end HashTable

/-- Whether a request fails in the middle of a move. -/
def TableRequest.breaksMove (t : HashTable) : TableRequest → Bool
  | insert x => HashTable.placeBreaks t.splitsLeft { t with total := t.total + 1 } x
  | load batch =>
    decide (batch < t.batchCount) && decide (batch ≠ t.current) && !(t.switchTo batch).1.isOk

namespace HashTable

variable {t : HashTable} {rows : List SpilledTuple}

/-! ## Requests -/

theorem serve_insert (t : HashTable) (x : SpilledTuple) :
    ((TableRequest.insert x).serve t).2 = (t.insert x).2 ∧
      t.added (.insert x) = if (t.insert x).1.isOk then [x] else [] := by
  rw [added, TableRequest.serve]
  rcases t.insert x with ⟨e | _, t₁⟩ <;> exact ⟨rfl, rfl⟩

/-- Loading a batch moves rows or fails, or it does nothing. -/
theorem loadBatch_cases (t : HashTable) (batch : Nat) :
    ((TableRequest.load batch).breaksMove t = false ∧ (t.loadBatch batch).2 = t) ∨
      (batch < t.batchCount ∧ batch ≠ t.current ∧
        (t.loadBatch batch).2 = (t.switchTo batch).2 ∧
        (TableRequest.load batch).breaksMove t = !(t.switchTo batch).1.isOk) := by
  by_cases hbatch : batch < t.batchCount
  · by_cases hcurrent : batch = t.current
    · refine .inl ⟨by simp [TableRequest.breaksMove, hcurrent], ?_⟩
      rw [loadBatch, if_neg (Nat.not_le.mpr hbatch), if_pos hcurrent]
    · refine .inr ⟨hbatch, hcurrent, ?_, by simp [TableRequest.breaksMove, hbatch, hcurrent]⟩
      rw [loadBatch, if_neg (Nat.not_le.mpr hbatch), if_neg hcurrent]
      rcases t.switchTo batch with ⟨e | _, t₁⟩ <;> rfl
  · refine .inl ⟨by simp [TableRequest.breaksMove, hbatch], ?_⟩
    rw [loadBatch, if_pos (Nat.not_lt.mp hbatch)]

theorem Holds.serve_of_not_breaks {r : TableRequest} (h : t.Holds rows)
    (hbreaks : r.breaksMove t = false) : (r.serve t).2.Holds (rows ++ t.added r) := by
  cases r with
  | insert x =>
    obtain ⟨htable, hadded⟩ := serve_insert t x
    rw [htable, hadded]
    exact (h.of_total (t.total + 1)).place_of_not_breaks rfl hbreaks
  | load batch =>
    rw [added, TableRequest.rows, ite_self, List.append_nil]
    obtain ⟨-, hsame⟩ | ⟨hbatch, hother, htable, hmove⟩ := loadBatch_cases t batch
    · exact hsame.symm ▸ h
    · rw [hmove] at hbreaks
      change (t.loadBatch batch).2.Holds rows
      rw [htable]
      rcases hswitch : t.switchTo batch with ⟨e | _, t₁⟩
      · simp [hswitch, Except.isOk, Except.toBool] at hbreaks
      · exact (h.switchTo hbatch hother hswitch).1

/-- Stored rows are lost exactly if a request breaks off a move. -/
theorem serve_ledger (h : t.Sound) (r : TableRequest) :
    (r.serve t).2.Sound ∧
      ∃ lost, (t.added r ++ t.stored).Perm (lost ++ (r.serve t).2.stored) ∧
        (lost = [] ↔ r.breaksMove t = false) := by
  cases r with
  | insert x =>
    obtain ⟨htable, hadded⟩ := serve_insert t x
    rw [htable, hadded]
    exact ⟨(accounts_insert h x).sound,
      place_ledger (t := { t with total := t.total + 1 }) ⟨h.store, h.index⟩ rfl⟩
  | load batch =>
    rw [added, TableRequest.rows, ite_self]
    change (t.loadBatch batch).2.Sound ∧
      ∃ lost, ([] ++ t.stored).Perm (lost ++ (t.loadBatch batch).2.stored) ∧ _
    obtain ⟨hnot, hsame⟩ | ⟨-, -, htable, hmove⟩ := loadBatch_cases t batch
    · rw [hsame]
      exact ⟨h, [], .refl _, iff_of_true rfl hnot⟩
    · -- Bringing a batch in loses rows exactly if it fails.
      rw [htable, hmove]
      have haccounts := accounts_switchTo h batch
      obtain ⟨lost, hperm, hlost⟩ := haccounts.balance
      refine ⟨haccounts.sound, lost, hperm, hlost.symm.trans ?_⟩
      rcases (t.switchTo batch).1 with e | _ <;> simp [Except.isOk, Except.toBool]

/-! ## Runs -/

/-- Whether one of some requests in turn fails in the middle of a move. -/
def breaksMove : List TableRequest → HashTable → Bool
  | [], _ => false
  | r :: rs, t => r.breaksMove t || breaksMove rs (r.serve t).2

theorem Holds.run_of_not_breaks (rs : List TableRequest) (h : t.Holds rows)
    (hbreaks : breaksMove rs t = false) : (run rs t).Holds (rows ++ accepted rs t) := by
  induction rs generalizing t rows with
  | nil => exact (List.append_nil rows).symm ▸ h
  | cons r rs ih =>
    rw [breaksMove, Bool.or_eq_false_iff] at hbreaks
    rw [accepted, ← List.append_assoc]
    exact ih (h.serve_of_not_breaks hbreaks.1) hbreaks.2

/-- Rows that are accepted are lost exactly if a move is broken off. -/
theorem run_ledger (rs : List TableRequest) (h : t.Sound) :
    ∃ lost, (accepted rs t ++ t.stored).Perm (lost ++ (run rs t).stored) ∧
      (lost = [] ↔ breaksMove rs t = false) := by
  induction rs generalizing t with
  | nil => exact ⟨[], .refl _, iff_of_true rfl rfl⟩
  | cons r rs ih =>
    obtain ⟨hsound, lost₁, hfirst, hlost₁⟩ := serve_ledger h r
    obtain ⟨lost₂, hrest, hlost₂⟩ := ih hsound
    -- A row that the first request keeps may still be lost by a later one.
    refine ⟨lost₁ ++ lost₂, ?_, ?_⟩
    · rw [run, accepted]
      apply List.perm_iff_count.mpr
      intro y
      have hcount₁ := hfirst.count_eq y
      have hcount₂ := hrest.count_eq y
      simp only [List.count_append] at hcount₁ hcount₂ ⊢
      omega
    · rw [List.append_eq_nil_iff, hlost₁, hlost₂, breaksMove, Bool.or_eq_false_iff]

/-- A table in which all rows are in their batches keeps them. -/
theorem Holds.keepsAll (h : t.Holds rows) (hperm : rows.Perm t.stored) : t.KeepsAll rows where
  stored := hperm
  found x hx := by
    have hmem : x.row ∈ rowsWith x.hash rows :=
      List.mem_map.mpr ⟨x, List.mem_filter.mpr ⟨hx, decide_eq_true rfl⟩, rfl⟩
    have hrows := List.ne_nil_of_mem hmem
    by_cases hb : t.batchOf x.hash = t.current
    · rw [h.lookup_current hb, if_neg hrows]
      exact ⟨nofun, fun xs hxs => HashLookup.found.inj hxs ▸ hmem⟩
    · obtain ⟨-, hnone⟩ | hlookup := h.lookup_other hb
      · exact absurd hnone hrows
      · rw [hlookup]
        exact ⟨nofun, nofun⟩

/-- After any requests to a new table, with files of any capacity, the table keeps every row
that was accepted exactly if no request has failed in the middle of a move. -/
theorem keepsAll_run_iff (c : HashTableConfig) (capacity? : Option Nat)
    (rs : List TableRequest) :
    (run rs (ofConfig c { capacity? })).KeepsAll (accepted rs (ofConfig c { capacity? })) ↔
      breaksMove rs (ofConfig c { capacity? }) = false := by
  have hnew := holds_ofConfig c capacity?
  obtain ⟨lost, hperm, hlost⟩ := run_ledger rs hnew.sound
  have hempty : (ofConfig c { capacity? }).stored = [] := rfl
  rw [hempty, List.append_nil] at hperm
  rw [← hlost]
  constructor
  · intro hkeeps
    -- What is kept is as much as what was accepted, so that nothing is lost.
    have hlength := hkeeps.stored.length_eq.symm.trans hperm.length_eq
    rw [List.length_append] at hlength
    exact List.length_eq_zero_iff.mp (by omega)
  · rintro rfl
    exact (hnew.run_of_not_breaks rs (hlost.mp rfl)).keepsAll hperm

/-- A row in memory and one in a file, and then a load for which the files have no room. -/
def loadWithoutRoom : List TableRequest :=
  [.insert ⟨0, ⟨[.int64 1]⟩⟩, .insert ⟨1024, ⟨[.int64 2]⟩⟩, .load 1]

/-- A table of two batches with memory for both of these rows. -/
def twoBatches : HashTableConfig :=
  { workMem := 1000, maxBatches := 64, batches := 2, buckets := 1024 }

/-- With files that have room for one of these rows, the row in memory is neither there nor in a
file after the load has failed. -/
theorem not_keepsAll_loadWithoutRoom :
    ¬ (run loadWithoutRoom (ofConfig twoBatches { capacity? := some 20 })).KeepsAll
      (accepted loadWithoutRoom (ofConfig twoBatches { capacity? := some 20 })) := by
  intro h
  have hrow := h.found ⟨0, ⟨[.int64 1]⟩⟩ (by decide)
  exact hrow.1 (by decide)

end HashTable

end PullQuery
