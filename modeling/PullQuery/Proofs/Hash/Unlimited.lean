import Mathlib.Data.List.Perm.Basic
import PullQuery.Proofs.Hash.Rows

/-!
# Hash tables without a limit on their files

Without a capacity, writing a row to a file fails only if the row cannot be encoded. So a table
whose rows can all be stored accepts every such row and loads every batch, and its rows can
all be stored afterwards.

## Main definitions

* `HashTable.Unlimited`: whether moving the rows of a table cannot fail
* `HashTable.Accepts`: whether an outcome is a success that leaves such a table

## Main results

* `HashTable.Unlimited.insert`, `HashTable.Unlimited.loadBatch`
-/

namespace PullQuery

namespace HashTable

variable {t : HashTable} {x : SpilledTuple} {xs : List SpilledTuple}

/-- Whether moving the rows of a table cannot fail. -/
structure Unlimited (t : HashTable) : Prop where
  sound : t.Sound
  capacity : t.store.capacity? = none
  storable : ∀ y ∈ t.resident, y.Storable

/-- Whether an outcome is a success that leaves an unlimited table. -/
def Accepts {ε : Type} (r : Except ε Unit × HashTable) : Prop :=
  ∃ t, r = (.ok (), t) ∧ t.Unlimited

namespace Unlimited

theorem keep (h : t.Unlimited) (hx : x.Storable) : (t.keep x).Unlimited where
  sound := h.sound.keep x
  capacity := h.capacity
  storable y hy := by
    rcases List.mem_append.mp hy with hy | hy
    · exact h.storable y hy
    · exact List.mem_singleton.mp hy ▸ hx

theorem spill (h : t.Unlimited) (hx : x.Storable) (batch : Nat) : Accepts (t.spill batch x) := by
  obtain ⟨store, hstore⟩ := SpillStore.exists_append h.capacity hx batch
  refine ⟨{ t with store, spilled := t.spilled + 1 }, ?_, ?_⟩
  · rw [HashTable.spill, hstore]
  · exact ⟨⟨h.sound.store.append hstore, h.sound.index⟩,
      (SpillStore.capacity_append hstore).trans h.capacity, h.storable⟩

theorem settle (h : t.Unlimited) (hx : x.Storable) : Accepts (t.settle x) := by
  rw [HashTable.settle]
  split
  · exact ⟨_, rfl, h.keep hx⟩
  · exact h.spill hx _

/-- Rows that are accepted one by one are accepted in turn. -/
theorem forEach {op : HashTable → SpilledTuple → Except StorageFault Unit × HashTable}
    (hop : ∀ t, t.Unlimited → ∀ x ∈ xs, Accepts (op t x)) (h : t.Unlimited) :
    Accepts (HashTable.forEach op xs t) := by
  induction xs generalizing t with
  | nil => exact ⟨t, rfl, h⟩
  | cons x xs ih =>
    obtain ⟨t₁, hx, h₁⟩ := hop t h x (List.mem_cons_self ..)
    rw [HashTable.forEach, hx]
    exact ih (fun t ht y hy => hop t ht y (List.mem_cons_of_mem x hy)) h₁

theorem clearFile (h : t.Unlimited) (batch : Nat) :
    { t with store := t.store.clear batch }.Unlimited :=
  ⟨⟨h.sound.store.clear batch, h.sound.index⟩, h.capacity, h.storable⟩

theorem refile (h : t.Unlimited) (batch : Nat) : Accepts (t.refile batch) := by
  rw [HashTable.refile, h.sound.store.takeBatch_eq]
  exact forEach (fun t ht x hx => ht.spill (h.sound.store.storable x hx) _) (h.clearFile batch)

theorem refileAll (h : t.Unlimited) (bs : List Nat) : Accepts (HashTable.refileAll bs t) := by
  induction bs generalizing t with
  | nil => exact ⟨t, rfl, h⟩
  | cons b bs ih =>
    rw [HashTable.refileAll]
    split
    · exact ih h
    · obtain ⟨t₁, hfile, h₁⟩ := h.refile b
      rw [hfile]
      exact ih h₁

theorem split (h : t.Unlimited) : Accepts t.split := by
  have hempty : { t.clearResident with logBatches := t.logBatches + 1 }.Unlimited :=
    ⟨⟨h.sound.store, indexed_clearResident t⟩, h.capacity, fun _ hy => nomatch hy⟩
  obtain ⟨t₁, hresident, h₁⟩ := forEach (fun t ht x hx => ht.settle (h.storable x hx)) hempty
  obtain ⟨t₂, hfiles, h₂⟩ := h₁.refileAll (List.range t.batchCount)
  rw [HashTable.split, hresident]
  dsimp only
  rw [hfiles]
  refine ⟨_, rfl, ?_⟩
  split
  · exact ⟨⟨h₂.sound.store, h₂.sound.index⟩, h₂.capacity, h₂.storable⟩
  · exact h₂

theorem place (splits : Nat) (h : t.Unlimited) (hx : x.Storable) :
    Accepts (HashTable.place splits t x) := by
  induction splits using Nat.strongRecOn generalizing t with
  | ind splits ih =>
    rcases hp : HashTable.place splits t x with ⟨r, t'⟩
    obtain ⟨-, hspill⟩ | ⟨-, -, rfl, rfl⟩ | ⟨-, n, rfl, ⟨e, hsplit, -⟩ | ⟨t₁, hsplit, hrest⟩⟩ :=
      place_cases hp
    · exact hspill ▸ h.spill hx _
    · exact ⟨_, rfl, h.keep hx⟩
    · -- The split does not fail.
      obtain ⟨t₁, hok, -⟩ := h.split
      simp [hsplit] at hok
    · obtain ⟨t₂, hok, h₂⟩ := h.split
      obtain rfl : t₁ = t₂ := (Prod.mk.inj (hsplit.symm.trans hok)).2
      exact hrest ▸ ih n (Nat.lt_succ_self n) h₂

/-- An unlimited table accepts every row that can be stored. -/
theorem insert (h : t.Unlimited) (hx : x.Storable) : Accepts (t.insert x) :=
  place (t := { t with total := t.total + 1 }) _
    ⟨⟨h.sound.store, h.sound.index⟩, h.capacity, h.storable⟩ hx

theorem switchTo (h : t.Unlimited) (batch : Nat) : Accepts (t.switchTo batch) := by
  have hempty : { t.clearResident with isFixed := true }.Unlimited :=
    ⟨⟨h.sound.store, indexed_clearResident t⟩, h.capacity, fun _ hy => nomatch hy⟩
  obtain ⟨t₁, hresident, h₁⟩ :=
    forEach (fun t' ht x hx => ht.spill (h.storable x hx) t.current) hempty
  rw [HashTable.switchTo, hresident]
  dsimp only
  rw [h₁.sound.store.takeBatch_eq]
  have hcleared : { t₁ with current := batch, store := t₁.store.clear batch }.Unlimited :=
    ⟨⟨h₁.sound.store.clear batch, h₁.sound.index⟩, h₁.capacity, h₁.storable⟩
  exact forEach (fun t ht x hx => ht.place _ (h₁.sound.store.storable x hx)) hcleared

/-- An unlimited table loads each of its batches. -/
theorem loadBatch (h : t.Unlimited) {batch : Nat} (hbatch : batch < t.batchCount) :
    Accepts (t.loadBatch batch) := by
  rw [HashTable.loadBatch, if_neg (Nat.not_le.mpr hbatch)]
  split
  · exact ⟨t, rfl, h⟩
  · obtain ⟨t₁, hswitch, h₁⟩ := h.switchTo batch
    rw [hswitch]
    exact ⟨t₁, rfl, h₁⟩

end Unlimited

end HashTable

end PullQuery
