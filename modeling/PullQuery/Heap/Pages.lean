import PullQuery.Keyed
import PullQuery.Row
import PullQuery.Snapshot
import PullQuery.Tid

/-!
# Heap pages

A heap keeps its row versions on pages, each with the number of its block. A page is a row of
slots, and a version stands in the slot that the offset of its location names. Slots may be empty,
but a page ends with a version. What is written to a slot goes among all versions by the order
of their locations.

## Main definitions

* `HeapTuple`: a stored row version
* `HeapPage`, `HeapPage.write`: the slots of a block
* `HeapPages`, `HeapPages.get?`, `HeapPages.write`: pages by block
* `HeapPages.tuples`: all versions by increasing location

## Main results

* `HeapPages.get?_write`: writing a slot changes what is found at its location alone
* `HeapPages.sorted_tuples`, `HeapPages.get?_eq_find?`: the versions are found at their locations
* `HeapPages.tuples_write`: a version that is written goes to its place among all versions
-/

namespace PullQuery

/-- A row version with the transactions that inserted and deleted it. -/
structure HeapTuple where
  tid : Tid
  xmin : TxId
  /-- The deleting transaction, or none. -/
  xmax : TxId
  row : Row
deriving DecidableEq

/-! ## Slots -/

namespace Slots

variable {α : Type} {slots : List (Option α)} {i j : Nat} {x : α}

/-- What stands in a slot. -/
def get? (slots : List (Option α)) (i : Nat) : Option α := slots[i]?.join

/-- Writes a slot, with empty slots before it where there are none yet. -/
def write (slots : List (Option α)) (i : Nat) (x : α) : List (Option α) :=
  (slots ++ List.replicate (i + 1 - slots.length) none).set i (some x)

theorem lt_of_get? (h : get? slots i = some x) : i < slots.length := by
  obtain ⟨hi, -⟩ := List.getElem?_eq_some_iff.mp (Option.join_eq_some_iff.mp h)
  exact hi

theorem length_write : (write slots i x).length = max slots.length (i + 1) := by
  simp only [write, List.length_set, List.length_append, List.length_replicate]
  omega

/-- Writing a slot changes it alone. -/
theorem get?_write : get? (write slots i x) j = if i = j then some x else get? slots j := by
  have hlong : i < (slots ++ List.replicate (i + 1 - slots.length) none).length := by
    simp only [List.length_append, List.length_replicate]
    omega
  rw [get?, write, List.getElem?_set]
  split
  · rfl
  · rw [get?, List.getElem?_append]
    split
    · rfl
    -- The slots behind the old ones are empty.
    · next hj =>
      rw [List.getElem?_eq_none (Nat.le_of_not_lt hj), List.getElem?_replicate]
      split <;> rfl

/-- After a slot is written, the last one is not empty. -/
theorem isSome_last_write (h : slots = [] ∨ (get? slots (slots.length - 1)).isSome = true) :
    (get? (write slots i x) ((write slots i x).length - 1)).isSome = true := by
  rw [get?_write, length_write]
  split
  · rfl
  · next hlast =>
    rcases h with rfl | h
    · exact absurd (by simp) hlast
    · have hlength : max slots.length (i + 1) - 1 = slots.length - 1 := by omega
      rwa [hlength]

end Slots

/-! ## Pages -/

/-- The slots of a block, the first for the offset one. -/
structure HeapPage where
  block : UInt32
  slots : List (Option HeapTuple)
  /-- A version stands in the slot that its location names. -/
  located : ∀ i t, Slots.get? slots i = some t →
    t.tid.block = block ∧ t.tid.offset.toNat = i + 1
  /-- The last slot is not empty. -/
  occupied : (Slots.get? slots (slots.length - 1)).isSome = true
  length_le : slots.length ≤ Tid.maxOffset

namespace HeapPage

/-- The slots of a block that may have no page yet. -/
def slotsOf (p? : Option HeapPage) : List (Option HeapTuple) := (p?.map slots).getD []

theorem get?_slotsOf (p? : Option HeapPage) (i : Nat) :
    Slots.get? (slotsOf p?) i = p?.bind fun p => Slots.get? p.slots i := by
  cases p? <;> rfl

theorem length_slotsOf_le (p? : Option HeapPage) : (slotsOf p?).length ≤ Tid.maxOffset := by
  cases p? with
  | none => exact Nat.zero_le _
  | some p => exact p.length_le

/-- The page of a block after a version is written to its slot. -/
def write (p? : Option HeapPage) (t : HeapTuple) (hblock : ∀ p ∈ p?, p.block = t.tid.block)
    (hslot : t.tid.HasSlot) : HeapPage where
  block := t.tid.block
  slots := Slots.write (slotsOf p?) (t.tid.offset.toNat - 1) t
  located i u h := by
    rw [Slots.get?_write] at h
    split at h
    · next hi =>
      obtain rfl := Option.some.inj h
      have hlow := hslot.1
      exact ⟨rfl, by omega⟩
    · rw [get?_slotsOf] at h
      obtain ⟨p, hp, hu⟩ := Option.bind_eq_some_iff.mp h
      exact hblock p hp ▸ p.located i u hu
  occupied := by
    refine Slots.isSome_last_write ?_
    cases p? with
    | none => exact .inl rfl
    | some p => exact .inr p.occupied
  length_le := by
    have hold := length_slotsOf_le p?
    obtain ⟨hlow, hhigh⟩ := hslot
    rw [Slots.length_write]
    omega

/-- The versions on a page. -/
def tuples (p : HeapPage) : List HeapTuple := p.slots.filterMap id

variable {p : HeapPage} {t : HeapTuple}

theorem mem_tuples : t ∈ p.tuples ↔ ∃ i, Slots.get? p.slots i = some t := by
  have hslots : t ∈ p.tuples ↔ some t ∈ p.slots := by simp [tuples]
  rw [hslots, List.mem_iff_getElem?]
  simp [Slots.get?, Option.join_eq_some_iff]

theorem get?_of_mem_tuples (h : t ∈ p.tuples) :
    Slots.get? p.slots (t.tid.offset.toNat - 1) = some t := by
  obtain ⟨i, hi⟩ := mem_tuples.mp h
  rwa [(p.located i t hi).2, Nat.add_sub_cancel]

theorem block_of_mem_tuples (h : t ∈ p.tuples) : t.tid.block = p.block :=
  (p.located _ t (get?_of_mem_tuples h)).1

theorem offset_of_mem_tuples (h : t ∈ p.tuples) :
    1 ≤ t.tid.offset.toNat ∧ t.tid.offset.toNat ≤ p.slots.length := by
  have hget := get?_of_mem_tuples h
  have hoffset := (p.located _ t hget).2
  have hlength := Slots.lt_of_get? hget
  omega

/-- The versions on a page stand by increasing location. -/
theorem sorted_tuples (p : HeapPage) : Keyed.Sorted HeapTuple.tid p.tuples := by
  have hslot {i : Nat} {t : HeapTuple} (hi : i < p.slots.length) (ht : id p.slots[i] = some t) :
      t.tid.block = p.block ∧ t.tid.offset.toNat = i + 1 :=
    p.located i t (by rw [Slots.get?, List.getElem?_eq_getElem hi, Option.join_some]; exact ht)
  refine List.pairwise_filterMap.mpr (List.pairwise_iff_getElem.mpr ?_)
  intro i j hi hj hij t ht u hu
  obtain ⟨htblock, htoffset⟩ := hslot hi ht
  obtain ⟨hublock, huoffset⟩ := hslot hj hu
  refine Tid.lt_iff.mpr (.inr ⟨htblock.trans hublock.symm, ?_⟩)
  rw [UInt16.lt_iff_toNat_lt, htoffset, huoffset]
  omega

end HeapPage

/-! ## Pages by block -/

/-- The pages of a heap by increasing block. -/
structure HeapPages where
  toList : List HeapPage
  sorted : Keyed.Sorted HeapPage.block toList

namespace HeapPages

variable {ps : HeapPages} {t : HeapTuple} {tid : Tid}

/-- No pages. -/
def empty : HeapPages := ⟨[], .nil⟩

/-- The page of a block. -/
def page? (ps : HeapPages) (block : UInt32) : Option HeapPage :=
  Keyed.find? HeapPage.block block ps.toList

theorem block_of_page? {block : UInt32} {p : HeapPage} (h : ps.page? block = some p) :
    p.block = block :=
  (Keyed.mem_of_find? h).2

/-- The version stored at a location. -/
def get? (ps : HeapPages) (tid : Tid) : Option HeapTuple :=
  if tid.isValid then (ps.page? tid.block).bind fun p => Slots.get? p.slots (tid.offset.toNat - 1)
  else none

/-- Writes a version to its slot. -/
def write (ps : HeapPages) (t : HeapTuple) (hslot : t.tid.HasSlot) : HeapPages where
  toList :=
    Keyed.place HeapPage.block
      (.write (ps.page? t.tid.block) t (fun _ hp => block_of_page? hp) hslot) ps.toList
  sorted := Keyed.sorted_place ps.sorted

/-- All versions by increasing location. -/
def tuples (ps : HeapPages) : List HeapTuple := ps.toList.flatMap HeapPage.tuples

theorem zero_eq_length_empty : 0 = empty.tuples.length := rfl

/-! ### The versions -/

theorem sorted_tuples (ps : HeapPages) : Keyed.Sorted HeapTuple.tid ps.tuples := by
  refine List.pairwise_flatMap.mpr ⟨fun p _ => p.sorted_tuples, ps.sorted.imp ?_⟩
  -- All locations of a page are before those of the next ones.
  intro p q hpq t ht u hu
  refine Tid.lt_iff.mpr (.inl ?_)
  rw [HeapPage.block_of_mem_tuples ht, HeapPage.block_of_mem_tuples hu]
  exact Std.compare_eq_lt.mp hpq

theorem mem_tuples : t ∈ ps.tuples ↔ ∃ p ∈ ps.toList, t ∈ p.tuples := List.mem_flatMap

theorem hasSlot_of_mem_tuples (h : t ∈ ps.tuples) : t.tid.HasSlot := by
  obtain ⟨p, -, ht⟩ := mem_tuples.mp h
  obtain ⟨hlow, hhigh⟩ := HeapPage.offset_of_mem_tuples ht
  exact ⟨hlow, Nat.le_trans hhigh p.length_le⟩

/-- The versions are those that are found at their locations. -/
theorem get?_eq_some_iff : ps.get? tid = some t ↔ t ∈ ps.tuples ∧ t.tid = tid := by
  rw [get?, mem_tuples]
  constructor
  · intro h
    split at h
    · next hvalid =>
      obtain ⟨p, hp, hget⟩ := Option.bind_eq_some_iff.mp h
      obtain ⟨hmem, hpage⟩ := Keyed.mem_of_find? hp
      obtain ⟨hblock, hoffset⟩ := p.located _ t hget
      have hlow := Tid.isValid_iff.mp hvalid
      exact ⟨⟨p, hmem, HeapPage.mem_tuples.mpr ⟨_, hget⟩⟩,
        Tid.ext (hblock.trans hpage) (UInt16.toNat_inj.mp (by omega))⟩
    · contradiction
  · rintro ⟨⟨p, hp, ht⟩, rfl⟩
    have hpage : ps.page? t.tid.block = some p :=
      HeapPage.block_of_mem_tuples ht ▸ ps.sorted.find?_of_mem hp
    rw [if_pos (Tid.isValid_iff.mpr (HeapPage.offset_of_mem_tuples ht).1), hpage,
      Option.bind_some, HeapPage.get?_of_mem_tuples ht]

/-- A version is found at its location as it is found among all of them. -/
theorem get?_eq_find? (ps : HeapPages) (tid : Tid) :
    ps.get? tid = Keyed.find? HeapTuple.tid tid ps.tuples := by
  ext t
  rw [get?_eq_some_iff, ps.sorted_tuples.find?_eq_some_iff]

/-! ### Writing -/

theorem page?_write (hslot : t.tid.HasSlot) (block : UInt32) :
    (ps.write t hslot).page? block =
      if t.tid.block = block then
        some (.write (ps.page? t.tid.block) t (fun _ hp => block_of_page? hp) hslot)
      else ps.page? block :=
  Keyed.find?_place

/-- Writing a slot changes what is found at its location alone. -/
theorem get?_write (hslot : t.tid.HasSlot) :
    (ps.write t hslot).get? tid = if t.tid = tid then some t else ps.get? tid := by
  have hlow : 1 ≤ t.tid.offset.toNat := hslot.1
  rw [get?, get?, page?_write]
  by_cases hvalid : tid.isValid = true
  · have hvalid' := Tid.isValid_iff.mp hvalid
    rw [if_pos hvalid, if_pos hvalid]
    by_cases hblock : t.tid.block = tid.block
    · rw [if_pos hblock, Option.bind_some]
      show Slots.get? (Slots.write _ _ t) _ = _
      rw [Slots.get?_write, HeapPage.get?_slotsOf, hblock]
      have hslots : t.tid.offset.toNat - 1 = tid.offset.toNat - 1 ↔ t.tid = tid := by
        constructor
        · exact fun h => Tid.ext hblock (UInt16.toNat_inj.mp (by omega))
        · rintro rfl
          rfl
      simp only [hslots]
    · rw [if_neg hblock, if_neg fun h => hblock (congrArg Tid.block h)]
  · have hne : t.tid ≠ tid := by
      rintro rfl
      exact hvalid (Tid.isValid_iff.mpr hlow)
    rw [if_neg hvalid, if_neg hvalid, if_neg hne]

/-- A version that is written goes to its place among all versions. -/
theorem tuples_write (ps : HeapPages) (t : HeapTuple) (hslot : t.tid.HasSlot) :
    (ps.write t hslot).tuples = Keyed.place HeapTuple.tid t ps.tuples := by
  refine (ps.write t hslot).sorted_tuples.ext (Keyed.sorted_place ps.sorted_tuples) fun tid => ?_
  rw [← get?_eq_find?, get?_write, Keyed.find?_place, get?_eq_find?]

end HeapPages

end PullQuery
