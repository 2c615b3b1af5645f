import Mathlib.Data.Set.Card
import Mathlib.Logic.Function.Basic
import PullQuery.Proofs.Heap.Cursor

/-!
# Locations of stored versions

However versions are stored in a heap, each is found at its location, and the heap is a table of
versions by location. Insertion puts a version behind all others, as long as the block behind the
last one has a number; a version can also be put at any free location that a block has, and the
next insertion goes on from there. A scan walks over the table in order.

## Main definitions

* `HeapRequest`, `Heap.serve`: what is asked of a heap
* `Heap.hasRoom`: whether there is a location behind the last slot
* `Heap.Located`: versions are where they are found
* `Heap.ServesInOrder`: what requests do to the table

## Main results

* `Heap.nextTid_gt`, `Heap.hasRoom_eq_false_iff`: insertion goes behind all others, if it can
* `Heap.tuples_insert`, `Heap.tuples_delete`: what insertion and deletion do to the versions
* `Heap.located`, `Heap.servesInOrder`: a heap is a table, and each request keeps it one
* `Heap.keeps_insertion_order`: any requests
-/

namespace PullQuery

/-! ## Stamped versions -/

namespace HeapTuple

/-- Changes the deleting transaction of the version at a location. -/
def stamp (tid : Tid) (xmax : TxId) (ts : List HeapTuple) : List HeapTuple :=
  ts.map fun t => if t.tid = tid then { t with xmax } else t

/-- Stamping leaves a version where it is. -/
theorem tid_stamped (tid : Tid) (xmax : TxId) (t : HeapTuple) :
    (if t.tid = tid then { t with xmax } else t).tid = t.tid := by
  split <;> rfl

variable {tid u : Tid} {xmax : TxId} {ts : List HeapTuple}

theorem sorted_stamp (h : Keyed.Sorted HeapTuple.tid ts) :
    Keyed.Sorted HeapTuple.tid (stamp tid xmax ts) := by
  refine List.pairwise_map.mpr (h.imp fun {t u} htu => ?_)
  rwa [tid_stamped, tid_stamped]

theorem find?_stamp :
    Keyed.find? HeapTuple.tid u (stamp tid xmax ts) =
      (Keyed.find? HeapTuple.tid u ts).map fun t => if u = tid then { t with xmax } else t := by
  induction ts with
  | nil => rfl
  | cons t ts ih =>
    have hcons : stamp tid xmax (t :: ts) =
        (if t.tid = tid then { t with xmax } else t) :: stamp tid xmax ts := rfl
    rw [hcons, Keyed.find?_cons, Keyed.find?_cons, tid_stamped, ih]
    by_cases hu : t.tid = u
    · rw [if_pos hu, if_pos hu, Option.map_some, hu]
    · rw [if_neg hu, if_neg hu]

end HeapTuple

/-! ## Requests -/

/-- What is asked of a heap. -/
inductive HeapRequest where
  | insert (row : Row) (x : TxId)
  | insertAt (t : HeapTuple)
  | delete (tid : Tid) (x : TxId)

namespace Heap

/-- Serves a request, and gives the location that insertion finds. A failure leaves the heap as
it was. -/
def serve (h : Heap) : HeapRequest → Except StorageFault (Option Tid) × Heap
  | .insert row x => (.ok (some (h.insert row x).1), (h.insert row x).2)
  | .insertAt t =>
    match h.insertAt t with
    | .error e => (.error e, h)
    | .ok h' => (.ok none, h')
  | .delete tid x =>
    match h.delete tid x with
    | .error e => (.error e, h)
    | .ok h' => (.ok none, h')

/-- Whether the location behind the last slot can be numbered. -/
def hasRoom (h : Heap) : Bool :=
  match h.pages.toList.getLast? with
  | none => true
  | some p => p.slots.length < h.tuplesPerPage || p.block.toNat + 1 < 0x100000000

variable {h h' : Heap} {t : HeapTuple} {tid : Tid} {x : TxId}

/-! ## The last page -/

theorem block_le_of_getLast? {p last : HeapPage} (hlast : h.pages.toList.getLast? = some last)
    (hp : p ∈ h.pages.toList) : p = last ∨ p.block < last.block := by
  obtain ⟨before, hconcat⟩ := List.getLast?_eq_some_iff.mp hlast
  have hsorted := h.pages.sorted
  rw [Keyed.Sorted, hconcat, List.pairwise_append] at hsorted
  rw [hconcat] at hp
  rcases List.mem_append.mp hp with hp | hp
  · exact .inr (Std.compare_eq_lt.mp (hsorted.2.2 p hp last (List.mem_singleton_self _)))
  · exact .inl (List.mem_singleton.mp hp)

/-- The location that insertion finds is behind all others. -/
theorem nextTid_gt (hroom : h.hasRoom = true) : ∀ t ∈ h.tuples, t.tid < h.nextTid := by
  intro t ht
  obtain ⟨p, hp, htp⟩ := HeapPages.mem_tuples.mp ht
  have hblock := HeapPage.block_of_mem_tuples htp
  have hoffset := (HeapPage.offset_of_mem_tuples htp).2
  unfold hasRoom at hroom
  unfold nextTid
  rcases hlast : h.pages.toList.getLast? with _ | last
  · rw [List.getLast?_eq_none_iff.mp hlast] at hp
    contradiction
  · rw [hlast, Bool.or_eq_true, decide_eq_true_eq, decide_eq_true_eq] at hroom
    rw [Tid.lt_iff, hblock]
    -- Neither the offset nor the block of the location starts again from zero.
    dsimp only
    split
    · next hfree =>
      rcases block_le_of_getLast? hlast hp with rfl | hlt
      · refine .inr ⟨rfl, ?_⟩
        have hmax : Tid.maxOffset = 291 := rfl
        have hle := p.length_le
        rw [UInt16.lt_iff_toNat_lt, UInt16.toNat_add, UInt16.toNat_ofNat']
        simp only [UInt16.toNat_ofNat]
        omega
      · exact .inl hlt
    · next hfull =>
      refine .inl ?_
      rw [UInt32.lt_iff_toNat_lt, UInt32.toNat_add]
      simp only [UInt32.toNat_ofNat]
      have hle : p.block.toNat ≤ last.block.toNat := by
        rcases block_le_of_getLast? hlast hp with rfl | hlt
        · exact Nat.le_refl _
        · exact Nat.le_of_lt (UInt32.lt_iff_toNat_lt.mp hlt)
      omega

/-- Insertion finds no room only if the block with the last number is full. -/
theorem hasRoom_eq_false_iff :
    h.hasRoom = false ↔
      ∃ t ∈ h.tuples, t.tid.block.toNat + 1 = 0x100000000 ∧
        h.tuplesPerPage ≤ t.tid.offset.toNat := by
  unfold hasRoom
  rcases hlast : h.pages.toList.getLast? with _ | last
  · have hnil : h.pages.toList = [] := List.getLast?_eq_none_iff.mp hlast
    simp [tuples, HeapPages.tuples, hnil]
  · have hmem : last ∈ h.pages.toList := List.mem_of_getLast? hlast
    have hbound := last.block.toNat_lt
    simp only [Bool.or_eq_false_iff, decide_eq_false_iff_not]
    constructor
    · rintro ⟨hfull, hblock⟩
      -- The last slot of the page is not empty.
      obtain ⟨t, ht⟩ := Option.isSome_iff_exists.mp last.occupied
      obtain ⟨htblock, htoffset⟩ := last.located _ t ht
      have htlast : t ∈ last.tuples := HeapPage.mem_tuples.mpr ⟨_, ht⟩
      have hlength := Slots.lt_of_get? ht
      exact ⟨t, HeapPages.mem_tuples.mpr ⟨last, hmem, htlast⟩, by rw [htblock]; omega, by omega⟩
    · rintro ⟨t, ht, hblock, hoffset⟩
      obtain ⟨p, hp, htp⟩ := HeapPages.mem_tuples.mp ht
      have hlength := (HeapPage.offset_of_mem_tuples htp).2
      rw [HeapPage.block_of_mem_tuples htp] at hblock
      rcases block_le_of_getLast? hlast hp with rfl | hlt
      · exact ⟨by omega, by omega⟩
      · rw [UInt32.lt_iff_toNat_lt] at hlt
        omega

/-! ## The table of versions -/

theorem isSome_get?_iff : (h.get? tid).isSome = true ↔ tid ∈ h.locations := by
  simp [Option.isSome_iff_exists, get?_eq_some_iff, locations]

theorem size_eq_ncard (h : Heap) : h.size = {tid | (h.get? tid).isSome = true}.ncard := by
  have hset : {tid | (h.get? tid).isSome = true} = (h.locations.toFinset : Set Tid) := by
    ext tid
    simp [isSome_get?_iff]
  have hnodup : h.locations.Nodup := h.pairwise_locations.imp Tid.ne_of_lt
  rw [hset, Set.ncard_coe_finset, List.toFinset_card_of_nodup hnodup, h.length_locations,
    h.size_eq_length]

theorem get?_store_eq_update (h : Heap) (t : HeapTuple) (hslot : t.tid.HasSlot) :
    (h.store t hslot).get? = Function.update h.get? t.tid (some t) := by
  funext tid
  rw [Function.update_apply, get?_store]
  simp only [eq_comm]

theorem size_store_of_free (hslot : t.tid.HasSlot) (hfree : h.get? t.tid = none) :
    (h.store t hslot).size = h.size + 1 := by
  rw [size_store, hfree]
  rfl

/-- The location that insertion finds is free. -/
theorem get?_nextTid (hroom : h.hasRoom = true) : h.get? h.nextTid = none := by
  rw [Option.eq_none_iff_forall_ne_some]
  intro t hget
  obtain ⟨ht, htid⟩ := get?_eq_some_iff.mp hget
  exact Tid.ne_of_lt (nextTid_gt hroom t ht) htid

theorem insertAt_eq_error_iff :
    (∃ e, h.insertAt t = .error e) ↔
      t.tid.offset = 0 ∨ Tid.maxOffset < t.tid.offset.toNat ∨ (h.get? t.tid).isSome = true := by
  have hslot : ¬ t.tid.HasSlot ↔ t.tid.offset = 0 ∨ Tid.maxOffset < t.tid.offset.toNat := by
    rw [Tid.HasSlot, ← UInt16.toNat_inj, UInt16.toNat_zero]
    omega
  rw [← or_assoc, ← hslot, insertAt]
  by_cases hvalid : t.tid.HasSlot
  · by_cases hoccupied : (h.get? t.tid).isSome = true <;> simp [hvalid, hoccupied]
  · simp [hvalid]

theorem insertAt_eq_ok (hinsert : h.insertAt t = .ok h') :
    ∃ hslot, h' = h.store t hslot ∧ h.get? t.tid = none := by
  unfold insertAt at hinsert
  split at hinsert
  · next hslot =>
    split at hinsert
    · contradiction
    · next hfree =>
      exact ⟨hslot, (Except.ok.inj hinsert).symm, Option.not_isSome_iff_eq_none.mp hfree⟩
  · contradiction

theorem delete_eq_error_iff : (∃ e, h.delete tid x = .error e) ↔ h.get? tid = none := by
  unfold delete
  split
  · next t hget => simp [hget]
  · next hget => simp [hget]

theorem delete_eq_ok (hdelete : h.delete tid x = .ok h') :
    ∃ t, ∃ hslot : t.tid.HasSlot,
      h.get? tid = some t ∧ t.tid = tid ∧ h' = h.store { t with xmax := x } hslot := by
  unfold delete at hdelete
  split at hdelete
  · next t hget =>
    exact ⟨t, hasSlot_of_get? hget, hget, (get?_eq_some_iff.mp hget).2,
      (Except.ok.inj hdelete).symm⟩
  · contradiction

/-- A deletion stamps the version at its location, and no other. -/
theorem get?_delete (hdelete : h.delete tid x = .ok h') :
    h'.get? = Function.update h.get? tid ((h.get? tid).map fun t => { t with xmax := x }) := by
  obtain ⟨t, hslot, hget, rfl, rfl⟩ := delete_eq_ok hdelete
  rw [get?_store_eq_update, hget, Option.map_some]

theorem size_delete (hdelete : h.delete tid x = .ok h') : h'.size = h.size := by
  obtain ⟨t, hslot, hget, rfl, rfl⟩ := delete_eq_ok hdelete
  rw [size_store, hget]
  rfl

/-- A deletion stamps one of the versions in order. -/
theorem tuples_delete (hdelete : h.delete tid x = .ok h') :
    h'.tuples = HeapTuple.stamp tid x h.tuples := by
  refine h'.sorted_tuples.ext (HeapTuple.sorted_stamp h.sorted_tuples) fun u => ?_
  rw [HeapTuple.find?_stamp]
  show Keyed.find? HeapTuple.tid u h'.pages.tuples =
    (Keyed.find? HeapTuple.tid u h.pages.tuples).map _
  rw [← HeapPages.get?_eq_find?, ← HeapPages.get?_eq_find?]
  show h'.get? u = (h.get? u).map _
  rw [get?_delete hdelete, Function.update_apply]
  by_cases hu : u = tid
  · simp [hu]
  · simp [hu]

/-- An insertion puts the version behind all others. -/
theorem tuples_insert (hroom : h.hasRoom = true) (row : Row) :
    (h.insert row x).2.tuples = h.tuples ++ [⟨h.nextTid, x, TxId.none, row⟩] := by
  rw [insert, tuples_store]
  exact Keyed.place_of_gt (nextTid_gt hroom)

/-! ## Any requests -/

/-- Whether the versions of a heap are where they are found. -/
structure Located (h : Heap) : Prop where
  /-- The stored versions are those that are found at their locations. -/
  found : ∀ t, t ∈ h.tuples ↔ h.get? t.tid = some t
  /-- What is found at a location has this location. -/
  tid_eq : ∀ tid t, h.get? tid = some t → t.tid = tid
  /-- Locations are numbered as on blocks. -/
  offset : ∀ t ∈ h.tuples, 1 ≤ t.tid.offset.toNat ∧ t.tid.offset.toNat ≤ Tid.maxOffset
  /-- There are as many versions as locations. -/
  size : h.size = {tid | (h.get? tid).isSome = true}.ncard
  /-- The versions stand in the order of their locations, none of which occurs twice. -/
  increasing : h.locations.Pairwise (· < ·)

/-- Whether a heap serves requests as a table of versions by location to which insertion adds
behind all others. -/
structure ServesInOrder (h : Heap) : Prop where
  /-- Insertion finds a location behind all versions, and stores the new one there. -/
  insert : h.hasRoom = true → ∀ row x,
    (∀ tid, (h.get? tid).isSome = true → tid < (h.insert row x).1) ∧
      (h.insert row x).2.get? =
        Function.update h.get? (h.insert row x).1 (some ⟨(h.insert row x).1, x, TxId.none, row⟩) ∧
      (h.insert row x).2.size = h.size + 1
  /-- There is no room for insertion only if the block with the last number is full. -/
  noRoom : h.hasRoom = false ↔
    ∃ t ∈ h.tuples, t.tid.block.toNat + 1 = 0x100000000 ∧ h.tuplesPerPage ≤ t.tid.offset.toNat
  /-- A version is refused at a location that blocks do not have, or that is not free. -/
  insertAt_fails : ∀ t, (∃ e, h.insertAt t = .error e) ↔
    t.tid.offset = 0 ∨ Tid.maxOffset < t.tid.offset.toNat ∨ (h.get? t.tid).isSome = true
  insertAt : ∀ t h', h.insertAt t = .ok h' →
    h'.get? = Function.update h.get? t.tid (some t) ∧ h'.size = h.size + 1
  /-- A deletion fails where there is no version. -/
  delete_fails : ∀ tid x, (∃ e, h.delete tid x = .error e) ↔ h.get? tid = none
  delete : ∀ tid x h', h.delete tid x = .ok h' →
    h'.get? = Function.update h.get? tid ((h.get? tid).map fun t => { t with xmax := x }) ∧
      h'.size = h.size
  /-- A request that fails changes nothing. -/
  fails : ∀ r e, (h.serve r).1 = .error e → (h.serve r).2 = h

theorem serve_snd_of_error {r : HeapRequest} {e : StorageFault}
    (hfails : (h.serve r).1 = .error e) : (h.serve r).2 = h := by
  cases r with
  | insert row x => contradiction
  | insertAt t =>
    rw [Heap.serve] at hfails ⊢
    split at hfails
    · rfl
    · contradiction
  | delete tid x =>
    rw [Heap.serve] at hfails ⊢
    split at hfails
    · rfl
    · contradiction

theorem located (h : Heap) : h.Located where
  found t := by simp [get?_eq_some_iff]
  tid_eq tid t hget := (get?_eq_some_iff.mp hget).2
  offset t ht := HeapPages.hasSlot_of_mem_tuples ht
  size := h.size_eq_ncard
  increasing := h.pairwise_locations

theorem servesInOrder (h : Heap) : h.ServesInOrder where
  insert hroom row x := by
    refine ⟨?_, h.get?_store_eq_update _ _, size_store_of_free _ (get?_nextTid hroom)⟩
    intro tid hfound
    obtain ⟨t, ht, rfl⟩ := List.mem_map.mp (isSome_get?_iff.mp hfound)
    exact nextTid_gt hroom t ht
  noRoom := hasRoom_eq_false_iff
  insertAt_fails _ := insertAt_eq_error_iff
  insertAt t h' hinsert := by
    obtain ⟨hslot, rfl, hfree⟩ := insertAt_eq_ok hinsert
    exact ⟨h.get?_store_eq_update t hslot, size_store_of_free hslot hfree⟩
  delete_fails _ _ := delete_eq_error_iff
  delete _ _ _ hdelete := ⟨get?_delete hdelete, size_delete hdelete⟩
  fails _ _ := serve_snd_of_error

/-- Whatever versions are stored in a new heap and deleted, each version is found at its location,
the next request finds the heap to be a table by location in which insertion goes behind all
others, and a scan returns the versions in order, each once. -/
theorem keeps_insertion_order (name : String) (shape : Shape) (positioning : Bool) (n : Nat)
    (rs : List HeapRequest) :
    let h := (serveAll serve rs (withTuplesPerPage { name, shape, positioning } n)).2
    h.Located ∧ h.ServesInOrder ∧
    ∀ k, (serveAll (ScanClient.serve h) (List.replicate k (.fetch .forward))
        (.start h .forward)).1 =
      (List.range k).map fun i => .fetched (.ok h.tuples[i]?) := by
  intro h
  exact ⟨h.located, h.servesInOrder, ScanClient.answers_fetches (HeapScan.at_start h .forward)⟩

end Heap

end PullQuery
