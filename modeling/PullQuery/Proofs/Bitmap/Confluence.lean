import Mathlib.Data.Set.Card
import PullQuery.Proofs.Bitmap.Additions

/-!
# Bitmaps built in any order

A bitmap without a limit on its entries is built from tuples and whole blocks. A page may become
lossy early or late, so that different orders pass through different bitmaps; but what is known
about a block in the end depends only on what was added, not on the order or on repeats, and a
bitmap built in two parts is the union of the parts.

## Main definitions

* `Addition`, `TidBitmap.addAll`, `TidBitmap.built`
* `Addition.summary`: what additions say about a block

## Main results

* `Addition.summary_append`: additions in two parts say what the parts say together
* `TidBitmap.Uniform.page?_addAll`: additions merge what they say into a bitmap
* `TidBitmap.built_determined`
-/

namespace PullQuery

/-! ## Sets of offsets -/

namespace OffsetSet

/-- The set of the offsets of a list. -/
def ofList (os : List UInt16) : OffsetSet := os.foldl insert empty

theorem contains_foldl_insert (s : OffsetSet) (os : List UInt16) (o : UInt16) :
    (os.foldl insert s).contains o = (decide (o ∈ os) || s.contains o) := by
  induction os generalizing s with
  | nil => simp
  | cons p os ih =>
    rw [List.foldl_cons, ih, contains_insert]
    by_cases ho : o = p
    · simp [ho]
    · simp [ho]

@[simp]
theorem contains_ofList (os : List UInt16) (o : UInt16) :
    (ofList os).contains o = decide (o ∈ os) := by
  rw [ofList, contains_foldl_insert, contains_empty, Bool.or_false]

theorem ofList_append (os ps : List UInt16) :
    ofList (os ++ ps) = (ofList os).union (ofList ps) := by
  apply ext_contains
  intro o
  simp

theorem insert_eq_union (s : OffsetSet) (o : UInt16) : s.insert o = s.union (ofList [o]) := by
  apply ext_contains
  intro p
  simp [Bool.or_comm]

theorem ofList_congr {os ps : List UInt16} (h : ∀ o, o ∈ os ↔ o ∈ ps) : ofList os = ofList ps := by
  apply ext_contains
  intro o
  simp [h]

/-- A set counts its members. -/
theorem size_eq_ncard (s : OffsetSet) : s.size = {o | s.contains o = true}.ncard := by
  have hmembers : {o | s.contains o = true} = (s.members : Set UInt16) := by
    ext o
    exact s.valid.mem_members.symm
  rw [hmembers, Set.ncard_coe_finset, s.valid.size_eq_card]

end OffsetSet

/-! ## What additions say about a block -/

/-- Two sets of which one may be too large already. -/
theorem PageEntry.merge?_limited_limited (limit : Nat) (s t : OffsetSet) :
    merge? limit (some (limited limit s)) (some (limited limit t)) =
      some (limited limit (s.union t)) := by
  by_cases hs : limit < s.size
  · have hunion := Nat.lt_of_lt_of_le hs (s.size_le_union_left t)
    rw [limited_of_lt hs, limited_of_lt hunion, lossy_merge?]
  · rw [limited_of_le (Nat.le_of_not_lt hs), merge?_limited]

/-- What is added to a bitmap: a tuple, or a whole block that is to be checked again. -/
inductive Addition where
  | tid (t : Tid)
  | block (block : UInt32)
deriving DecidableEq

namespace Addition

variable {xs ys : List Addition} {limit : Nat} {block : UInt32}

/-- The offset that an addition names in a block. -/
def offset? (block : UInt32) : Addition → Option UInt16
  | tid t => if t.block = block then some t.offset else none
  | Addition.block _ => none

/-- The offsets that additions name in a block, in order and with repeats. -/
def offsets (block : UInt32) (xs : List Addition) : List UInt16 := xs.filterMap (offset? block)

/-- What additions say about a block, if exact pages hold at most `limit` offsets. -/
def summary (limit : Nat) (xs : List Addition) (block : UInt32) : Option PageEntry :=
  if .block block ∈ xs then some .lossy
  else if offsets block xs = [] then none
  else some (.limited limit (.ofList (offsets block xs)))

theorem mem_offsets_iff {o : UInt16} : o ∈ offsets block xs ↔ .tid ⟨block, o⟩ ∈ xs := by
  rw [offsets, List.mem_filterMap]
  constructor
  · rintro ⟨t | b, hmem, ho⟩
    · simp only [offset?, Option.ite_none_right_eq_some, Option.some.injEq] at ho
      obtain ⟨rfl, rfl⟩ := ho
      exact hmem
    · contradiction
  · intro h
    exact ⟨_, h, if_pos rfl⟩

theorem offsets_append (block : UInt32) (xs ys : List Addition) :
    offsets block (xs ++ ys) = offsets block xs ++ offsets block ys := List.filterMap_append

theorem within_summary (limit : Nat) (xs : List Addition) (block : UInt32) :
    PageEntry.Within limit (summary limit xs block) := by
  unfold summary
  split
  · exact PageEntry.within_lossy limit
  · split
    · nofun
    · exact PageEntry.within_limited limit _

/-- Additions in two parts say about a block what the parts say together. -/
theorem summary_append (limit : Nat) (xs ys : List Addition) (block : UInt32) :
    summary limit (xs ++ ys) block =
      PageEntry.merge? limit (summary limit xs block) (summary limit ys block) := by
  by_cases hx : .block block ∈ xs
  · simp [summary, hx, PageEntry.lossy_merge?]
  by_cases hy : .block block ∈ ys
  · simp [summary, hy, PageEntry.merge?_lossy]
  -- The block is added in neither part, and only the offsets count.
  have hxs : summary limit xs block = if offsets block xs = [] then none
      else some (.limited limit (.ofList (offsets block xs))) := if_neg hx
  have hys : summary limit ys block = if offsets block ys = [] then none
      else some (.limited limit (.ofList (offsets block ys))) := if_neg hy
  have hboth : Addition.block block ∉ xs ++ ys := by simp [hx, hy]
  rw [summary, if_neg hboth, offsets_append]
  by_cases hox : offsets block xs = []
  · rw [hxs, if_pos hox, hox, List.nil_append,
      PageEntry.none_merge? (within_summary limit ys block), hys]
  · by_cases hoy : offsets block ys = []
    · rw [hys, if_pos hoy, hoy, List.append_nil, PageEntry.merge?_none, hxs]
    · rw [hxs, hys, if_neg hox, if_neg hoy, PageEntry.merge?_limited_limited,
        if_neg (by simp [hox]), OffsetSet.ofList_append]

/-- The order of additions and their repeats do not matter to what they say. -/
theorem summary_congr (h : ∀ x, x ∈ xs ↔ x ∈ ys) :
    summary limit xs block = summary limit ys block := by
  have hoffsets : ∀ o, o ∈ offsets block xs ↔ o ∈ offsets block ys := by
    intro o
    rw [mem_offsets_iff, mem_offsets_iff, h]
  have hnil : offsets block xs = [] ↔ offsets block ys = [] := by
    rw [List.eq_nil_iff_forall_not_mem, List.eq_nil_iff_forall_not_mem]
    exact forall_congr' fun o => not_congr (hoffsets o)
  simp only [summary, h, hnil, OffsetSet.ofList_congr hoffsets]

/-- A block is lossy if it was added as such or if too many of its offsets were. -/
theorem summary_eq_lossy_iff : summary limit xs block = some .lossy ↔
    .block block ∈ xs ∨ limit < {o | Addition.tid ⟨block, o⟩ ∈ xs}.ncard := by
  have hcount : (OffsetSet.ofList (offsets block xs)).size =
      {o | Addition.tid ⟨block, o⟩ ∈ xs}.ncard := by
    rw [OffsetSet.size_eq_ncard]
    simp only [OffsetSet.contains_ofList, decide_eq_true_eq, mem_offsets_iff]
  rw [← hcount]
  by_cases hblock : .block block ∈ xs
  · simp [summary, hblock]
  · rw [summary, if_neg hblock]
    split
    · next hnil => simp [hblock, hnil, OffsetSet.ofList, OffsetSet.empty]
    · simp [hblock, PageEntry.limited]

end Addition

/-! ## Bitmaps -/

namespace TidBitmap

variable {m : TidBitmap} {limit : Nat}

/-- Adds a tuple or a block. -/
def add (m : TidBitmap) : Addition → TidBitmap
  | .tid t => m.addTid t
  | .block block => m.addBlock block

/-- Adds tuples and blocks in turn. -/
def addAll (m : TidBitmap) (xs : List Addition) : TidBitmap := xs.foldl add m

/-- The bitmap built from additions, under a limit for each block and none on the entries. -/
def built (limit : Nat) (xs : List Addition) : TidBitmap := (empty ⟨limit, maxCount⟩).addAll xs

namespace Uniform

theorem add (h : Uniform limit m) (x : Addition) : Uniform limit (m.add x) := by
  cases x with
  | tid t => exact h.addTid t
  | block block => exact h.addBlock block

theorem addAll (h : Uniform limit m) (xs : List Addition) : Uniform limit (m.addAll xs) := by
  induction xs generalizing m with
  | nil => exact h
  | cons x xs ih => exact ih (h.add x)

/-- Adding a tuple writes the page of its block, unless the page is lossy. -/
theorem page?_addTid (h : Uniform limit m) (t : Tid) (block : UInt32) :
    (m.addTid t).page? block = PageEntry.merge? limit (m.page? block)
      (Addition.summary limit [.tid t] block) := by
  have hwritten (s : OffsetSet) : ((m.put t.block (m.limitedPage s)).enforceTotal).page? block =
      if block = t.block then some (.limited limit s) else m.page? block := by
    have hcap : (m.put t.block (m.limitedPage s)).entryCap = maxCount := h.entryCap_eq
    rw [enforceTotal_of_cap hcap, page?_put, h.limitedPage_eq]
  by_cases hblock : block = t.block
  · subst hblock
    have hsummary : Addition.summary limit [.tid t] t.block =
        some (.limited limit (.ofList [t.offset])) := by
      simp [Addition.summary, Addition.offsets, Addition.offset?]
    rw [hsummary, TidBitmap.addTid]
    rcases hpage : m.page? t.block with _ | s | _
    · rw [hwritten, if_pos rfl, PageEntry.none_merge? (PageEntry.within_limited limit _)]
      rfl
    · rw [hwritten, if_pos rfl, PageEntry.merge?_limited, OffsetSet.insert_eq_union]
    · rw [PageEntry.lossy_merge?]
      exact hpage
  · -- The tuple says nothing about any other block.
    have hsummary : Addition.summary limit [.tid t] block = none := by
      simp [Addition.summary, Addition.offsets, Addition.offset?, Ne.symm hblock]
    rw [hsummary, PageEntry.merge?_none, TidBitmap.addTid]
    split
    · rfl
    · exact (hwritten _).trans (if_neg hblock)
    · exact (hwritten _).trans (if_neg hblock)

theorem page?_addBlock (h : Uniform limit m) (b block : UInt32) :
    (m.addBlock b).page? block = PageEntry.merge? limit (m.page? block)
      (Addition.summary limit [.block b] block) := by
  rw [TidBitmap.addBlock, (h.makeLossy b).enforceTotal, TidBitmap.makeLossy, page?_put]
  by_cases hblock : block = b
  · simp [Addition.summary, hblock, PageEntry.merge?_lossy]
  · simp [Addition.summary, Addition.offsets, Addition.offset?, hblock, PageEntry.merge?_none]

theorem page?_add (h : Uniform limit m) (x : Addition) (block : UInt32) :
    (m.add x).page? block =
      PageEntry.merge? limit (m.page? block) (Addition.summary limit [x] block) := by
  cases x with
  | tid t => exact h.page?_addTid t block
  | block b => exact h.page?_addBlock b block

/-- Additions merge what they say about a block into what the bitmap knows about it. -/
theorem page?_addAll (h : Uniform limit m) (xs : List Addition) (block : UInt32) :
    (m.addAll xs).page? block =
      PageEntry.merge? limit (m.page? block) (Addition.summary limit xs block) := by
  induction xs generalizing m with
  | nil => exact (PageEntry.merge?_none limit _).symm
  | cons x xs ih =>
    calc ((m.add x).addAll xs).page? block
      _ = PageEntry.merge? limit ((m.add x).page? block) (Addition.summary limit xs block) :=
        ih (h.add x)
      _ = PageEntry.merge? limit (m.page? block) (PageEntry.merge? limit
          (Addition.summary limit [x] block) (Addition.summary limit xs block)) := by
        rw [h.page?_add, PageEntry.merge?_assoc (h.within block)
          (Addition.within_summary limit [x] block) (Addition.within_summary limit xs block)]
      _ = PageEntry.merge? limit (m.page? block) (Addition.summary limit (x :: xs) block) := by
        rw [← Addition.summary_append, List.singleton_append]

end Uniform

theorem page?_built (limit : Nat) (xs : List Addition) (block : UInt32) :
    (built limit xs).page? block = Addition.summary limit xs block := by
  rw [built, (uniform_empty limit).page?_addAll, page?_empty,
    PageEntry.none_merge? (Addition.within_summary limit xs block)]

/-- Without a limit on the entries, a bitmap is determined by what was added to it: neither the
order nor repeats matter, what is added in two parts gives the union of the parts, and a block is
lossy if it was added as a whole or more of its offsets were than the limit allows. -/
theorem built_determined (limit : Nat) (xs ys : List Addition) :
    ((∀ x, x ∈ ys ↔ x ∈ xs) → (built limit ys == built limit xs) = true) ∧
      (built limit (xs ++ ys) == (built limit xs).union (built limit ys)) = true ∧
      ∀ block, (built limit xs).isLossy? block = some true ↔
        .block block ∈ xs ∨ limit < {o | Addition.tid ⟨block, o⟩ ∈ xs}.ncard := by
  refine ⟨?_, ?_, ?_⟩
  · intro h
    rw [beq_iff]
    intro block
    rw [page?_built, page?_built, Addition.summary_congr h]
  · rw [beq_iff]
    intro block
    have hxs : Uniform limit (built limit xs) := (uniform_empty limit).addAll xs
    rw [hxs.page?_union, page?_built, page?_built, page?_built, Addition.summary_append]
  · intro block
    rw [isLossy?_eq_some_true_iff, IsLossy, page?_built, Addition.summary_eq_lossy_iff]

/-- Three tuples of one block, one tuple of another and a whole block, under a limit of two. -/
def fiveAdditions : List Addition :=
  [.tid ⟨0, 1⟩, .tid ⟨0, 2⟩, .tid ⟨1, 9⟩, .block 2, .tid ⟨0, 3⟩]

/-- The block overflows with its last tuple here, and before it there. -/
theorem built_determined_fiveAdditions :
    (∀ x, x ∈ [Addition.block 2, .tid ⟨0, 3⟩, .tid ⟨0, 2⟩, .tid ⟨0, 3⟩, .tid ⟨0, 1⟩, .tid ⟨0, 2⟩,
        .tid ⟨1, 9⟩] ↔ x ∈ fiveAdditions) ∧
      (built 2 [.block 2, .tid ⟨0, 3⟩, .tid ⟨0, 2⟩, .tid ⟨0, 3⟩, .tid ⟨0, 1⟩, .tid ⟨0, 2⟩,
        .tid ⟨1, 9⟩] == built 2 fiveAdditions) = true ∧
      (built 2 fiveAdditions).isLossy? 0 = some true := by
  have hsame : ∀ x, x ∈ [Addition.block 2, .tid ⟨0, 3⟩, .tid ⟨0, 2⟩, .tid ⟨0, 3⟩, .tid ⟨0, 1⟩,
      .tid ⟨0, 2⟩, .tid ⟨1, 9⟩] ↔ x ∈ fiveAdditions := by
    intro x
    simp only [fiveAdditions, List.mem_cons, List.not_mem_nil, or_false]
    tauto
  obtain ⟨hequal, -, -⟩ := built_determined 2 fiveAdditions [.block 2, .tid ⟨0, 3⟩, .tid ⟨0, 2⟩,
    .tid ⟨0, 3⟩, .tid ⟨0, 1⟩, .tid ⟨0, 2⟩, .tid ⟨1, 9⟩]
  exact ⟨hsame, hequal hsame, by decide⟩

end TidBitmap

end PullQuery
