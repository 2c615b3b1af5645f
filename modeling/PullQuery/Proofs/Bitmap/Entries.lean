import Mathlib.Algebra.BigOperators.Group.Finset.Basic
import Mathlib.Algebra.Order.BigOperators.Group.Finset
import PullQuery.Proofs.Bitmap.Programs
import PullQuery.Proofs.Bitmap.Laws

/-!
# Entries of a bitmap

What a bitmap counts against its limit is a sum over its blocks, so it is known as soon as the
pages are: an exact page counts for its offsets and a lossy one for itself. Shrinking makes the
first of the densest blocks lossy, as many as it takes.

## Main definitions

* `TidBitmap.blocks`, `TidBitmap.entriesOf`: the blocks of a bitmap, and what each counts for
* `TidBitmap.shrunk`: a bitmap with as many of its densest blocks lossy as it takes

## Main results

* `TidBitmap.totalEntries_eq_sum`
* `TidBitmap.totalEntries_add_sum_of_lossy`: what making blocks lossy changes
* `TidBitmap.lossifyUntil_eq_take`: which blocks a shrinking bitmap gives up
-/

namespace PullQuery

open Finset

/-- Sizes of the values are summed key by key. -/
theorem Assoc.sumBy_eq_sum {κ β : Type} [DecidableEq κ] (size : β → Nat) {xs : List (κ × β)}
    (h : (keys xs).Nodup) :
    sumBy (fun x => size x.2) xs = ∑ k ∈ (keys xs).toFinset, sizeAt size k xs := by
  induction xs with
  | nil => rfl
  | cons x xs ih =>
    obtain ⟨hx, hxs⟩ := List.nodup_cons.mp h
    have hnot : x.1 ∉ (keys xs).toFinset := fun hmem => hx (List.mem_toFinset.mp hmem)
    have hrest : ∑ k ∈ (keys xs).toFinset, sizeAt size k (x :: xs) =
        ∑ k ∈ (keys xs).toFinset, sizeAt size k xs := by
      apply sum_congr rfl
      intro k hk
      have hne : x.1 ≠ k := fun heq => hnot (heq ▸ hk)
      rw [sizeAt_cons, if_neg hne]
    have hkeys : (keys (x :: xs)).toFinset = insert x.1 (keys xs).toFinset :=
      List.toFinset_cons
    rw [sumBy_cons, hkeys, sum_insert hnot, hrest, ih hxs, sizeAt_cons, if_pos rfl]

/-- How much a page counts for: its offsets, or itself if it is lossy. -/
def PageEntry.entries (e : PageEntry) : Nat := e.exactSize + e.lossySize

namespace TidBitmap

variable {m m' : TidBitmap} {block : UInt32}

/-! ## Blocks -/

/-- The blocks with a page. -/
def blocks (m : TidBitmap) : Finset UInt32 := (Assoc.keys m.pages).toFinset

theorem mem_blocks_iff : block ∈ m.blocks ↔ (m.page? block).isSome = true := by
  rw [blocks, List.mem_toFinset, find?_isSome_iff]

theorem card_blocks (m : TidBitmap) : m.blocks.card = m.blockCount := by
  rw [blocks, List.toFinset_card_of_nodup m.blocks_nodup, Assoc.keys, List.length_map, blockCount]

/-- How much the page of a block counts for. -/
def entriesOf (m : TidBitmap) (block : UInt32) : Nat :=
  m.sizeOf PageEntry.entries block

theorem entriesOf_of_page?_eq (h : m'.page? block = m.page? block) :
    m'.entriesOf block = m.entriesOf block := by
  rw [entriesOf, entriesOf, sizeOf, sizeOf, h]

theorem entriesOf_of_page? {e : PageEntry} (h : m.page? block = some e) :
    m.entriesOf block = e.entries := by
  rw [entriesOf, sizeOf, h]
  rfl

/-- A block counts for more than one if its page is exact and has as many offsets. -/
theorem one_lt_entriesOf_iff :
    1 < m.entriesOf block ↔ ∃ s, m.page? block = some (.exact s) ∧ 1 < s.size := by
  constructor
  · intro h
    unfold entriesOf sizeOf at h
    rcases hpage : m.page? block with _ | s | _
    · simp [hpage] at h
    · rw [hpage] at h
      exact ⟨s, rfl, h⟩
    · simp [hpage, PageEntry.entries, PageEntry.exactSize, PageEntry.lossySize] at h
  · rintro ⟨s, hpage, hsize⟩
    rw [entriesOf_of_page? hpage]
    exact hsize

/-- The offsets of exact pages and the lossy pages are counted page by page. -/
theorem totalEntries_eq_sumBy (m : TidBitmap) :
    m.totalEntries = sumBy (fun p : Page => p.2.entries) m.pages := by
  rw [totalEntries, exactEntries_eq, lossyBlocks_eq]
  induction m.pages with
  | nil => rfl
  | cons p ps ih =>
    rw [sumBy_cons, sumBy_cons, sumBy_cons, ← ih, PageEntry.entries]
    omega

/-- A bitmap counts for what its blocks count for. -/
theorem totalEntries_eq_sum (m : TidBitmap) :
    m.totalEntries = ∑ b ∈ m.blocks, m.entriesOf b := by
  simp only [totalEntries_eq_sumBy, entriesOf, sizeOf_eq]
  exact Assoc.sumBy_eq_sum PageEntry.entries m.blocks_nodup

/-! ## Blocks that become lossy -/

/-- Each block that becomes lossy counts for one instead of what it counted for. -/
theorem totalEntries_add_sum_of_lossy {S : Finset UInt32} (hS : S ⊆ m.blocks)
    (h : ∀ b, m'.page? b = if b ∈ S then some .lossy else m.page? b) :
    m'.totalEntries + ∑ b ∈ S, m.entriesOf b = m.totalEntries + S.card := by
  have hblocks : m'.blocks = m.blocks := by
    ext b
    rw [mem_blocks_iff, mem_blocks_iff, h]
    split
    · next hb => simpa using mem_blocks_iff.mp (hS hb)
    · rfl
  have hlossy : ∑ b ∈ S, m'.entriesOf b = S.card := by
    rw [card_eq_sum_ones]
    apply sum_congr rfl
    intro b hb
    exact entriesOf_of_page? ((h b).trans (if_pos hb))
  have hothers : ∑ b ∈ m.blocks \ S, m'.entriesOf b = ∑ b ∈ m.blocks \ S, m.entriesOf b := by
    apply sum_congr rfl
    intro b hb
    exact entriesOf_of_page?_eq ((h b).trans (if_neg (mem_sdiff.mp hb).2))
  rw [totalEntries_eq_sum, totalEntries_eq_sum, hblocks, ← sum_sdiff hS, ← sum_sdiff hS, hlossy,
    hothers]
  omega

theorem page?_foldl_makeLossy (bs : List UInt32) (m : TidBitmap) (b : UInt32) :
    (bs.foldl makeLossy m).page? b = if b ∈ bs then some .lossy else m.page? b := by
  induction bs generalizing m with
  | nil => simp
  | cons b' bs ih =>
    rw [List.foldl_cons, ih, makeLossy, page?_put]
    by_cases hrest : b ∈ bs
    · simp [hrest]
    · simp [hrest]

/-- Shrinking makes the first blocks lossy, none of them before it has to, and leaves the others
alone as soon as the entries are few enough. -/
theorem lossifyUntil_eq_take (target : Nat) (bs : List UInt32) (m : TidBitmap) :
    ∃ k ≤ bs.length, lossifyUntil target bs m = (bs.take k).foldl makeLossy m ∧
      (k < bs.length → (lossifyUntil target bs m).totalEntries ≤ target) ∧
      ∀ j < k, target < ((bs.take j).foldl makeLossy m).totalEntries := by
  induction bs generalizing m with
  | nil => exact ⟨0, le_rfl, rfl, nofun, nofun⟩
  | cons b bs ih =>
    rw [lossifyUntil]
    split
    · next hfew => exact ⟨0, Nat.zero_le _, rfl, fun _ => hfew, nofun⟩
    · next hmany =>
      obtain ⟨k, hk, heq, hfew, hbefore⟩ := ih (m.makeLossy b)
      refine ⟨k + 1, Nat.succ_le_succ hk, heq, ?_, ?_⟩
      · intro hlt
        exact hfew (Nat.lt_of_succ_lt_succ hlt)
      · intro j hj
        cases j with
        | zero => exact Nat.lt_of_not_le hmany
        | succ j => exact hbefore j (Nat.lt_of_succ_lt_succ hj)

/-! ## The densest blocks -/

theorem shrinkable?_eq_some_iff {p : Page} {x : UInt32 × Nat} :
    shrinkable? p = some x ↔ ∃ s, p.2 = .exact s ∧ 1 < s.size ∧ (p.1, s.size) = x := by
  unfold shrinkable?
  rcases p.2 with s | _
  · by_cases h : 1 < s.size <;> simp [h]
  · simp

theorem mem_filterMap_shrinkable?_iff {x : UInt32 × Nat} :
    x ∈ m.pages.filterMap shrinkable? ↔
      ∃ s, m.page? x.1 = some (.exact s) ∧ 1 < s.size ∧ s.size = x.2 := by
  rw [List.mem_filterMap]
  constructor
  · rintro ⟨⟨b, e⟩, hp, hx⟩
    obtain ⟨s, rfl, hsize, rfl⟩ := shrinkable?_eq_some_iff.mp hx
    exact ⟨s, page?_eq_some_iff.mpr hp, hsize, rfl⟩
  · rintro ⟨s, hpage, hsize, heq⟩
    refine ⟨(x.1, .exact s), page?_eq_some_iff.mp hpage, ?_⟩
    exact shrinkable?_eq_some_iff.mpr ⟨s, rfl, hsize, by rw [heq]⟩

/-- The blocks that shrink are those with exact pages of two and more offsets. -/
theorem mem_shrinkableBlocks_iff :
    block ∈ m.shrinkableBlocks ↔ ∃ s, m.page? block = some (.exact s) ∧ 1 < s.size := by
  simp only [shrinkableBlocks, List.mem_map, mem_filterMap_shrinkable?_iff]
  constructor
  · rintro ⟨x, ⟨s, hpage, hsize, -⟩, rfl⟩
    exact ⟨s, hpage, hsize⟩
  · rintro ⟨s, hpage, hsize⟩
    exact ⟨(block, s.size), ⟨s, hpage, hsize, rfl⟩, rfl⟩

theorem nodup_shrinkableBlocks (m : TidBitmap) : m.shrinkableBlocks.Nodup := by
  have hsublist : ∀ ps : List Page,
      ((ps.filterMap shrinkable?).map (·.1)).Sublist (Assoc.keys ps) := by
    intro ps
    induction ps with
    | nil => exact .slnil
    | cons p ps ih =>
      rw [List.filterMap_cons, Assoc.keys, List.map_cons]
      split
      · exact ih.cons p.1
      · next x hx =>
        -- A page that shrinks is listed under its own block.
        obtain ⟨s, -, -, rfl⟩ := shrinkable?_eq_some_iff.mp hx
        exact ih.cons_cons p.1
  exact m.blocks_nodup.sublist (hsublist m.pages)

/-- Whether a list has the blocks that shrink, with denser ones first: equally dense ones may stand
in any order. -/
structure DensestFirst (m : TidBitmap) (order : List UInt32) : Prop where
  perm : order.Perm m.shrinkableBlocks
  sorted : order.Pairwise fun b b' => m.entriesOf b' ≤ m.entriesOf b

/-- Sorting puts denser blocks first. -/
theorem densestFirst_densestBlocks (m : TidBitmap) : m.DensestFirst m.densestBlocks where
  perm := (sortBy_perm _ (m.pages.filterMap shrinkable?)).map Prod.fst
  sorted := by
    rw [densestBlocks, List.pairwise_map]
    have hsorted : (sortBy (fun x y : UInt32 × Nat => y.2 ≤ x.2)
        (m.pages.filterMap shrinkable?)).Pairwise fun x y => decide (y.2 ≤ x.2) = true := by
      apply pairwise_sortBy
      · intro x y
        simpa using Nat.le_total y.2 x.2
      · intro x y z hxy hyz
        exact decide_eq_true ((of_decide_eq_true hyz).trans (of_decide_eq_true hxy))
    have hentries : ∀ x ∈ sortBy (fun x y : UInt32 × Nat => decide (y.2 ≤ x.2))
        (m.pages.filterMap shrinkable?), m.entriesOf x.1 = x.2 := by
      intro x hx
      obtain ⟨s, hpage, -, hsize⟩ := mem_filterMap_shrinkable?_iff.mp (mem_sortBy.mp hx)
      rw [entriesOf_of_page? hpage, ← hsize]
      rfl
    refine hsorted.imp_of_mem ?_
    intro x y hx hy hle
    rw [hentries x hx, hentries y hy]
    exact of_decide_eq_true hle

section Order

variable {order : List UInt32}

namespace DensestFirst

theorem nodup (ho : m.DensestFirst order) : order.Nodup :=
  ho.perm.nodup_iff.mpr m.nodup_shrinkableBlocks

theorem mem_iff (ho : m.DensestFirst order) :
    block ∈ order ↔ ∃ s, m.page? block = some (.exact s) ∧ 1 < s.size := by
  rw [ho.perm.mem_iff, mem_shrinkableBlocks_iff]

end DensestFirst

/-! ## Shrinking -/

/-- A bitmap with as many blocks lossy as it takes to shrink it. -/
def shrunk (m : TidBitmap) (order : List UInt32) : TidBitmap :=
  lossifyUntil m.shrinkTarget order m

theorem enforceTotalBy_of_le (h : m.totalEntries ≤ m.entryCap) : m.enforceTotalBy order = m :=
  if_pos h

/-- A bitmap with too many entries is left with the pages of the shrunk one. -/
theorem pages_enforceTotalBy (h : m.entryCap < m.totalEntries) :
    (m.enforceTotalBy order).pages = (m.shrunk order).pages := by
  rw [enforceTotalBy, if_neg (Nat.not_le.mpr h)]
  dsimp only
  split <;> rfl

theorem page?_enforceTotalBy (h : m.entryCap < m.totalEntries) (block : UInt32) :
    (m.enforceTotalBy order).page? block = (m.shrunk order).page? block := by
  rw [page?_eq_find?, pages_enforceTotalBy h, ← page?_eq_find?]

/-- The shrunk bitmap has lost the offsets of the first blocks. -/
theorem exists_page?_shrunk (m : TidBitmap) (order : List UInt32) : ∃ k ≤ order.length, ∀ b,
    (m.shrunk order).page? b = if b ∈ order.take k then some .lossy else m.page? b := by
  obtain ⟨k, hk, heq, -⟩ := lossifyUntil_eq_take m.shrinkTarget order m
  refine ⟨k, hk, ?_⟩
  intro b
  rw [shrunk, heq, page?_foldl_makeLossy]

/-- No block comes or goes when a bitmap shrinks. -/
theorem DensestFirst.blocks_enforceTotalBy (ho : m.DensestFirst order) :
    (m.enforceTotalBy order).blocks = m.blocks := by
  by_cases hcap : m.totalEntries ≤ m.entryCap
  · rw [enforceTotalBy_of_le hcap]
  · obtain ⟨k, -, hpages⟩ := m.exists_page?_shrunk order
    ext b
    rw [mem_blocks_iff, mem_blocks_iff, page?_enforceTotalBy (Nat.not_le.mp hcap), hpages]
    split
    · next hb =>
      obtain ⟨s, hpage, -⟩ := ho.mem_iff.mp (List.mem_of_mem_take hb)
      rw [hpage]
      rfl
    · rfl

/-- A bitmap without a page of two and more offsets has nothing to give up. -/
theorem DensestFirst.page?_enforceTotalBy_of_sparse (ho : m.DensestFirst order)
    (h : ∀ block s, m.page? block = some (.exact s) → s.size ≤ 1) (block : UInt32) :
    (m.enforceTotalBy order).page? block = m.page? block := by
  have hnil : order = [] := by
    apply List.eq_nil_iff_forall_not_mem.mpr
    intro b hb
    obtain ⟨s, hpage, hsize⟩ := ho.mem_iff.mp hb
    exact Nat.lt_irrefl 1 (Nat.lt_of_lt_of_le hsize (h b s hpage))
  by_cases hcap : m.totalEntries ≤ m.entryCap
  · rw [enforceTotalBy_of_le hcap]
  · rw [page?_enforceTotalBy (Nat.not_le.mp hcap), shrunk, hnil]
    rfl

end Order

end TidBitmap

end PullQuery
