import PullQuery.Proofs.Bitmap.Entries

/-!
# Intersections without candidates

Once the intersection of bitmaps has lost its last candidate, its pages are exact and without
offsets. A further bitmap adds no offset to them, but a lossy page of it makes the page of its block
lossy, and so brings the tuples of the block back as candidates.

## Main definitions

* `TidBitmap.interAll`: the intersection of bitmaps from the first to the last
* `TidBitmap.Spent`: no page has an offset
* `TidBitmap.Dies`: the last candidate is lost on the way
* `TidBitmap.Revives`: a block comes back afterwards

## Main results

* `TidBitmap.Spent.isLossy_foldl_inter_iff`: which blocks become lossy
* `TidBitmap.lookup_interAll_ne_absent_iff`: which tuples come back
-/

namespace PullQuery

namespace TidBitmap

variable {m n : TidBitmap} {block : UInt32} {t : Tid}

/-- The intersection of bitmaps, each with the next. -/
def interAll (limits : BitmapLimits) : List TidBitmap → TidBitmap
  | [] => .empty limits
  | m :: ms => ms.foldl inter m

/-- Whether the last candidate is lost when a bitmap is met with others in turn. -/
def Dies (m : TidBitmap) (ms : List TidBitmap) : Prop :=
  ∃ before after, ms = before ++ after ∧ (before.foldl inter m).hasCandidates = false

/-- Whether the first bitmaps have no candidate in common, all bitmaps have a page for a block, and
one behind the first has a lossy one. -/
def Revives (ms : List TidBitmap) (block : UInt32) : Prop :=
  ∃ m before after, ms = m :: (before ++ after) ∧ (before.foldl inter m).hasCandidates = false ∧
    (∀ n ∈ ms, (n.page? block).isSome = true) ∧ ∃ n ∈ after, n.IsLossy block

theorem dies_nil_iff : Dies m [] ↔ m.hasCandidates = false := by
  constructor
  · rintro ⟨before, after, hnil, hdead⟩
    obtain ⟨rfl, -⟩ := List.nil_eq_append_iff.mp hnil
    exact hdead
  · intro hdead
    exact ⟨[], [], rfl, hdead⟩

theorem dies_cons_iff {ns : List TidBitmap} :
    Dies m (n :: ns) ↔ m.hasCandidates = false ∨ Dies (m.inter n) ns := by
  constructor
  · rintro ⟨before, after, hcons, hdead⟩
    rcases before with _ | ⟨n', before⟩
    · exact .inl hdead
    · obtain ⟨rfl, rfl⟩ := List.cons.inj hcons
      exact .inr ⟨before, after, rfl, hdead⟩
  · rintro (hdead | ⟨before, after, rfl, hdead⟩)
    · exact ⟨[], n :: ns, rfl, hdead⟩
    · exact ⟨n :: before, after, rfl, hdead⟩

/-- Only what was lost comes back. -/
theorem Revives.dies {ms : List TidBitmap} (h : Revives (m :: ms) block) : Dies m ms := by
  obtain ⟨m', before, after, heq, hdead, -⟩ := h
  obtain ⟨rfl, rfl⟩ := List.cons.inj heq
  exact ⟨before, after, rfl, hdead⟩

/-! ## Blocks with a page -/

/-- An intersection has a page for the blocks for which both sides have one. -/
theorem isSome_page?_inter : ((m.inter n).page? block).isSome = true ↔
    (m.page? block).isSome = true ∧ (n.page? block).isSome = true := by
  rw [← mem_blocks_iff, inter, enforceTotal,
    (densestFirst_densestBlocks _).blocks_enforceTotalBy, mem_blocks_iff, page?_common]
  rcases m.page? block with _ | e <;> rcases n.page? block with _ | e' <;> simp

theorem isSome_page?_foldl_inter {ns : List TidBitmap} :
    ((ns.foldl inter m).page? block).isSome = true ↔
      (m.page? block).isSome = true ∧ ∀ n ∈ ns, (n.page? block).isSome = true := by
  induction ns generalizing m with
  | nil => simp
  | cons n ns ih =>
    rw [List.foldl_cons, ih, isSome_page?_inter, List.forall_mem_cons]
    exact and_assoc

/-! ## Bitmaps without offsets -/

/-- Whether no page has an offset. -/
def Spent (m : TidBitmap) : Prop := ∀ block, PageEntry.Within 0 (m.page? block)

/-- A bitmap without candidates has no offset on its pages. -/
theorem spent_of_not_hasCandidates (h : m.hasCandidates = false) : m.Spent := by
  intro block s hpage
  have hsize : s.size ≤ m.exactEntries := exactSize_le_exactEntries hpage
  rw [hasCandidates, Bool.or_eq_false_iff, decide_eq_false_iff_not, decide_eq_false_iff_not] at h
  omega

/-- A bitmap without candidates has no lossy page. -/
theorem not_isLossy_of_not_hasCandidates (h : m.hasCandidates = false) : ¬ m.IsLossy block := by
  intro hlossy
  have hsize : 1 ≤ m.lossyBlocks := lossySize_le_lossyBlocks hlossy
  rw [hasCandidates, Bool.or_eq_false_iff, decide_eq_false_iff_not] at h
  omega

namespace Spent

/-- There is nothing to give up in an intersection with a bitmap without offsets. -/
theorem page?_inter (h : m.Spent) (n : TidBitmap) (block : UInt32) :
    (m.inter n).page? block = PageEntry.meet? (m.page? block) (n.page? block) := by
  rw [TidBitmap.inter, enforceTotal,
    (densestFirst_densestBlocks _).page?_enforceTotalBy_of_sparse, page?_common]
  · rfl
  · -- A page of the intersection has no more offsets than a page of `m` has.
    intro b s hpage
    rw [page?_common] at hpage
    exact ((h b).meet? s hpage).trans (Nat.zero_le 1)

theorem inter (h : m.Spent) (n : TidBitmap) : (m.inter n).Spent := by
  intro block
  rw [h.page?_inter]
  exact (h block).meet?

theorem foldl_inter (h : m.Spent) (ns : List TidBitmap) : (ns.foldl TidBitmap.inter m).Spent := by
  induction ns generalizing m with
  | nil => exact h
  | cons n ns ih => exact ih (h.inter n)

theorem isLossy_inter_iff (h : m.Spent) : (m.inter n).IsLossy block ↔
    (m.page? block).isSome = true ∧ (n.page? block).isSome = true ∧
      (m.IsLossy block ∨ n.IsLossy block) := by
  unfold IsLossy
  rw [h.page?_inter]
  rcases m.page? block with _ | _ | _ <;> rcases n.page? block with _ | _ | _ <;>
    simp [PageEntry.meet?, PageEntry.inter]

/-- A block becomes lossy in an intersection with bitmaps that all have a page for it, one of them a
lossy one. -/
theorem isLossy_foldl_inter_iff (h : m.Spent) {ns : List TidBitmap} :
    (ns.foldl TidBitmap.inter m).IsLossy block ↔ (m.page? block).isSome = true ∧
      (∀ n ∈ ns, (n.page? block).isSome = true) ∧
        (m.IsLossy block ∨ ∃ n ∈ ns, n.IsLossy block) := by
  induction ns generalizing m with
  | nil =>
    have hsome : m.IsLossy block → (m.page? block).isSome = true := by
      intro hlossy
      rw [hlossy.page?_eq]
      rfl
    simpa using hsome
  | cons n ns ih =>
    -- The first step leaves a bitmap without offsets, so the others do as the hypothesis says.
    rw [List.foldl_cons, ih (h.inter n), isSome_page?_inter, h.isLossy_inter_iff,
      List.forall_mem_cons, List.exists_mem_cons_iff]
    tauto

/-- A bitmap without offsets has the tuples on its lossy pages for candidates. -/
theorem lookup_ne_absent_iff (h : m.Spent) : m.lookup t ≠ .absent ↔ m.IsLossy t.block := by
  unfold IsLossy lookup
  rcases hpage : m.page? t.block with _ | s | _
  · simp
  · have hnot : ¬ s.contains t.offset = true := by
      intro hs
      have := OffsetSet.size_pos_of_contains hs
      have := h t.block s hpage
      omega
    simp [hnot]
  · simp

end Spent

/-! ## Tuples that come back -/

/-- After bitmaps without a common candidate, a tuple is a candidate again if every bitmap has a
page for its block and one of the further ones a lossy one. -/
theorem lookup_foldl_inter_ne_absent_iff {before after : List TidBitmap}
    (h : (before.foldl inter m).hasCandidates = false) :
    ((before ++ after).foldl inter m).lookup t ≠ .absent ↔
      (∀ n ∈ m :: (before ++ after), (n.page? t.block).isSome = true) ∧
        ∃ n ∈ after, n.IsLossy t.block := by
  have hspent := spent_of_not_hasCandidates h
  have hnot : ¬ (before.foldl inter m).IsLossy t.block := not_isLossy_of_not_hasCandidates h
  rw [List.foldl_append, (hspent.foldl_inter after).lookup_ne_absent_iff,
    hspent.isLossy_foldl_inter_iff, isSome_page?_foldl_inter, List.forall_mem_cons,
    List.forall_mem_append]
  tauto

/-- What comes back does not depend on where the last candidate was lost. -/
theorem lookup_interAll_ne_absent_iff (limits : BitmapLimits) {ms : List TidBitmap}
    (h : Dies m ms) :
    (interAll limits (m :: ms)).lookup t ≠ .absent ↔ Revives (m :: ms) t.block := by
  obtain ⟨before, after, rfl, hdead⟩ := h
  rw [interAll, lookup_foldl_inter_ne_absent_iff hdead]
  constructor
  · rintro ⟨hpages, hlossy⟩
    exact ⟨m, before, after, rfl, hdead, hpages, hlossy⟩
  · rintro ⟨m', before', after', heq, hdead', hpages, hlossy⟩
    obtain ⟨rfl, hrest⟩ := List.cons.inj heq
    -- Split at either place, it is the same intersection that has the tuple as a candidate.
    rw [← lookup_foldl_inter_ne_absent_iff hdead, hrest, lookup_foldl_inter_ne_absent_iff hdead',
      ← hrest]
    exact ⟨hpages, hlossy⟩

end TidBitmap

end PullQuery
