import Mathlib.Data.List.Perm.Basic
import PullQuery.Proofs.Bitmap.Candidates

/-!
# Exact answers are never invented

A bitmap says of a tuple that it is an exact candidate only if it was told so. Giving up exact
pages makes fewer answers exact; a union has an exact answer from one of its sides, and an
intersection from both. An intersection has every common candidate as well.

## Main definitions

* `TidBitmap.IsExact`: whether a bitmap has a tuple as an exact candidate

## Main results

* `TidBitmap.IsExact.of_enforceTotalBy`
* `TidBitmap.IsExact.of_union`, `TidBitmap.IsExact.of_inter`
* `TidBitmap.HasCandidate.inter`
-/

namespace PullQuery

namespace TidBitmap

variable {m n : TidBitmap} {t : Tid} {block : UInt32} {entry : PageEntry}

/-- Whether a bitmap has a tuple as an exact candidate. -/
def IsExact (m : TidBitmap) (t : Tid) : Prop := m.lookup t = .exact

theorem isExact_iff :
    m.IsExact t ↔ ∃ s, m.page? t.block = some (.exact s) ∧ s.contains t.offset = true := by
  unfold IsExact lookup
  rcases m.page? t.block with _ | offsets | _
  · simp
  · by_cases h : offsets.contains t.offset = true <;> simp [h]
  · simp

theorem not_isExact_empty (limits : BitmapLimits) (t : Tid) : ¬ (empty limits).IsExact t := by
  intro h
  obtain ⟨s, hpage, -⟩ := isExact_iff.mp h
  contradiction

/-! ## Pages that are written -/

/-- An exact answer after a page was written comes from that page or was there before. -/
theorem IsExact.of_put (h : (m.put block entry).IsExact t) :
    m.IsExact t ∨ t.block = block ∧ ∃ s, entry = .exact s ∧ s.contains t.offset = true := by
  obtain ⟨s, hpage, hs⟩ := isExact_iff.mp h
  rw [page?_put] at hpage
  split at hpage
  · next hblock => exact .inr ⟨hblock, s, Option.some.inj hpage, hs⟩
  · exact .inl (isExact_iff.mpr ⟨s, hpage, hs⟩)

theorem IsExact.of_makeLossy (h : (m.makeLossy block).IsExact t) : m.IsExact t := by
  rcases h.of_put with h | ⟨-, s, hs, -⟩
  · exact h
  · contradiction

/-- A page within a limit is exact only with the offsets that it was given. -/
theorem limitedPage_eq_exact {offsets s : OffsetSet} (h : m.limitedPage offsets = .exact s) :
    offsets = s := by
  unfold limitedPage PageEntry.limited at h
  split at h
  · contradiction
  · exact PageEntry.exact.inj h

/-! ## Shrinking -/

/-- Giving up exact pages makes no answer exact. -/
theorem IsExact.of_enforceTotalBy {order : List UInt32} (h : (m.enforceTotalBy order).IsExact t) :
    m.IsExact t := by
  -- Each step leads back to the one before; a higher limit does not show in answers.
  have hback : (m.enforceTotalBy order).IsExact t → m.IsExact t :=
    enforceTotalBy_keeps (P := fun n => n.IsExact t → m.IsExact t)
      (fun _ _ hn hexact => hn hexact.of_makeLossy) (fun _ _ hn => hn) order id
  exact hback h

theorem IsExact.of_enforceTotal (h : m.enforceTotal.IsExact t) : m.IsExact t := h.of_enforceTotalBy

/-! ## Unions -/

theorem IsExact.of_mergePage {p : Page} (h : (m.mergePage p).IsExact t) :
    m.IsExact t ∨ ∃ s, p = (t.block, .exact s) ∧ s.contains t.offset = true := by
  obtain ⟨b, e⟩ := p
  unfold TidBitmap.mergePage at h
  split at h
  · exact .inl h
  · exact .inl h.of_makeLossy
  · next s u hpage hentry =>
    -- An exact offset of the united page is from one of the two.
    rcases h.of_put with h | ⟨rfl, v, hv, hoffset⟩
    · exact .inl h
    · obtain rfl := limitedPage_eq_exact hv
      rw [OffsetSet.contains_union, Bool.or_eq_true] at hoffset
      rcases hoffset with hs | hu
      · exact .inl (isExact_iff.mpr ⟨s, hpage, hs⟩)
      · exact .inr ⟨u, by rw [← hentry], hu⟩
  · next u hnone hentry =>
    rcases h.of_put with h | ⟨rfl, v, hv, hoffset⟩
    · exact .inl h
    · obtain rfl := limitedPage_eq_exact hv
      exact .inr ⟨u, by rw [← hentry], hoffset⟩

theorem IsExact.of_foldl_mergePage {ps : List Page} (h : (ps.foldl mergePage m).IsExact t) :
    m.IsExact t ∨ ∃ s, (t.block, .exact s) ∈ ps ∧ s.contains t.offset = true := by
  induction ps generalizing m with
  | nil => exact .inl h
  | cons p ps ih =>
    rcases ih h with h | ⟨s, hs, hoffset⟩
    · rcases h.of_mergePage with h | ⟨s, rfl, hoffset⟩
      · exact .inl h
      · exact .inr ⟨s, List.mem_cons_self .., hoffset⟩
    · exact .inr ⟨s, List.mem_cons_of_mem p hs, hoffset⟩

/-- An exact answer of a union is one of either side. -/
theorem IsExact.of_union (h : (m.union n).IsExact t) : m.IsExact t ∨ n.IsExact t := by
  rcases IsExact.of_foldl_mergePage h.of_enforceTotal with h | ⟨s, hs, hoffset⟩
  · exact .inl h
  · exact .inr (isExact_iff.mpr ⟨s, page?_eq_some_iff.mpr hs, hoffset⟩)

/-! ## Intersections -/

/-- A common candidate is one of the intersection. -/
theorem HasCandidate.inter (h : m.HasCandidate t) (h' : n.HasCandidate t) :
    (m.inter n).HasCandidate t := by
  obtain ⟨e, hpage, he⟩ := hasCandidate_iff.mp h
  obtain ⟨e', hpage', he'⟩ := hasCandidate_iff.mp h'
  refine HasCandidate.enforceTotal (hasCandidate_iff.mpr ⟨e.inter e', ?_, ?_⟩)
  · rw [page?_common, hpage, hpage', Option.bind_some, Option.map_some]
  · -- Only two exact pages have an exact intersection.
    rcases e with s | _ <;> rcases e' with s' | _
    · show (s.inter s').contains t.offset = true
      simp_all [PageEntry.Admits, OffsetSet.contains_inter]
    all_goals trivial

/-- An exact answer of an intersection is one of both sides. -/
theorem IsExact.of_inter (h : (m.inter n).IsExact t) : m.IsExact t ∧ n.IsExact t := by
  obtain ⟨s, hpage, hs⟩ := isExact_iff.mp h.of_enforceTotal
  rw [page?_common] at hpage
  obtain ⟨e, he, hpage⟩ := Option.bind_eq_some_iff.mp hpage
  obtain ⟨e', he', hinter⟩ := Option.map_eq_some_iff.mp hpage
  rcases e with u | _ <;> rcases e' with u' | _
  · obtain rfl := PageEntry.exact.inj hinter
    rw [OffsetSet.contains_inter, Bool.and_eq_true] at hs
    exact ⟨isExact_iff.mpr ⟨u, he, hs.1⟩, isExact_iff.mpr ⟨u', he', hs.2⟩⟩
  all_goals contradiction

/-- A bitmap with a candidate knows that it has some. -/
theorem HasCandidate.hasCandidates (h : m.HasCandidate t) : m.hasCandidates = true := by
  obtain ⟨e, hpage, he⟩ := hasCandidate_iff.mp h
  rw [TidBitmap.hasCandidates, Bool.or_eq_true, decide_eq_true_eq, decide_eq_true_eq]
  cases e with
  | exact s =>
    -- The page has an offset, which counts among the entries.
    exact .inr (Nat.lt_of_lt_of_le (OffsetSet.size_pos_of_contains he)
      (exactSize_le_exactEntries hpage))
  | lossy => exact .inl (lossySize_le_lossyBlocks hpage)

end TidBitmap

end PullQuery
