import PullQuery.Proofs.Bitmap.Exactness
import PullQuery.Proofs.Bitmap.Laws

/-!
# All observers of a bitmap agree

A bitmap can be asked for one tuple, for one block, for its pages, for its exact candidates and
for its counts, and it can be compared with another bitmap. All the answers follow from what it
knows about its blocks, so each of them can be read off the pages that it lists.

## Main results

* `TidBitmap.mem_toPages_iff`, `TidBitmap.pairwise_toPages`: which pages are listed, in which order
* `TidBitmap.mem_exactTids_iff`, `TidBitmap.pairwise_exactTids`
* `TidBitmap.exactEntries_eq_length`, `TidBitmap.lossyBlocks_eq_countP`: the counts
* `TidBitmap.beq_iff_observed`: equal bitmaps are those with equal answers on every block
* `TidBitmap.observers_agree`
-/

namespace PullQuery

namespace TidBitmap

variable {m n : TidBitmap} {t : Tid} {c : CandidatePage}

/-! ## Pages -/

theorem candidatePage?_eq_some_iff {p : Page} :
    candidatePage? p = some c ↔ (p.2 = .lossy ∧ ⟨p.1, [], true⟩ = c) ∨
      ∃ s, p.2 = .exact s ∧ 0 < s.size ∧ ⟨p.1, s.toList, false⟩ = c := by
  unfold candidatePage?
  rcases p.2 with s | _
  · by_cases h : 0 < s.size <;> simp [h]
  · simp

/-- A page keeps its block when it is listed. -/
theorem block_of_candidatePage? {p : Page} (h : candidatePage? p = some c) : c.block = p.1 := by
  rcases candidatePage?_eq_some_iff.mp h with ⟨-, rfl⟩ | ⟨s, -, -, rfl⟩ <;> rfl

/-- The listed pages are the lossy ones and the exact ones with offsets. -/
theorem mem_toPages_iff :
    c ∈ m.toPages ↔ (m.page? c.block = some .lossy ∧ c.offsets = [] ∧ c.recheck = true) ∨
      ∃ s, m.page? c.block = some (.exact s) ∧ 0 < s.size ∧ c.offsets = s.toList ∧
        c.recheck = false := by
  simp only [toPages, List.mem_filterMap, mem_sortBy]
  constructor
  · rintro ⟨⟨b, e⟩, hp, hc⟩
    have hpage := page?_eq_some_iff.mpr hp
    rcases candidatePage?_eq_some_iff.mp hc with ⟨rfl, rfl⟩ | ⟨s, rfl, hsize, rfl⟩
    · exact .inl ⟨hpage, rfl, rfl⟩
    · exact .inr ⟨s, hpage, hsize, rfl, rfl⟩
  · rcases c with ⟨b, offsets, recheck⟩
    rintro (⟨hpage, rfl, rfl⟩ | ⟨s, hpage, hsize, rfl, rfl⟩)
    · exact ⟨(b, .lossy), page?_eq_some_iff.mp hpage, rfl⟩
    · refine ⟨(b, .exact s), page?_eq_some_iff.mp hpage, ?_⟩
      exact candidatePage?_eq_some_iff.mpr (.inr ⟨s, rfl, hsize, rfl⟩)

/-- The pages are listed by increasing block. -/
theorem pairwise_toPages (m : TidBitmap) : m.toPages.Pairwise fun c c' => c.block < c'.block := by
  let sorted := sortBy (fun p q : Page => p.1 ≤ q.1) m.pages
  have hle : sorted.Pairwise fun p q => decide (p.1 ≤ q.1) = true := by
    apply pairwise_sortBy
    · intro p q
      simpa using UInt32.le_total p.1 q.1
    · intro p q r hpq hqr
      exact decide_eq_true (UInt32.le_trans (of_decide_eq_true hpq) (of_decide_eq_true hqr))
  have hne : sorted.Pairwise fun p q => p.1 ≠ q.1 := by
    have hperm : (sorted.map Prod.fst).Perm (Assoc.keys m.pages) := (sortBy_perm _ m.pages).map _
    exact List.pairwise_map.mp (hperm.nodup_iff.mpr m.blocks_nodup)
  rw [toPages, List.pairwise_filterMap]
  refine (hle.and hne).imp ?_
  rintro p q ⟨hle, hne⟩ c hc c' hc'
  rw [block_of_candidatePage? hc, block_of_candidatePage? hc']
  exact UInt32.lt_of_le_of_ne (of_decide_eq_true hle) hne

/-- A listed page is to be checked again as a whole, or lists offsets in order. -/
theorem shape_of_mem_toPages (h : c ∈ m.toPages) :
    (c.recheck = true ∧ c.offsets = []) ∨
      (c.recheck = false ∧ c.offsets ≠ [] ∧ c.offsets.Pairwise fun o o' => o < o') := by
  rcases mem_toPages_iff.mp h with ⟨-, hoffsets, hrecheck⟩ | ⟨s, -, hsize, hoffsets, hrecheck⟩
  · exact .inl ⟨hrecheck, hoffsets⟩
  · refine .inr ⟨hrecheck, ?_, hoffsets ▸ s.pairwise_toList⟩
    rw [hoffsets, ← List.length_pos_iff, s.length_toList]
    exact hsize

/-! ## Tuples -/

theorem lookup_eq_exact_iff :
    m.lookup t = .exact ↔ ∃ c ∈ m.toPages, c.block = t.block ∧ t.offset ∈ c.offsets := by
  constructor
  · intro h
    obtain ⟨s, hpage, hs⟩ := isExact_iff.mp h
    refine ⟨⟨t.block, s.toList, false⟩, ?_, rfl, OffsetSet.mem_toList.mpr hs⟩
    exact mem_toPages_iff.mpr (.inr ⟨s, hpage, OffsetSet.size_pos_of_contains hs, rfl, rfl⟩)
  · rintro ⟨c, hc, hblock, hoffset⟩
    rcases mem_toPages_iff.mp hc with ⟨-, hoffsets, -⟩ | ⟨s, hpage, -, hoffsets, -⟩
    · rw [hoffsets] at hoffset
      contradiction
    · rw [hoffsets, OffsetSet.mem_toList] at hoffset
      exact isExact_iff.mpr ⟨s, hblock ▸ hpage, hoffset⟩

theorem lookup_eq_recheck_iff :
    m.lookup t = .recheck ↔ ∃ c ∈ m.toPages, c.block = t.block ∧ c.recheck = true := by
  have hlookup : m.lookup t = .recheck ↔ m.page? t.block = some .lossy := by
    rw [lookup]
    rcases m.page? t.block with _ | s | _
    · simp
    · by_cases hs : s.contains t.offset = true <;> simp [hs]
    · simp
  rw [hlookup]
  constructor
  · intro hpage
    exact ⟨⟨t.block, [], true⟩, mem_toPages_iff.mpr (.inl ⟨hpage, rfl, rfl⟩), rfl, rfl⟩
  · rintro ⟨c, hc, hblock, hrecheck⟩
    rcases mem_toPages_iff.mp hc with ⟨hpage, -, -⟩ | ⟨s, -, -, -, hexact⟩
    · exact hblock ▸ hpage
    · rw [hrecheck] at hexact
      contradiction

/-- A tuple is an exact candidate when a page lists its offset. -/
theorem mem_exactTids_iff : t ∈ m.exactTids ↔ m.lookup t = .exact := by
  rw [lookup_eq_exact_iff]
  simp only [exactTids, List.mem_flatMap, List.mem_filter, List.mem_map]
  constructor
  · rintro ⟨c, ⟨hc, -⟩, o, ho, rfl⟩
    exact ⟨c, hc, rfl, ho⟩
  · rintro ⟨c, hc, hblock, hoffset⟩
    refine ⟨c, ⟨hc, ?_⟩, t.offset, hoffset, by rw [hblock]⟩
    -- A page that is to be checked again lists no offset.
    rcases shape_of_mem_toPages hc with ⟨-, hoffsets⟩ | ⟨hrecheck, -⟩
    · rw [hoffsets] at hoffset
      contradiction
    · rw [hrecheck]
      rfl

theorem pairwise_exactTids (m : TidBitmap) : m.exactTids.Pairwise fun t t' => t < t' := by
  rw [exactTids, List.pairwise_flatMap]
  constructor
  · intro c hc
    rw [List.pairwise_map]
    rcases shape_of_mem_toPages (List.mem_filter.mp hc).1 with ⟨-, hoffsets⟩ | ⟨-, -, hordered⟩
    · rw [hoffsets]
      exact .nil
    · refine hordered.imp ?_
      intro o o' hlt
      exact Tid.lt_iff.mpr (.inr ⟨rfl, hlt⟩)
  · refine (m.pairwise_toPages.filter _).imp ?_
    intro c c' hlt t ht t' ht'
    obtain ⟨o, -, rfl⟩ := List.mem_map.mp ht
    obtain ⟨o', -, rfl⟩ := List.mem_map.mp ht'
    exact Tid.lt_iff.mpr (.inl hlt)

/-! ## Counts -/

/-- The counter of exact entries counts the exact candidates. -/
theorem exactEntries_eq_length (m : TidBitmap) : m.exactEntries = m.exactTids.length := by
  have hlisted : ∀ ps : List Page,
      (((ps.filterMap candidatePage?).filter (!·.recheck)).flatMap fun c =>
        c.offsets.map fun o => Tid.mk c.block o).length = sumBy (fun p => p.2.exactSize) ps := by
    intro ps
    induction ps with
    | nil => rfl
    | cons p ps ih =>
      rw [List.filterMap_cons, sumBy_cons, ← ih, candidatePage?]
      rcases p.2 with s | _
      · by_cases hsize : 0 < s.size
        · simp [hsize, PageEntry.exactSize, s.length_toList]
        · simp [hsize, PageEntry.exactSize]
          omega
      · simp [PageEntry.exactSize]
  rw [m.exactEntries_eq, exactTids, toPages, hlisted]
  exact sumBy_perm _ (sortBy_perm _ _).symm

/-- The counter of lossy blocks counts the pages that are to be checked again. -/
theorem lossyBlocks_eq_countP (m : TidBitmap) : m.lossyBlocks = m.toPages.countP (·.recheck) := by
  have hlisted : ∀ ps : List Page,
      (ps.filterMap candidatePage?).countP (·.recheck) = sumBy (fun p => p.2.lossySize) ps := by
    intro ps
    induction ps with
    | nil => rfl
    | cons p ps ih =>
      rw [List.filterMap_cons, sumBy_cons, ← ih, candidatePage?]
      rcases p.2 with s | _
      · by_cases hsize : 0 < s.size <;> simp [hsize, PageEntry.lossySize]
      · simp [PageEntry.lossySize, Nat.add_comm]
  rw [m.lossyBlocks_eq, toPages, hlisted]
  exact sumBy_perm _ (sortBy_perm _ _).symm

/-- The counters are zero exactly if no page is listed. -/
theorem hasCandidates_iff : m.hasCandidates = true ↔ m.toPages ≠ [] := by
  rw [hasCandidates, Bool.or_eq_true, decide_eq_true_eq, decide_eq_true_eq,
    m.lossyBlocks_eq_countP, m.exactEntries_eq_length, List.countP_pos_iff, List.length_pos_iff]
  constructor
  · rintro (⟨c, hc, -⟩ | hsome) hnone
    · rw [hnone] at hc
      contradiction
    · exact hsome (by simp [exactTids, hnone])
  · intro hsome
    obtain ⟨c, hc⟩ := List.exists_mem_of_ne_nil _ hsome
    rcases shape_of_mem_toPages hc with ⟨hrecheck, -⟩ | ⟨-, hoffsets, -⟩
    · exact .inl ⟨c, hc, hrecheck⟩
    · obtain ⟨o, ho⟩ := List.exists_mem_of_ne_nil _ hoffsets
      have hmem : (⟨c.block, o⟩ : Tid) ∈ m.exactTids :=
        mem_exactTids_iff.mpr (lookup_eq_exact_iff.mpr ⟨c, hc, rfl, ho⟩)
      exact .inr (List.ne_nil_of_mem hmem)

/-! ## Equality -/

theorem page?_eq_iff {block : UInt32} : m.page? block = n.page? block ↔
    m.isLossy? block = n.isLossy? block ∧ m.offsets? block = n.offsets? block := by
  unfold isLossy? offsets?
  constructor
  · intro h
    rw [h]
    exact ⟨rfl, rfl⟩
  · rcases m.page? block with _ | s | _ <;> rcases n.page? block with _ | s' | _
    case some.exact.some.exact =>
      rintro ⟨-, hoffsets⟩
      rw [OffsetSet.toList_inj.mp (Option.some.inj hoffsets)]
    all_goals simp [PageEntry.isLossy]

/-- Equal bitmaps are those that say the same of every block. -/
theorem beq_iff_observed : (m == n) = true ↔ ∀ block,
    m.isLossy? block = n.isLossy? block ∧ m.offsets? block = n.offsets? block := by
  rw [beq_iff]
  exact forall_congr' fun _ => page?_eq_iff

/-! ## All observers -/

/-- However a bitmap was built, its observers agree. Its pages are listed by increasing block, each
either to be checked again or with offsets in order; a tuple is an exact candidate if it is listed,
and to be checked again if its block is; the exact candidates are listed in order; the counters
count what is listed; and bitmaps are equal when they say the same of every block. -/
theorem observers_agree (m : TidBitmap) :
    (m.toPages.Pairwise fun c c' => c.block < c'.block) ∧
      (∀ c ∈ m.toPages, (c.recheck = true ∧ c.offsets = []) ∨
        (c.recheck = false ∧ c.offsets ≠ [] ∧ c.offsets.Pairwise fun o o' => o < o')) ∧
      (∀ t, m.lookup t = .exact ↔ ∃ c ∈ m.toPages, c.block = t.block ∧ t.offset ∈ c.offsets) ∧
      (∀ t, m.lookup t = .recheck ↔ ∃ c ∈ m.toPages, c.block = t.block ∧ c.recheck = true) ∧
      (m.exactTids.Pairwise fun t t' => t < t') ∧
      (∀ t, t ∈ m.exactTids ↔ m.lookup t = .exact) ∧
      m.exactEntries = m.exactTids.length ∧
      m.lossyBlocks = m.toPages.countP (·.recheck) ∧
      (m.hasCandidates = true ↔ m.toPages ≠ []) ∧
      ∀ n : TidBitmap, (m == n) = true ↔ ∀ block,
        m.isLossy? block = n.isLossy? block ∧ m.offsets? block = n.offsets? block := by
  refine ⟨m.pairwise_toPages, ?_, ?_, ?_, m.pairwise_exactTids, ?_, m.exactEntries_eq_length,
    m.lossyBlocks_eq_countP, hasCandidates_iff, ?_⟩
  · intro c hc
    exact shape_of_mem_toPages hc
  · intro t
    exact lookup_eq_exact_iff
  · intro t
    exact lookup_eq_recheck_iff
  · intro t
    exact mem_exactTids_iff
  · intro n
    exact beq_iff_observed

end TidBitmap

end PullQuery
