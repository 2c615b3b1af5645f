import PullQuery.Proofs.Bitmap.Entries

/-!
# Bitmaps of tuples and of blocks

What a new bitmap says after tuples or whole blocks were added to it. Where no limit is in the
way, it has just the tuples as exact candidates. A bitmap of blocks has all of them as lossy
pages under any limits, for no lossy page shrinks.

## Main results

* `TidBitmap.lookup_addTids_unbounded`
* `TidBitmap.page?_addBlocks`
-/

namespace PullQuery

namespace TidBitmap

variable {m : TidBitmap} {limit : Nat}

/-! ## Tuples -/

theorem uniform_empty (limit : Nat) : Uniform limit (empty ⟨limit, maxCount⟩) where
  limits_eq := rfl
  entryCap_eq := rfl
  within _ _ h := by simp at h

/-- Whether no page of a bitmap is lossy. -/
def AllExact (m : TidBitmap) : Prop := ∀ block, ¬ m.IsLossy block

theorem AllExact.addTid (h : m.AllExact) (hm : Uniform limit m)
    (hlimit : OffsetSet.offsetCount ≤ limit) (t : Tid) : (m.addTid t).AllExact := by
  -- A page of any offsets is within the limit, and stays exact.
  have hwritten : ∀ s, ((m.put t.block (m.limitedPage s)).enforceTotal).AllExact := by
    intro s block hlossy
    have hpage : m.limitedPage s = .exact s := by
      rw [hm.limitedPage_eq, PageEntry.limited_of_le (s.size_le_offsetCount.trans hlimit)]
    have hcap : (m.put t.block (.exact s)).entryCap = maxCount := hm.entryCap_eq
    rw [hpage, enforceTotal_of_cap hcap, IsLossy, page?_put] at hlossy
    split at hlossy
    · simp at hlossy
    · exact h block hlossy
  unfold TidBitmap.addTid
  split
  · exact h
  · exact hwritten _
  · exact hwritten _

theorem AllExact.addTids (h : m.AllExact) (hm : Uniform limit m)
    (hlimit : OffsetSet.offsetCount ≤ limit) (ts : List Tid) : (m.addTids ts).AllExact := by
  induction ts generalizing m with
  | nil => exact h
  | cons t ts ih => exact ih (h.addTid hm hlimit t) (hm.addTid t)

/-- Without limits, the tuples that were added are exact candidates and no others are. -/
theorem lookup_addTids_unbounded (ts : List Tid) (t : Tid) :
    ((empty .unbounded).addTids ts).lookup t = if t ∈ ts then .exact else .absent := by
  have hexact : ((empty .unbounded).addTids ts).AllExact := by
    refine AllExact.addTids (m := empty .unbounded) ?_ (uniform_empty maxCount) (by decide) ts
    intro block h
    contradiction
  have hnot : ((empty .unbounded).addTids ts).lookup t ≠ .recheck := by
    intro h
    unfold lookup at h
    split at h
    · contradiction
    · next hlossy => exact hexact _ hlossy
    · split at h <;> contradiction
  split
  · next ht =>
    have hcandidate : ((empty .unbounded).addTids ts).HasCandidate t :=
      hasCandidate_addTids ht (empty .unbounded)
    unfold HasCandidate at hcandidate
    rcases hlookup : ((empty .unbounded).addTids ts).lookup t <;> simp_all
  · next ht =>
    rcases hlookup : ((empty .unbounded).addTids ts).lookup t with _ | _ | _
    · rfl
    · rcases IsExact.of_addTids hlookup with h | h
      · exact absurd h (not_isExact_empty _ t)
      · contradiction
    · contradiction

/-! ## Blocks -/

/-- Whether all pages of a bitmap are lossy. -/
def AllLossy (m : TidBitmap) : Prop := ∀ block e, m.page? block = some e → e = .lossy

/-- A bitmap without exact pages has nothing to give up. -/
theorem AllLossy.page?_enforceTotal (h : m.AllLossy) (block : UInt32) :
    m.enforceTotal.page? block = m.page? block := by
  apply m.densestFirst_densestBlocks.page?_enforceTotalBy_of_sparse
  intro b s hpage
  have hlossy := h b _ hpage
  contradiction

theorem AllLossy.makeLossy (h : m.AllLossy) (block : UInt32) : (m.makeLossy block).AllLossy := by
  intro b e he
  rw [TidBitmap.makeLossy, page?_put] at he
  split at he
  · exact (Option.some.inj he).symm
  · exact h b e he

theorem AllLossy.page?_addBlock (h : m.AllLossy) (block b : UInt32) :
    (m.addBlock block).page? b = if b = block then some .lossy else m.page? b := by
  rw [addBlock, (h.makeLossy block).page?_enforceTotal, TidBitmap.makeLossy, page?_put]

theorem AllLossy.addBlock (h : m.AllLossy) (block : UInt32) : (m.addBlock block).AllLossy := by
  intro b e he
  rw [h.page?_addBlock] at he
  split at he
  · exact (Option.some.inj he).symm
  · exact h b e he

theorem AllLossy.page?_addBlocks (h : m.AllLossy) (ts : List Tid) (block : UInt32) :
    (ts.foldl (fun m t => m.addBlock t.block) m).page? block =
      if ∃ t ∈ ts, t.block = block then some .lossy else m.page? block := by
  induction ts generalizing m with
  | nil => simp
  | cons t ts ih =>
    rw [List.foldl_cons, ih (h.addBlock t.block), h.page?_addBlock]
    by_cases hrest : ∃ u ∈ ts, u.block = block
    · simp [hrest]
    · rw [if_neg hrest]
      by_cases ht : t.block = block
      · simp [ht]
      · simp [hrest, ht, Ne.symm ht]

/-- Under any limits, the blocks that were added are lossy and there are no others. -/
theorem page?_addBlocks (limits : BitmapLimits) (ts : List Tid) (block : UInt32) :
    (ts.foldl (fun m t => m.addBlock t.block) (empty limits)).page? block =
      if ∃ t ∈ ts, t.block = block then some .lossy else none := by
  have hempty : (empty limits).AllLossy := by
    intro b e h
    contradiction
  exact hempty.page?_addBlocks ts block

end TidBitmap

end PullQuery
