import Mathlib.Algebra.BigOperators.Group.Finset.Piecewise
import Mathlib.Data.Finset.Max
import PullQuery.Proofs.Bitmap.Entries

/-!
# Shrinking gives up as few blocks as it can

A bitmap with too many entries makes blocks lossy until there are at most half as many as its
limit allows. No other choice of exact pages reaches this with fewer blocks: the densest blocks
free the most entries, so as many others free no more. If no choice reaches it, all pages that
shrink at all are given up.

## Main definitions

* `TidBitmap.exactBlocks`: the blocks whose pages are exact
* `TidBitmap.lossify`: a bitmap with chosen blocks made lossy
* `TidBitmap.sacrificed`: the blocks that shrinking in an order makes lossy
* `TidBitmap.SacrificesFewest`: shrinking in an order gives up as few blocks as it can

## Main results

* `TidBitmap.DensestFirst.exists_sacrificed_eq_take`: what shrinking gives up are the first of the
  densest blocks
* `TidBitmap.DensestFirst.card_sacrificed_le`: no choice that reaches the target has fewer blocks
* `TidBitmap.enforceTotal_sacrifices_fewest`
-/

namespace PullQuery

open Finset

/-- Of two sets of one size, the second is at least as heavy as the first if what it alone has is
no lighter than what the first alone has. -/
theorem sum_le_sum_of_outweighs {α : Type} [DecidableEq α] {weight : α → Nat} {S T : Finset α}
    (hcard : S.card = T.card) (h : ∀ a ∈ S \ T, ∀ b ∈ T \ S, weight a ≤ weight b) :
    ∑ a ∈ S, weight a ≤ ∑ b ∈ T, weight b := by
  have hown : ∑ a ∈ S \ T, weight a ≤ ∑ b ∈ T \ S, weight b := by
    have hsize : (S \ T).card = (T \ S).card := card_sdiff_comm hcard
    rcases (T \ S).eq_empty_or_nonempty with hnone | hsome
    · rw [hnone, card_empty, card_eq_zero] at hsize
      rw [hsize, sum_empty]
      exact Nat.zero_le _
    · -- The lightest element of the second set alone separates the two.
      obtain ⟨b, hb, hleast⟩ := exists_min_image (T \ S) weight hsome
      calc ∑ a ∈ S \ T, weight a ≤ (S \ T).card • weight b :=
            sum_le_card_nsmul _ _ _ fun a ha => h a ha b hb
        _ = (T \ S).card • weight b := by rw [hsize]
        _ ≤ ∑ b ∈ T \ S, weight b := card_nsmul_le_sum _ _ _ hleast
  rw [← sum_inter_add_sum_sdiff S T, ← sum_inter_add_sum_sdiff T S, inter_comm T S]
  omega

namespace TidBitmap

variable {m : TidBitmap} {S : Finset UInt32} {block : UInt32} {order : List UInt32}

/-! ## Chosen blocks -/

/-- The blocks whose pages are exact. -/
def exactBlocks (m : TidBitmap) : Finset UInt32 :=
  m.blocks.filter fun b => m.isLossy? b = some false

theorem mem_exactBlocks_iff : block ∈ m.exactBlocks ↔ ∃ s, m.page? block = some (.exact s) := by
  rw [exactBlocks, mem_filter, mem_blocks_iff, isLossy?]
  rcases m.page? block with _ | s | _ <;> simp [PageEntry.isLossy]

theorem exactBlocks_subset_blocks (m : TidBitmap) : m.exactBlocks ⊆ m.blocks := filter_subset _ _

/-- The bitmap in which the pages of chosen blocks are lossy. -/
def lossify (m : TidBitmap) (S : Finset UInt32) : TidBitmap :=
  ofPages m.limits (m.pages.map fun p => (p.1, if p.1 ∈ S then .lossy else p.2)) <| by
    rw [Assoc.keys, List.map_map]
    exact m.blocks_nodup

theorem page?_lossify (hS : S ⊆ m.blocks) (block : UInt32) :
    (m.lossify S).page? block = if block ∈ S then some .lossy else m.page? block := by
  have hfind : ∀ ps : List Page,
      Assoc.find? block (ps.map fun p => (p.1, if p.1 ∈ S then .lossy else p.2)) =
        (Assoc.find? block ps).map fun e => if block ∈ S then .lossy else e := by
    intro ps
    induction ps with
    | nil => rfl
    | cons p ps ih =>
      rw [List.map_cons, Assoc.find?, Assoc.find?]
      by_cases hp : p.1 = block
      · simp [hp]
      · rw [if_neg hp, if_neg hp, ih]
  rw [lossify, page?_ofPages, hfind, ← page?_eq_find?]
  by_cases hb : block ∈ S
  · obtain ⟨e, he⟩ := Option.isSome_iff_exists.mp (mem_blocks_iff.mp (hS hb))
    simp [hb, he]
  · simp [hb]

theorem totalEntries_lossify_add_sum (hS : S ⊆ m.exactBlocks) :
    (m.lossify S).totalEntries + ∑ b ∈ S, m.entriesOf b = m.totalEntries + S.card :=
  have hblocks := hS.trans m.exactBlocks_subset_blocks
  totalEntries_add_sum_of_lossy hblocks (page?_lossify hblocks)

/-! ## The densest blocks -/

theorem card_le_sum_entriesOf (h : ∀ b ∈ S, 1 < m.entriesOf b) :
    S.card ≤ ∑ b ∈ S, m.entriesOf b := by
  rw [card_eq_sum_ones]
  apply sum_le_sum
  intro b hb
  exact Nat.le_of_lt (h b hb)

namespace DensestFirst

/-- The blocks that shrink are exact and have more than one entry. -/
theorem mem_iff_entriesOf (ho : m.DensestFirst order) :
    block ∈ order ↔ block ∈ m.exactBlocks ∧ 1 < m.entriesOf block := by
  rw [ho.mem_iff, ← one_lt_entriesOf_iff]
  constructor
  · intro hmany
    obtain ⟨s, hpage, -⟩ := one_lt_entriesOf_iff.mp hmany
    exact ⟨mem_exactBlocks_iff.mpr ⟨s, hpage⟩, hmany⟩
  · exact And.right

theorem toFinset_take_subset_exactBlocks (ho : m.DensestFirst order) (j : Nat) :
    (order.take j).toFinset ⊆ m.exactBlocks := by
  intro b hb
  exact (ho.mem_iff_entriesOf.mp (List.mem_of_mem_take (List.mem_toFinset.mp hb))).1

theorem card_toFinset_take (ho : m.DensestFirst order) {j : Nat} (hj : j ≤ order.length) :
    (order.take j).toFinset.card = j := by
  have hnodup := ho.nodup.sublist (List.take_sublist j _)
  rw [List.toFinset_card_of_nodup hnodup, List.length_take, Nat.min_eq_left hj]

/-- Blocks that come first among the densest have no fewer entries than any exact page behind them
or not among them. -/
theorem entriesOf_le_of_mem_take (ho : m.DensestFirst order) {j : Nat} {b b' : UInt32}
    (hb : b ∈ order.take j) (hb' : b' ∈ m.exactBlocks) (hnot : b' ∉ order.take j) :
    m.entriesOf b' ≤ m.entriesOf b := by
  by_cases hdense : b' ∈ order
  · have hdrop : b' ∈ order.drop j := by
      rw [← List.take_append_drop j order, List.mem_append] at hdense
      exact hdense.resolve_left hnot
    have hsorted := ho.sorted
    rw [← List.take_append_drop j order, List.pairwise_append] at hsorted
    exact hsorted.2.2 b hb b' hdrop
  · -- Pages that do not shrink have at most one entry, and those that do have more.
    have hmore := (ho.mem_iff_entriesOf.mp (List.mem_of_mem_take hb)).2
    have hless : ¬ 1 < m.entriesOf b' := fun h => hdense (ho.mem_iff_entriesOf.mpr ⟨hb', h⟩)
    omega

/-- No choice of exact pages leaves fewer entries than all pages that shrink. -/
theorem totalEntries_lossify_le (ho : m.DensestFirst order) (hS : S ⊆ m.exactBlocks) :
    (m.lossify order.toFinset).totalEntries ≤ (m.lossify S).totalEntries := by
  have hdense : order.toFinset ⊆ m.exactBlocks := by
    intro b hb
    exact (ho.mem_iff_entriesOf.mp (List.mem_toFinset.mp hb)).1
  have htotal := totalEntries_lossify_add_sum hS
  have htotal' := totalEntries_lossify_add_sum hdense
  have hmem : ∀ b, b ∈ order.toFinset ↔ b ∈ order := fun b => List.mem_toFinset
  generalize order.toFinset = D at *
  -- Pages outside of `D` have at most one entry each, those of `D` at least one.
  have hfew : ∑ b ∈ S \ D, m.entriesOf b ≤ (S \ D).card := by
    rw [card_eq_sum_ones]
    apply sum_le_sum
    intro b hb
    obtain ⟨hbS, hbD⟩ := mem_sdiff.mp hb
    rw [hmem, ho.mem_iff_entriesOf, not_and] at hbD
    exact Nat.le_of_not_lt (hbD (hS hbS))
  have hmany : (D \ S).card ≤ ∑ b ∈ D \ S, m.entriesOf b := by
    apply card_le_sum_entriesOf
    intro b hb
    exact (ho.mem_iff_entriesOf.mp ((hmem b).mp (mem_sdiff.mp hb).1)).2
  have hsumS := sum_inter_add_sum_sdiff S D m.entriesOf
  have hsumD := sum_inter_add_sum_sdiff D S m.entriesOf
  have hcardS := card_inter_add_card_sdiff S D
  have hcardD := card_inter_add_card_sdiff D S
  rw [inter_comm D S] at hsumD hcardD
  omega

end DensestFirst

/-! ## What shrinking gives up -/

/-- The blocks that shrinking in an order makes lossy. -/
def sacrificed (m : TidBitmap) (order : List UInt32) : Finset UInt32 :=
  m.exactBlocks.filter fun b => (m.enforceTotalBy order).isLossy? b = some true

theorem sacrificed_subset_exactBlocks (m : TidBitmap) (order : List UInt32) :
    m.sacrificed order ⊆ m.exactBlocks :=
  filter_subset _ _

namespace DensestFirst

theorem sacrificed_eq_take (ho : m.DensestFirst order) {k : Nat}
    (h : ∀ b, (m.enforceTotalBy order).page? b =
      if b ∈ order.take k then some .lossy else m.page? b) :
    m.sacrificed order = (order.take k).toFinset := by
  ext b
  rw [sacrificed, mem_filter, isLossy?_eq_some_true_iff, IsLossy, h, List.mem_toFinset]
  constructor
  · rintro ⟨hexact, hlossy⟩
    by_contra hb
    obtain ⟨s, hpage⟩ := mem_exactBlocks_iff.mp hexact
    rw [if_neg hb, hpage] at hlossy
    simp at hlossy
  · intro hb
    exact ⟨ho.toFinset_take_subset_exactBlocks k (List.mem_toFinset.mpr hb), if_pos hb⟩

/-- A page is made lossy or left alone. -/
theorem page?_enforceTotalBy_eq (ho : m.DensestFirst order) (h : m.entryCap < m.totalEntries)
    (block : UInt32) : (m.enforceTotalBy order).page? block =
      if block ∈ m.sacrificed order then some .lossy else m.page? block := by
  obtain ⟨k, -, hpages⟩ := m.exists_page?_shrunk order
  have hpages' := fun b => (page?_enforceTotalBy h b).trans (hpages b)
  simp only [ho.sacrificed_eq_take hpages', List.mem_toFinset, hpages']

theorem totalEntries_enforceTotalBy (ho : m.DensestFirst order) (h : m.entryCap < m.totalEntries) :
    (m.enforceTotalBy order).totalEntries = (m.lossify (m.sacrificed order)).totalEntries := by
  have hexact := m.sacrificed_subset_exactBlocks order
  have hleft := totalEntries_add_sum_of_lossy (hexact.trans m.exactBlocks_subset_blocks)
    (ho.page?_enforceTotalBy_eq h)
  have hright := totalEntries_lossify_add_sum hexact
  omega

/-- Shrinking gives up the first of the densest blocks: all of them unless the target is reached,
and none of them before it has to. -/
theorem exists_sacrificed_eq_take (ho : m.DensestFirst order) (h : m.entryCap < m.totalEntries) :
    ∃ k ≤ order.length, m.sacrificed order = (order.take k).toFinset ∧
      (k < order.length → (m.enforceTotalBy order).totalEntries ≤ m.shrinkTarget) ∧
      ∀ j < k, m.shrinkTarget < (m.lossify (order.take j).toFinset).totalEntries := by
  obtain ⟨k, hk, heq, hfew, hbefore⟩ := lossifyUntil_eq_take m.shrinkTarget order m
  refine ⟨k, hk, ?_, ?_, ?_⟩
  · apply ho.sacrificed_eq_take
    intro b
    rw [page?_enforceTotalBy h, shrunk, heq, page?_foldl_makeLossy]
  · intro hlt
    rw [totalEntries_eq_sumBy, pages_enforceTotalBy h, ← totalEntries_eq_sumBy]
    exact hfew hlt
  · intro j hj
    have hexact := ho.toFinset_take_subset_exactBlocks j
    have hpages : ∀ b, ((order.take j).foldl makeLossy m).page? b =
        if b ∈ (order.take j).toFinset then some .lossy else m.page? b := by
      intro b
      simp only [page?_foldl_makeLossy, List.mem_toFinset]
    have hleft := totalEntries_add_sum_of_lossy (hexact.trans m.exactBlocks_subset_blocks) hpages
    have hright := totalEntries_lossify_add_sum hexact
    have hmany := hbefore j hj
    omega

/-- Every page that is given up counted for more than one. -/
theorem totalEntries_enforceTotalBy_le (ho : m.DensestFirst order) :
    (m.enforceTotalBy order).totalEntries ≤ m.totalEntries := by
  by_cases h : m.totalEntries ≤ m.entryCap
  · rw [enforceTotalBy_of_le h]
  · have h := Nat.lt_of_not_le h
    obtain ⟨k, -, hsacrificed, -⟩ := ho.exists_sacrificed_eq_take h
    have hmany : (m.sacrificed order).card ≤ ∑ b ∈ m.sacrificed order, m.entriesOf b := by
      apply card_le_sum_entriesOf
      intro b hb
      rw [hsacrificed, List.mem_toFinset] at hb
      exact (ho.mem_iff_entriesOf.mp (List.mem_of_mem_take hb)).2
    have hsum := totalEntries_lossify_add_sum (m.sacrificed_subset_exactBlocks order)
    have htotal := ho.totalEntries_enforceTotalBy h
    omega

/-- No choice of exact pages that reaches the target has fewer blocks. -/
theorem card_sacrificed_le (ho : m.DensestFirst order) (h : m.entryCap < m.totalEntries)
    (hS : S ⊆ m.exactBlocks) (hfew : (m.lossify S).totalEntries ≤ m.shrinkTarget) :
    (m.sacrificed order).card ≤ S.card := by
  obtain ⟨k, hk, hsacrificed, -, hbefore⟩ := ho.exists_sacrificed_eq_take h
  rw [hsacrificed, ho.card_toFinset_take hk]
  by_contra hlt
  have hlt : S.card < k := Nat.lt_of_not_le hlt
  -- As many of the densest blocks did not suffice, and they free no fewer entries than `S` does.
  have hcard := ho.card_toFinset_take (Nat.le_of_lt (Nat.lt_of_lt_of_le hlt hk))
  have hheavier : ∑ b ∈ S, m.entriesOf b ≤
      ∑ b ∈ (order.take S.card).toFinset, m.entriesOf b := by
    apply sum_le_sum_of_outweighs hcard.symm
    intro b' hb' b hb
    obtain ⟨hexact, hnot⟩ := mem_sdiff.mp hb'
    obtain ⟨htaken, -⟩ := mem_sdiff.mp hb
    rw [List.mem_toFinset] at hnot htaken
    exact ho.entriesOf_le_of_mem_take htaken (hS hexact) hnot
  have hmany := hbefore S.card hlt
  have htotal := totalEntries_lossify_add_sum hS
  have htotal' := totalEntries_lossify_add_sum (ho.toFinset_take_subset_exactBlocks S.card)
  omega

end DensestFirst

/-- Whether a bitmap that shrinks in an order gives up as few blocks as it can. Pages are made lossy
or left alone, and the entries become no more. If there is a choice of exact pages without which
they are at most half of the limit, then so they become, no choice with this effect has fewer
blocks, and no page that is left exact has more offsets than one that is given up. Otherwise the
exact pages with more than one offset are given up. -/
structure SacrificesFewest (m : TidBitmap) (order : List UInt32) : Prop where
  page : ∀ block, (m.enforceTotalBy order).page? block =
    if block ∈ m.sacrificed order then some .lossy else m.page? block
  total_le : (m.enforceTotalBy order).totalEntries ≤ m.totalEntries
  fewest : (∃ S ⊆ m.exactBlocks, (m.lossify S).totalEntries ≤ m.limits.maxEntries / 2) →
    (m.enforceTotalBy order).totalEntries ≤ m.limits.maxEntries / 2 ∧
      (∀ S ⊆ m.exactBlocks, (m.lossify S).totalEntries ≤ m.limits.maxEntries / 2 →
        (m.sacrificed order).card ≤ S.card) ∧
      ∀ b ∈ m.sacrificed order, ∀ b' ∈ m.exactBlocks, b' ∉ m.sacrificed order →
        m.entriesOf b' ≤ m.entriesOf b
  all : (¬∃ S ⊆ m.exactBlocks, (m.lossify S).totalEntries ≤ m.limits.maxEntries / 2) →
    m.sacrificed order = m.exactBlocks.filter fun b => 1 < m.entriesOf b

theorem DensestFirst.sacrificesFewest (ho : m.DensestFirst order)
    (h : m.entryCap < m.totalEntries) : m.SacrificesFewest order := by
  obtain ⟨k, hk, hsacrificed, hfew, -⟩ := ho.exists_sacrificed_eq_take h
  have htotal := ho.totalEntries_enforceTotalBy h
  refine ⟨ho.page?_enforceTotalBy_eq h, ho.totalEntries_enforceTotalBy_le, ?_, ?_⟩
  · rintro ⟨S, hS, hreached⟩
    refine ⟨?_, ?_, ?_⟩
    · rcases Nat.lt_or_eq_of_le hk with hlt | rfl
      · exact hfew hlt
      · rw [htotal, hsacrificed, List.take_length]
        exact (ho.totalEntries_lossify_le hS).trans hreached
    · intro S' hS' hreached'
      exact ho.card_sacrificed_le h hS' hreached'
    · intro b hb b' hb' hnot
      rw [hsacrificed, List.mem_toFinset] at hb hnot
      exact ho.entriesOf_le_of_mem_take hb hb' hnot
  · intro hnone
    rcases Nat.lt_or_eq_of_le hk with hlt | rfl
    · -- What was given up would be such a choice.
      refine absurd ⟨m.sacrificed order, m.sacrificed_subset_exactBlocks order, ?_⟩ hnone
      rw [← htotal]
      exact hfew hlt
    · ext b
      rw [hsacrificed, List.take_length, List.mem_toFinset, ho.mem_iff_entriesOf, mem_filter]

/-- A bitmap with too many entries shrinks by giving up blocks with the densest first, and in
whichever order equally dense ones come, it gives up as few as it can. -/
theorem enforceTotal_sacrifices_fewest (h : m.entryCap < m.totalEntries) :
    (m.enforceTotal = m.enforceTotalBy m.densestBlocks ∧ m.DensestFirst m.densestBlocks) ∧
      ∀ order, m.DensestFirst order → m.SacrificesFewest order :=
  ⟨⟨rfl, m.densestFirst_densestBlocks⟩, fun _ ho => ho.sacrificesFewest h⟩

/-- A bitmap with six offsets, two and one on its blocks, one entry beyond its limit. -/
def nineEntries : TidBitmap :=
  ((empty ⟨maxCount, 8⟩).addTids
    [⟨0, 1⟩, ⟨0, 2⟩, ⟨0, 3⟩, ⟨0, 4⟩, ⟨0, 5⟩, ⟨0, 6⟩, ⟨1, 1⟩, ⟨1, 2⟩]).put 2
    (.exact (OffsetSet.empty.insert 1))

/-- Its first block is given up, without which four entries are left. -/
theorem enforceTotal_sacrifices_fewest_nineEntries :
    nineEntries.entryCap < nineEntries.totalEntries ∧
      ({0} ⊆ nineEntries.exactBlocks ∧
        (nineEntries.lossify {0}).totalEntries ≤ nineEntries.limits.maxEntries / 2) ∧
      nineEntries.enforceTotal.totalEntries ≤ nineEntries.limits.maxEntries / 2 ∧
      (nineEntries.sacrificed nineEntries.densestBlocks).card ≤ 1 := by
  have hmany : nineEntries.entryCap < nineEntries.totalEntries := by decide
  have hreached : {0} ⊆ nineEntries.exactBlocks ∧
      (nineEntries.lossify {0}).totalEntries ≤ nineEntries.limits.maxEntries / 2 := by decide
  obtain ⟨⟨-, hdensest⟩, hshrinks⟩ := enforceTotal_sacrifices_fewest hmany
  obtain ⟨hfew, hleast, -⟩ := (hshrinks _ hdensest).fewest ⟨{0}, hreached⟩
  exact ⟨hmany, hreached, hfew, hleast {0} hreached.1 hreached.2⟩

end TidBitmap

end PullQuery
