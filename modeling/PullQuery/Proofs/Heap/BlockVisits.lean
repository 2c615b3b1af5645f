import Mathlib.Data.Finset.Card
import Mathlib.Data.List.Destutter
import Mathlib.Data.List.ReduceOption
import PullQuery.Proofs.Heap.Cursor

/-!
# What a scan counts as blocks read

A scan counts its visits to blocks. Successive fetches from one block are one visit, unless the
scan is restarted between them. A block to which a scan returns is counted once more, so that the
count is the number of distinct blocks just if no block is visited twice.

## Main definitions

* `fetchedBlocks`: the blocks of the versions that were fetched
* `blockVisits`: the visits to blocks

## Main results

* `ScanClient.Sound.visit`: what a request counts
* `ScanClient.blocksRead_eq_card_iff`: any requests
* `ScanClient.blocksRead_fetches`: fetches in the direction of a scan
* `ScanClient.blocksRead_ne_card_turningBack`: a scan that turns back
-/

namespace PullQuery

/-! ## Lists without repetitions of neighbours -/

section Destutter

variable {α : Type} [DecidableEq α] {a b : α} {l : List α}

theorem mem_destutter'_ne : b ∈ l.destutter' (· ≠ ·) a ↔ b = a ∨ b ∈ l := by
  induction l generalizing a with
  | nil => simp
  | cons c l ih =>
    by_cases hac : a ≠ c
    · rw [List.destutter'_cons_pos (h := hac), List.mem_cons, ih, List.mem_cons]
    · obtain rfl : a = c := not_not.mp hac
      rw [List.destutter'_cons_neg (h := hac), ih, List.mem_cons]
      simp

/-- Where equal elements stand together, one of each is left. -/
theorem nodup_destutter'_ne {R : α → α → Prop} (hR : ∀ x y, R x y → R y x → x = y)
    (h : (a :: l).Pairwise R) : (l.destutter' (· ≠ ·) a).Nodup := by
  induction l generalizing a with
  | nil => simp
  | cons b l ih =>
    have ⟨hfirst, hrest⟩ := List.pairwise_cons.mp h
    by_cases hab : a ≠ b
    · rw [List.destutter'_cons_pos (h := hab), List.nodup_cons, mem_destutter'_ne]
      refine ⟨?_, ih hrest⟩
      -- If the first element came again, then `b` would stand between two of its kind.
      rintro (rfl | ha)
      · exact hab rfl
      · exact hab (hR a b (hfirst b (List.mem_cons_self ..)) ((List.pairwise_cons.mp hrest).1 a ha))
    · obtain rfl : a = b := not_not.mp hab
      rw [List.destutter'_cons_neg (h := hab)]
      exact ih hrest

theorem nodup_destutter_ne {R : α → α → Prop} (hR : ∀ x y, R x y → R y x → x = y)
    (h : l.Pairwise R) : (l.destutter (· ≠ ·)).Nodup := by
  cases l with
  | nil => simp
  | cons a l => exact nodup_destutter'_ne hR h

end Destutter

/-! ## Visits -/

/-- The block of a version that was fetched, or none for a restart. Other answers do not count. -/
def ScanAnswer.visit? : ScanAnswer → Option (Option UInt32)
  | .fetched (.ok (some t)) => some (some t.tid.block)
  | .restarted => some none
  | _ => none

/-- The blocks of the versions that were fetched. -/
def fetchedBlocks (as : List ScanAnswer) : List UInt32 := (as.filterMap (·.visit?)).reduceOption

/-- The visits to blocks: successive fetches from one block are one visit, unless a restart is
between them. -/
def blockVisits (as : List ScanAnswer) : List UInt32 :=
  ((as.filterMap (·.visit?)).destutter' (· ≠ ·) none).reduceOption

theorem mem_blockVisits {as : List ScanAnswer} {b : UInt32} :
    b ∈ blockVisits as ↔ b ∈ fetchedBlocks as := by
  simp [blockVisits, fetchedBlocks, List.reduceOption_mem_iff, mem_destutter'_ne]

theorem toFinset_fetchedBlocks (as : List ScanAnswer) :
    (fetchedBlocks as).toFinset = (blockVisits as).toFinset := by
  ext block
  simp [mem_blockVisits]

/-- Without restarts, visits are the blocks without repetitions of neighbours. -/
theorem blockVisits_of_fetches {as : List ScanAnswer} {bs : List UInt32}
    (h : as.filterMap (·.visit?) = bs.map some) : blockVisits as = bs.destutter (· ≠ ·) := by
  rw [blockVisits, h]
  cases bs with
  | nil => rfl
  | cons b bs =>
    have hsome : ((b :: bs).map some).destutter (· ≠ ·) =
        ((b :: bs).destutter (· ≠ ·)).map some :=
      (List.map_destutter_ne _ (Option.some_injective _)).symm
    have hne : (none : Option UInt32) ≠ some b := nofun
    rw [List.map_cons, List.destutter'_cons_pos (h := hne), ← List.destutter_cons',
      ← List.map_cons, hsome]
    simp [List.reduceOption]

/-! ## What is counted -/

/-- The count of visits after one more, given the block of the last one. -/
def countVisit (notes : Option UInt32 × Nat) (last? : Option UInt32) : Option UInt32 × Nat :=
  if notes.1 = last? then notes else (last?, notes.2 + last?.toList.length)

/-- What is counted are visits, but for the last one before, to which the first ones may belong. -/
theorem snd_foldl_countVisit (visits : List (Option UInt32)) (last? : Option UInt32) (n : Nat) :
    (visits.foldl countVisit (last?, n)).2 + last?.toList.length =
      n + (visits.destutter' (· ≠ ·) last?).reduceOption.length := by
  induction visits generalizing last? n with
  | nil => cases last? <;> rfl
  | cons visit visits ih =>
    rw [List.foldl_cons, countVisit]
    -- A visit to the last block is not counted again, and a restart only forgets the last block.
    by_cases hsame : last? = visit
    · rw [if_pos hsame, List.destutter'_cons_neg (h := not_not_intro hsame)]
      exact ih last? n
    · rw [if_neg hsame, List.destutter'_cons_pos (h := hsame)]
      have hrest := ih visit (n + visit.toList.length)
      cases last? with
      | none =>
        simp only [List.reduceOption_cons_of_none, Option.toList_none, List.length_nil]
        omega
      | some last =>
        simp only [List.reduceOption_cons_of_some, Option.toList_some, List.length_cons,
          List.length_nil]
        omega

/-- The block of the last fetch since a scan was started, and what it has counted. -/
def HeapScan.notes (s : HeapScan) : Option UInt32 × Nat := (s.lastBlock?, s.blocksRead)

namespace ScanClient

variable {h : Heap} {d : Direction} {c : ScanClient}

theorem notes_restoreTo (h : Heap) (c : ScanClient) (p : ScanPosition) :
    (c.restoreTo h p).1.visit? = none ∧ (c.restoreTo h p).2.scan.notes = c.scan.notes := by
  unfold restoreTo
  split
  · exact ⟨rfl, rfl⟩
  · next scan hrestore =>
    -- Only the cursor of the scan is another one.
    obtain ⟨cursor, -, rfl⟩ := HeapScan.restore_eq_ok hrestore
    exact ⟨rfl, rfl⟩

/-- A request counts a visit if its answer tells of one. -/
theorem Sound.notes_serve (hc : c.Sound h d) (r : ScanRequest) :
    (c.serve h r).2.scan.notes =
      (c.serve h r).1.visit?.elim c.scan.notes (countVisit c.scan.notes) := by
  obtain ⟨rest, hat⟩ := hc
  cases r with
  | fetch e =>
    rw [ScanClient.serve, hat.fetch_eq e]
    dsimp only
    rcases Zipper.version? h.tuples _ with _ | t
    · rfl
    · simp only [ScanAnswer.visit?, Option.elim_some, HeapScan.visitBlock, countVisit]
      split <;> simp_all [HeapScan.notes]
  | rescan =>
    rw [ScanClient.serve]
    simp only [ScanAnswer.visit?, Option.elim_some, countVisit]
    split <;> simp_all [HeapScan.notes, HeapScan.rescan]
  | mark slot =>
    rw [ScanClient.serve]
    split <;> rfl
  | restore slot =>
    rw [ScanClient.serve]
    split
    · rfl
    · next p hslot =>
      obtain ⟨hvisit, hnotes⟩ := notes_restoreTo h c p
      rw [hvisit, hnotes]
      rfl
  | restoreTo p =>
    obtain ⟨hvisit, hnotes⟩ := notes_restoreTo h c p
    rw [ScanClient.serve, hvisit, hnotes]
    rfl

/-- Requests count the visits of which their answers tell. -/
theorem Sound.notes_serveAll (hc : c.Sound h d) (rs : List ScanRequest) :
    (serveAll (ScanClient.serve h) rs c).2.scan.notes =
      ((serveAll (ScanClient.serve h) rs c).1.filterMap (·.visit?)).foldl countVisit
        c.scan.notes := by
  induction rs generalizing c with
  | nil => rfl
  | cons r rs ih =>
    rw [serveAll]
    dsimp only
    rw [ih (hc.serve r), hc.notes_serve r, List.filterMap_cons]
    rcases (c.serve h r).1.visit? with _ | visit <;> rfl

theorem blocksRead_eq_length (h : Heap) (d : Direction) (rs : List ScanRequest) :
    let served := serveAll (serve h) rs (start h d)
    served.2.scan.blocksRead = (blockVisits served.1).length := by
  intro served
  have hnotes := (sound_start h d).notes_serveAll rs
  have hvisits := snd_foldl_countVisit (served.1.filterMap (·.visit?)) none 0
  rw [Nat.zero_add] at hvisits
  exact (congrArg Prod.snd hnotes).trans hvisits

/-- Whatever is asked of a new scan of a heap, it counts visits. They are to the blocks of which
it has fetched versions, so that it counts these blocks just if it visits none of them twice. -/
theorem blocksRead_eq_card_iff (h : Heap) (d : Direction) (rs : List ScanRequest) :
    let served := serveAll (serve h) rs (start h d)
    let visits := blockVisits served.1
    let blocks := (fetchedBlocks served.1).toFinset
    served.2.scan.blocksRead = visits.length ∧
    (∀ block, block ∈ visits ↔ block ∈ blocks) ∧
    blocks.card ≤ served.2.scan.blocksRead ∧
    (served.2.scan.blocksRead = blocks.card ↔ visits.Nodup) := by
  intro served visits blocks
  have hlength : served.2.scan.blocksRead = visits.length := blocksRead_eq_length h d rs
  have hblocks : blocks = visits.toFinset := toFinset_fetchedBlocks served.1
  refine ⟨hlength, ?_, ?_, ?_⟩
  · intro block
    rw [hblocks, List.mem_toFinset]
  · rw [hlength, hblocks]
    exact List.toFinset_card_le visits
  · rw [hlength, hblocks]
    constructor
    · intro hcard
      exact Multiset.toFinset_card_eq_card_iff_nodup.mp hcard.symm
    · intro hnodup
      exact (List.toFinset_card_of_nodup hnodup).symm

/-- A scan that turns back counts the first block once more. -/
theorem blocksRead_ne_card_turningBack :
    let served := serveAll (serve twoBlocks)
      [.fetch .forward, .fetch .forward, .fetch .backward] (start twoBlocks .forward)
    served.2.scan.blocksRead = 3 ∧ (fetchedBlocks served.1).toFinset.card = 2 := by
  decide +kernel

/-! ## One direction -/

/-- The versions that a scan goes over stand by block. -/
theorem exists_pairwise_blocks (h : Heap) (d : Direction) (k : Nat) :
    ∃ R : UInt32 → UInt32 → Prop, (∀ a b, R a b → R b a → a = b) ∧
      (((h.inOrder d).take k).map (·.tid.block)).Pairwise R := by
  have hblocks {t u : HeapTuple} (hlt : t.tid < u.tid) : t.tid.block ≤ u.tid.block := by
    rcases Tid.lt_iff.mp hlt with hblock | ⟨hblock, -⟩
    · exact UInt32.le_of_lt hblock
    · exact hblock ▸ UInt32.le_refl _
  cases d with
  | forward =>
    refine ⟨(· ≤ ·), fun a b => UInt32.le_antisymm, ?_⟩
    exact List.pairwise_map.mpr ((h.pairwise_tuples.imp hblocks).sublist (List.take_sublist ..))
  | backward =>
    refine ⟨(· ≥ ·), fun a b hba hab => UInt32.le_antisymm hab hba, ?_⟩
    exact List.pairwise_map.mpr
      ((List.pairwise_reverse.mpr (h.pairwise_tuples.imp hblocks)).sublist (List.take_sublist ..))

/-- Fetches in the direction of a scan visit no block twice. -/
theorem blocksRead_fetches (h : Heap) (d : Direction) (k : Nat) :
    let served := serveAll (serve h) (List.replicate k (.fetch d)) (start h d)
    served.2.scan.blocksRead = (fetchedBlocks served.1).toFinset.card := by
  intro served
  have hanswers : served.1 = (List.range k).map fun i => .fetched (.ok (h.inOrder d)[i]?) :=
    answers_fetches (HeapScan.at_start h d) k
  have hvisits : served.1.filterMap (·.visit?) =
      (((h.inOrder d).take k).map (·.tid.block)).map some := by
    rw [hanswers]
    clear hanswers served
    induction k with
    | zero => rfl
    | succ k ih =>
      rw [List.range_succ, List.map_append, List.filterMap_append, ih, List.take_add_one]
      rcases hk : (h.inOrder d)[k]? with _ | t <;> simp [ScanAnswer.visit?, hk]
  have hlength : served.2.scan.blocksRead = (blockVisits served.1).length :=
    blocksRead_eq_length h d _
  obtain ⟨R, hantisymm, hpairwise⟩ := exists_pairwise_blocks h d k
  rw [hlength, toFinset_fetchedBlocks, blockVisits_of_fetches hvisits]
  exact (List.toFinset_card_of_nodup (nodup_destutter_ne hantisymm hpairwise)).symm

end ScanClient

end PullQuery
