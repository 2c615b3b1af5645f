import PullQuery.Proofs.Bitmap.Entries

/-!
# How large a bitmap grows

A bitmap has at most as many entries as its limit allows, or two for each of its blocks where
that is more: its pages then have an entry each, and giving up exact pages does not make it
smaller. The limit in force, which rises when shrinking is of no use, keeps to the same bound, and
every operation keeps the entries within the limit in force.

## Main definitions

* `TidBitmap.CapBounded`: the limit in force is within bounds, and so is every exact page
* `TidBitmap.Bounded`: the entries are within the limit in force as well
* `BitmapStep.limitsAfter`: the limits of the bitmaps in the registers

## Main results

* `TidBitmap.CapBounded.enforceTotalBy`: shrinking ends within the limit in force
* `BitmapStep.bitmap_bounded`: one step of a program
* `BitmapStep.exec_keepsToLimits`: programs from empty registers
-/

namespace PullQuery

namespace TidBitmap

open Finset

variable {m n : TidBitmap} {limits limits' : BitmapLimits} {order : List UInt32}

/-! ## Writing pages -/

theorem blocks_put (m : TidBitmap) (block : UInt32) (entry : PageEntry) :
    (m.put block entry).blocks = insert block m.blocks := by
  ext b
  rw [mem_blocks_iff, page?_put, mem_insert, mem_blocks_iff]
  by_cases hb : b = block
  · simp [hb]
  · simp [hb]

theorem blockCount_le_put (m : TidBitmap) (block : UInt32) (entry : PageEntry) :
    m.blockCount ≤ (m.put block entry).blockCount := by
  rw [← card_blocks, ← card_blocks, blocks_put]
  exact card_le_card (subset_insert block m.blocks)

/-- Where shrinking misses its target, no page has two entries. -/
theorem DensestFirst.totalEntries_shrunk_le (ho : m.DensestFirst order) :
    (m.shrunk order).totalEntries ≤ m.shrinkTarget ∨
      (m.shrunk order).totalEntries ≤ (m.shrunk order).blockCount := by
  obtain ⟨k, hk, heq, hfew, -⟩ := lossifyUntil_eq_take m.shrinkTarget order m
  rcases Nat.lt_or_eq_of_le hk with hlt | rfl
  · exact .inl (hfew hlt)
  · -- All blocks with two and more offsets are lossy now.
    have hpage : ∀ b, (m.shrunk order).page? b =
        if b ∈ order then some .lossy else m.page? b := by
      intro b
      rw [shrunk, heq, List.take_length, page?_foldl_makeLossy]
    right
    rw [totalEntries_eq_sum, ← card_blocks, card_eq_sum_ones]
    apply sum_le_sum
    intro b _
    by_cases hb : b ∈ order
    · rw [entriesOf_of_page? ((hpage b).trans (if_pos hb))]
      exact le_rfl
    · rw [entriesOf_of_page?_eq ((hpage b).trans (if_neg hb))]
      by_contra hmany
      exact hb (ho.mem_iff.mpr (one_lt_entriesOf_iff.mp (Nat.lt_of_not_le hmany)))

/-! ## The limit in force -/

/-- Whether the limit in force is at least the limit on entries, and more only as far as two
entries for each block go, and every exact page keeps to the limit for a block. -/
structure CapBounded (limits : BitmapLimits) (m : TidBitmap) : Prop where
  limits_eq : m.limits = limits
  maxEntries_le : limits.maxEntries ≤ m.entryCap
  entryCap_le : m.entryCap ≤ max limits.maxEntries (saturatingMul 2 m.blockCount)
  within : ∀ block, PageEntry.Within limits.maxExactPerBlock (m.page? block)

/-- Whether the entries are within the limit in force, and this within its bounds. -/
structure Bounded (limits : BitmapLimits) (m : TidBitmap) : Prop extends CapBounded limits m where
  totalEntries_le_entryCap : m.totalEntries ≤ m.entryCap

namespace CapBounded

theorem put {block : UInt32} {entry : PageEntry} (h : CapBounded limits m)
    (hentry : PageEntry.Within m.limits.maxExactPerBlock (some entry)) :
    CapBounded limits (m.put block entry) where
  limits_eq := h.limits_eq
  maxEntries_le := h.maxEntries_le
  entryCap_le := by
    have hcount := m.blockCount_le_put block entry
    have hcap := h.entryCap_le
    rw [entryCap_put]
    unfold saturatingMul at hcap ⊢
    omega
  within b := by
    rw [page?_put]
    split
    · rw [← h.limits_eq]
      exact hentry
    · exact h.within b

theorem makeLossy (h : CapBounded limits m) (block : UInt32) :
    CapBounded limits (m.makeLossy block) := h.put (PageEntry.within_lossy _)

theorem raiseCap {cap : Nat} (h : CapBounded limits m)
    (hcap : cap ≤ saturatingMul 2 m.blockCount) : CapBounded limits (m.raiseCap cap) where
  limits_eq := h.limits_eq
  maxEntries_le := h.maxEntries_le.trans (Nat.le_max_left _ _)
  entryCap_le := Nat.max_le.mpr ⟨h.entryCap_le, hcap.trans (Nat.le_max_right _ _)⟩
  within := h.within

/-- Shrinking ends with the entries within the limit in force: below the target, or with the limit
raised to twice what is left. -/
theorem enforceTotalBy (h : CapBounded limits m) (ho : m.DensestFirst order) :
    Bounded limits (m.enforceTotalBy order) := by
  unfold TidBitmap.enforceTotalBy
  split
  · next hfew => exact ⟨h, hfew⟩
  · have hshrunk : CapBounded limits (m.shrunk order) :=
      lossifyUntil_keeps (P := CapBounded limits) (fun _ b hm => hm.makeLossy b) order h
    change Bounded limits
      (if (m.shrunk order).totalEntries ≤ m.shrinkTarget then m.shrunk order
      else (m.shrunk order).raiseCap (saturatingMul (m.shrunk order).totalEntries 2))
    split
    · next htarget =>
      refine ⟨hshrunk, ?_⟩
      calc (m.shrunk order).totalEntries ≤ m.limits.maxEntries / 2 := htarget
        _ ≤ m.limits.maxEntries := Nat.div_le_self _ _
        _ ≤ (m.shrunk order).entryCap := h.limits_eq ▸ hshrunk.maxEntries_le
    · next htarget =>
      have hblocks := ho.totalEntries_shrunk_le.resolve_left htarget
      have hcount := (m.shrunk order).totalEntries_le
      refine ⟨hshrunk.raiseCap ?_, ?_⟩
      · unfold saturatingMul
        omega
      · show (m.shrunk order).totalEntries ≤ max (m.shrunk order).entryCap _
        unfold saturatingMul
        omega

theorem enforceTotal (h : CapBounded limits m) : Bounded limits m.enforceTotal :=
  h.enforceTotalBy m.densestFirst_densestBlocks

theorem mergePage (h : CapBounded limits m) (p : Page) : CapBounded limits (m.mergePage p) := by
  rcases m.mergePage_cases p with heq | ⟨entry, hentry, heq⟩
  · rwa [heq]
  · rw [heq]
    exact h.put hentry

theorem foldl_mergePage (ps : List Page) (h : CapBounded limits m) :
    CapBounded limits (ps.foldl TidBitmap.mergePage m) := by
  induction ps generalizing m with
  | nil => exact h
  | cons p ps ih => exact ih (h.mergePage p)

end CapBounded

/-! ## Operations -/

theorem bounded_empty (limits : BitmapLimits) : Bounded limits (empty limits) where
  limits_eq := rfl
  maxEntries_le := le_rfl
  entryCap_le := Nat.le_max_left _ _
  within _ := nofun
  totalEntries_le_entryCap := Nat.zero_le _

namespace Bounded

theorem addTid (h : Bounded limits m) (t : Tid) : Bounded limits (m.addTid t) := by
  rcases m.addTid_cases t with heq | ⟨entry, hentry, heq⟩
  · rwa [heq]
  · rw [heq]
    exact (h.toCapBounded.put hentry).enforceTotal

theorem addTids (h : Bounded limits m) (ts : List Tid) : Bounded limits (m.addTids ts) := by
  induction ts generalizing m with
  | nil => exact h
  | cons t ts ih => exact ih (h.addTid t)

theorem addBlock (h : Bounded limits m) (block : UInt32) : Bounded limits (m.addBlock block) :=
  (h.toCapBounded.makeLossy block).enforceTotal

/-- An intersection starts with the limit of its first side, whatever was in force there. -/
theorem inter (h : Bounded limits m) (n : TidBitmap) : Bounded limits (m.inter n) := by
  apply CapBounded.enforceTotal
  refine ⟨h.limits_eq, h.limits_eq ▸ le_rfl, h.limits_eq ▸ Nat.le_max_left _ _, ?_⟩
  intro block
  rw [page?_common]
  exact (h.within block).meet?

theorem union (h : Bounded limits m) (n : TidBitmap) : Bounded limits (m.union n) :=
  (h.toCapBounded.foldl_mergePage n.pages).enforceTotal

end Bounded

end TidBitmap

/-! ## Programs -/

namespace BitmapStep

variable {ι : Type}

/-- The limits of the bitmap that a step writes: new ones, or those of the bitmap that it adds to,
copies or combines with another. -/
def limitsWritten (limits : ι → BitmapLimits) : BitmapStep ι → BitmapLimits
  | create _ new => new
  | addTid r _ => limits r
  | addTids r _ => limits r
  | addBlock r _ => limits r
  | clone _ source => limits source
  | union _ a _ => limits a
  | inter _ a _ => limits a

theorem bitmap_bounded {σ : ι → TidBitmap} {limits : ι → BitmapLimits}
    (h : ∀ r, (σ r).Bounded (limits r)) (s : BitmapStep ι) :
    (s.bitmap σ).Bounded (s.limitsWritten limits) := by
  cases s with
  | create r new => exact TidBitmap.bounded_empty new
  | addTid r t => exact (h r).addTid t
  | addTids r ts => exact (h r).addTids ts
  | addBlock r block => exact (h r).addBlock block
  | clone r source => exact h source
  | union r a b => exact (h a).union (σ b)
  | inter r a b => exact (h a).inter (σ b)

variable [DecidableEq ι]

/-- The limits of the bitmaps in the registers after steps. -/
def limitsAfter (steps : List (BitmapStep ι)) (limits : ι → BitmapLimits) : ι → BitmapLimits :=
  steps.foldl (fun limits s => Function.update limits s.target (s.limitsWritten limits)) limits

/-- After any program, a bitmap has the limits that it was created under or took over, at most so
many entries as they allow or two for each block, and no more offsets on an exact page than they
allow for a block. -/
theorem exec_keepsToLimits (limits : ι → BitmapLimits) (steps : List (BitmapStep ι)) (r : ι) :
    (exec steps (emptied limits) r).limits = limitsAfter steps limits r ∧
      (exec steps (emptied limits) r).totalEntries ≤
        max (limitsAfter steps limits r).maxEntries
          (saturatingMul 2 (exec steps (emptied limits) r).blockCount) ∧
      ∀ block s, (exec steps (emptied limits) r).page? block = some (.exact s) →
        s.size ≤ (limitsAfter steps limits r).maxExactPerBlock := by
  have hbounded : (exec steps (emptied limits) r).Bounded (limitsAfter steps limits r) := by
    apply exec_related (R := fun m limits => m.Bounded limits)
    · intro s σ limits h
      exact bitmap_bounded h s
    · intro r'
      exact TidBitmap.bounded_empty (limits r')
  refine ⟨hbounded.limits_eq, ?_, ?_⟩
  · exact hbounded.totalEntries_le_entryCap.trans hbounded.entryCap_le
  · intro block s hpage
    exact hbounded.within block s hpage

/-- A bitmap of single tuples outgrows its limit of four entries, for nothing can be given up. -/
example : (exec [.addTids () [⟨0, 1⟩, ⟨1, 1⟩, ⟨2, 1⟩, ⟨3, 1⟩, ⟨4, 1⟩, ⟨5, 1⟩]]
    (emptied fun _ => ⟨4, 4⟩) ()).totalEntries = 6 := by
  decide

end BitmapStep

end PullQuery
