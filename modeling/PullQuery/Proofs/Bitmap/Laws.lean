import Mathlib.Data.Fintype.Card
import Mathlib.Data.List.Perm.Subperm
import PullQuery.Proofs.Bitmap.Exactness

/-!
# The algebra of bitmaps

Bitmaps that were built under one limit for a block, and without a limit on their entries, are
equal when they say the same of every block. Their intersections and unions go block by block, so
the laws of the two are laws of what can be known about one block: nothing, exact offsets,
possibly none, or that the block is lossy.

## Main definitions

* `PageEntry.meet?`, `PageEntry.merge?`: what combinations know about one block
* `TidBitmap.Built`: bitmaps that were built under limits by any operations

## Main results

* `TidBitmap.beq_iff`: equality of bitmaps
* `TidBitmap.totalEntries_le`: no bitmap has more entries than can be counted
* `TidBitmap.Uniform.page?_inter`, `TidBitmap.Uniform.page?_union`
* `TidBitmap.inter_union_laws`: commutativity, associativity, idempotence, distributivity
-/

namespace PullQuery

/-! ## Sets of offsets -/

namespace OffsetSet

variable {s t u : OffsetSet}

theorem inter_comm (s t : OffsetSet) : s.inter t = t.inter s := by
  apply ext_contains
  intro o
  simp [Bool.and_comm]

theorem inter_assoc (s t u : OffsetSet) : (s.inter t).inter u = s.inter (t.inter u) := by
  apply ext_contains
  intro o
  simp [Bool.and_assoc]

theorem inter_self (s : OffsetSet) : s.inter s = s := by
  apply ext_contains
  intro o
  simp

theorem union_comm (s t : OffsetSet) : s.union t = t.union s := by
  apply ext_contains
  intro o
  simp [Bool.or_comm]

theorem union_assoc (s t u : OffsetSet) : (s.union t).union u = s.union (t.union u) := by
  apply ext_contains
  intro o
  simp [Bool.or_assoc]

theorem union_self (s : OffsetSet) : s.union s = s := by
  apply ext_contains
  intro o
  simp

theorem inter_union (s t u : OffsetSet) :
    s.inter (t.union u) = (s.inter t).union (s.inter u) := by
  apply ext_contains
  intro o
  simp [Bool.and_or_distrib_left]

theorem size_le_offsetCount (s : OffsetSet) : s.size ≤ offsetCount := by
  have hrange : ∀ o ∈ s.members, o.toNat ∈ Finset.range offsetCount := fun o _ =>
    Finset.mem_range.mpr o.toNat_lt
  have hinj : ∀ o ∈ s.members, ∀ p ∈ s.members, o.toNat = p.toNat → o = p := fun o _ p _ =>
    UInt16.toNat_inj.mp
  rw [s.valid.size_eq_card, ← Finset.card_range offsetCount]
  exact Finset.card_le_card_of_injOn UInt16.toNat hrange hinj

/-- A set is not greater than one that has all its members. -/
theorem size_le_of_subset (h : ∀ o, s.contains o = true → t.contains o = true) :
    s.size ≤ t.size := by
  rw [s.valid.size_eq_card, t.valid.size_eq_card]
  apply Finset.card_le_card
  intro o ho
  rw [Bitset.Valid.mem_members s.valid] at ho
  exact t.valid.mem_members.mpr (h o ho)

theorem size_inter_le (s t : OffsetSet) : (s.inter t).size ≤ s.size := by
  apply size_le_of_subset
  intro o ho
  rw [contains_inter, Bool.and_eq_true] at ho
  exact ho.1

theorem size_le_union_left (s t : OffsetSet) : s.size ≤ (s.union t).size := by
  apply size_le_of_subset
  intro o ho
  rw [contains_union, ho, Bool.true_or]

theorem size_le_union_right (s t : OffsetSet) : t.size ≤ (s.union t).size := by
  rw [union_comm]
  exact size_le_union_left t s

end OffsetSet

/-! ## What is known about one block -/

namespace PageEntry

variable {limit : Nat} {x y z : Option PageEntry} {s t : OffsetSet}

/-- What an intersection knows about a block. -/
def meet? (x y : Option PageEntry) : Option PageEntry := x.bind fun e => y.map e.inter

/-- What a union knows about a block, if exact pages hold at most `limit` offsets. -/
def merge? (limit : Nat) : Option PageEntry → Option PageEntry → Option PageEntry
  | some .lossy, _ => some .lossy
  | _, some .lossy => some .lossy
  | some (.exact s), some (.exact t) => some (limited limit (s.union t))
  | none, some (.exact t) => some (limited limit t)
  | x, none => x

/-- Whether an exact page keeps to a limit. -/
def Within (limit : Nat) (x : Option PageEntry) : Prop := ∀ s, x = some (.exact s) → s.size ≤ limit

theorem limited_of_le (h : s.size ≤ limit) : limited limit s = .exact s := if_neg (by omega)

theorem limited_of_lt (h : limit < s.size) : limited limit s = .lossy := if_pos h

theorem within_limited (limit : Nat) (s : OffsetSet) : Within limit (some (limited limit s)) := by
  intro t ht
  unfold limited at ht
  split at ht
  · simp at ht
  · simp only [Option.some.injEq, exact.injEq] at ht
    subst ht
    omega

theorem within_lossy (limit : Nat) : Within limit (some .lossy) := nofun

theorem Within.meet? (hx : Within limit x) : Within limit (PageEntry.meet? x y) := by
  intro u hu
  obtain ⟨e, rfl, he⟩ := Option.bind_eq_some_iff.mp hu
  obtain ⟨e', rfl, hinter⟩ := Option.map_eq_some_iff.mp he
  rcases e with s | _ <;> rcases e' with t | _
  · obtain rfl := exact.inj hinter
    exact (s.size_inter_le t).trans (hx s rfl)
  all_goals contradiction

theorem Within.merge? (hx : Within limit x) : Within limit (PageEntry.merge? limit x y) := by
  rcases x with _ | s | _ <;> rcases y with _ | t | _
  case none.none => exact hx
  case some.exact.none => exact hx
  case none.some.exact => exact within_limited limit t
  case some.exact.some.exact => exact within_limited limit (s.union t)
  all_goals exact within_lossy limit

/-! ### Laws of intersection -/

theorem meet?_comm (x y : Option PageEntry) : meet? x y = meet? y x := by
  rcases x with _ | s | _ <;> rcases y with _ | t | _
  case some.exact.some.exact => exact congrArg (fun u => some (exact u)) (s.inter_comm t)
  all_goals rfl

theorem meet?_assoc (x y z : Option PageEntry) : meet? (meet? x y) z = meet? x (meet? y z) := by
  rcases x with _ | s | _ <;> rcases y with _ | t | _ <;> rcases z with _ | u | _
  case some.exact.some.exact.some.exact =>
    exact congrArg (fun v => some (exact v)) (s.inter_assoc t u)
  all_goals rfl

theorem meet?_self (x : Option PageEntry) : meet? x x = x := by
  rcases x with _ | s | _
  case some.exact => exact congrArg (fun u => some (exact u)) s.inter_self
  all_goals rfl

/-! ### Laws of union -/

theorem merge?_none (limit : Nat) (x : Option PageEntry) : merge? limit x none = x := by
  rcases x with _ | s | _ <;> rfl

theorem none_merge? (hx : Within limit x) : merge? limit none x = x := by
  rcases x with _ | s | _
  case some.exact => exact congrArg some (limited_of_le (hx s rfl))
  all_goals rfl

theorem lossy_merge? (limit : Nat) (x : Option PageEntry) :
    merge? limit (some .lossy) x = some .lossy := by
  rcases x with _ | s | _ <;> rfl

theorem merge?_lossy (limit : Nat) (x : Option PageEntry) :
    merge? limit x (some .lossy) = some .lossy := by
  rcases x with _ | s | _ <;> rfl

theorem exact_merge? (limit : Nat) (s t : OffsetSet) :
    merge? limit (some (exact s)) (some (exact t)) = some (limited limit (s.union t)) := rfl

theorem merge?_comm (hx : Within limit x) (hy : Within limit y) :
    merge? limit x y = merge? limit y x := by
  rcases x with _ | s | _
  · rw [merge?_none, none_merge? hy]
  · rcases y with _ | t | _
    · rw [merge?_none, none_merge? hx]
    · rw [exact_merge?, exact_merge?, s.union_comm t]
    · rfl
  · rw [lossy_merge?, merge?_lossy]

/-- A set that is too large before another one is added is too large afterwards. -/
theorem limited_merge? (limit : Nat) (s t : OffsetSet) :
    merge? limit (some (limited limit s)) (some (exact t)) =
      some (limited limit (s.union t)) := by
  by_cases h : limit < s.size
  · rw [limited_of_lt h, limited_of_lt (Nat.lt_of_lt_of_le h (s.size_le_union_left t))]
    rfl
  · rw [limited_of_le (Nat.le_of_not_lt h), exact_merge?]

theorem merge?_limited (limit : Nat) (s t : OffsetSet) :
    merge? limit (some (exact s)) (some (limited limit t)) =
      some (limited limit (s.union t)) := by
  by_cases h : limit < t.size
  · rw [limited_of_lt h, limited_of_lt (Nat.lt_of_lt_of_le h (s.size_le_union_right t))]
    rfl
  · rw [limited_of_le (Nat.le_of_not_lt h), exact_merge?]

theorem merge?_assoc (hx : Within limit x) (hy : Within limit y) (hz : Within limit z) :
    merge? limit (merge? limit x y) z = merge? limit x (merge? limit y z) := by
  rcases x with _ | s | _
  · rw [none_merge? hy, none_merge? hy.merge?]
  · rcases y with _ | t | _
    · rw [merge?_none, none_merge? hz]
    · rcases z with _ | u | _
      · rw [merge?_none, merge?_none]
      · rw [exact_merge?, exact_merge?, limited_merge?, merge?_limited, s.union_assoc]
      · rw [merge?_lossy, merge?_lossy, merge?_lossy]
    · rw [merge?_lossy, lossy_merge?, merge?_lossy]
  · rw [lossy_merge?, lossy_merge?, lossy_merge?]

theorem merge?_self (hx : Within limit x) : merge? limit x x = x := by
  rcases x with _ | s | _
  · rfl
  · rw [exact_merge?, s.union_self, limited_of_le (hx s rfl)]
  · rfl

/-- Where no page is too large, intersection distributes over union. -/
theorem meet?_merge? (hlimit : OffsetSet.offsetCount ≤ limit) (x y z : Option PageEntry) :
    meet? x (merge? limit y z) = merge? limit (meet? x y) (meet? x z) := by
  have hfits : ∀ s : OffsetSet, limited limit s = .exact s := fun s =>
    limited_of_le (s.size_le_offsetCount.trans hlimit)
  rcases x with _ | s | _ <;> rcases y with _ | t | _ <;> rcases z with _ | u | _
  case some.exact.some.exact.some.exact =>
    show meet? (some (exact s)) (some (limited limit (t.union u))) =
      some (limited limit ((s.inter t).union (s.inter u)))
    rw [hfits, hfits, ← s.inter_union t u]
    rfl
  all_goals simp [meet?, merge?, inter, hfits]

end PageEntry

namespace TidBitmap

variable {m n a b c : TidBitmap} {limit : Nat}

/-! ## Equality -/

theorem find?_isSome_iff {block : UInt32} :
    (m.page? block).isSome = true ↔ block ∈ Assoc.keys m.pages := by
  rw [Option.isSome_iff_ne_none, ne_eq, page?_eq_none_iff, not_not]

/-- Bitmaps are equal when they say the same of every block. -/
theorem beq_iff : (m == n) = true ↔ ∀ block, m.page? block = n.page? block := by
  have hdef : (m == n) = (m.pages.length == n.pages.length &&
      m.pages.all fun p => n.page? p.1 == some p.2) := rfl
  rw [hdef, Bool.and_eq_true, beq_iff_eq, List.all_eq_true]
  constructor
  · rintro ⟨hlength, hpages⟩ block
    have hfound : ∀ e, m.page? block = some e → n.page? block = some e := by
      intro e he
      exact beq_iff_eq.mp (hpages (block, e) (page?_eq_some_iff.mp he))
    rcases hm : m.page? block with _ | e
    · -- As many blocks as in the other bitmap are all of its blocks.
      have hsubset : Assoc.keys m.pages ⊆ Assoc.keys n.pages := by
        intro k hk
        obtain ⟨p, hp, rfl⟩ := List.mem_map.mp hk
        rw [← find?_isSome_iff, beq_iff_eq.mp (hpages p hp)]
        rfl
      have hperm : (Assoc.keys m.pages).Perm (Assoc.keys n.pages) := by
        apply (List.Nodup.subperm m.blocks_nodup hsubset).perm_of_length_le
        simp [Assoc.keys, hlength]
      have hnot : block ∉ Assoc.keys m.pages := page?_eq_none_iff.mp hm
      exact (page?_eq_none_iff.mpr fun h => hnot (hperm.mem_iff.mpr h)).symm
    · exact (hfound e hm).symm
  · intro h
    have hperm : (Assoc.keys m.pages).Perm (Assoc.keys n.pages) := by
      refine (List.perm_ext_iff_of_nodup m.blocks_nodup n.blocks_nodup).mpr ?_
      intro block
      rw [← find?_isSome_iff, ← find?_isSome_iff, h block]
    refine ⟨by simpa [Assoc.keys] using hperm.length_eq, ?_⟩
    intro p hp
    rw [beq_iff_eq, ← h p.1]
    exact page?_eq_some_iff.mpr hp

/-! ## Bitmaps without a limit on their entries -/

theorem length_pages_le (m : TidBitmap) : m.pages.length ≤ UInt32.size := by
  have hnodup : ((Assoc.keys m.pages).map UInt32.toFin).Nodup := by
    refine m.blocks_nodup.map ?_
    intro b b' h
    exact UInt32.toFin_inj.mp h
  have hcard := hnodup.length_le_card
  rwa [List.length_map, Assoc.keys, List.length_map, Fintype.card_fin] at hcard

/-- No bitmap has more entries than can be counted. -/
theorem totalEntries_le (m : TidBitmap) : m.totalEntries ≤ maxCount := by
  -- A page counts for the offsets that it can hold at most, a lossy one for less.
  have hpage : ∀ e : PageEntry, e.exactSize + e.lossySize ≤ OffsetSet.offsetCount
    | .exact s => s.size_le_offsetCount
    | .lossy => by decide
  have hcount : ∀ ps : List Page, sumBy (fun p => p.2.exactSize) ps +
      sumBy (fun p => p.2.lossySize) ps ≤ ps.length * OffsetSet.offsetCount := by
    intro ps
    induction ps with
    | nil => exact Nat.zero_le _
    | cons p ps ih =>
      have := hpage p.2
      rw [sumBy_cons, sumBy_cons, List.length_cons, Nat.succ_mul]
      omega
  calc m.totalEntries
    _ = sumBy (fun p => p.2.exactSize) m.pages + sumBy (fun p => p.2.lossySize) m.pages := by
      rw [totalEntries, exactEntries_eq, lossyBlocks_eq]
    _ ≤ m.pages.length * OffsetSet.offsetCount := hcount m.pages
    _ ≤ UInt32.size * OffsetSet.offsetCount := Nat.mul_le_mul_right _ m.length_pages_le
    _ ≤ maxCount := by decide

theorem enforceTotal_of_cap (h : m.entryCap = maxCount) : m.enforceTotal = m := by
  rw [enforceTotal, enforceTotalBy, if_pos]
  rw [h]
  exact m.totalEntries_le

/-- Adding a tuple writes at most one page, which keeps to the limit for a block. -/
theorem addTid_cases (m : TidBitmap) (t : Tid) :
    m.addTid t = m ∨ ∃ entry, PageEntry.Within m.limits.maxExactPerBlock (some entry) ∧
      m.addTid t = (m.put t.block entry).enforceTotal := by
  unfold addTid
  split
  · exact .inl rfl
  · exact .inr ⟨_, PageEntry.within_limited _ _, rfl⟩
  · exact .inr ⟨_, PageEntry.within_limited _ _, rfl⟩

/-- Merging a page writes at most one page, which keeps to the limit for a block. -/
theorem mergePage_cases (m : TidBitmap) (p : Page) :
    m.mergePage p = m ∨ ∃ entry, PageEntry.Within m.limits.maxExactPerBlock (some entry) ∧
      m.mergePage p = m.put p.1 entry := by
  unfold mergePage
  split
  · exact .inl rfl
  · exact .inr ⟨.lossy, PageEntry.within_lossy _, rfl⟩
  · exact .inr ⟨_, PageEntry.within_limited _ _, rfl⟩
  · exact .inr ⟨_, PageEntry.within_limited _ _, rfl⟩

/-- Bitmaps that were built under limits by any operations. -/
inductive Built (limits : BitmapLimits) : TidBitmap → Prop where
  | empty : Built limits (.empty limits)
  | addTid {m : TidBitmap} (t : Tid) (hm : Built limits m) : Built limits (m.addTid t)
  | addTids {m : TidBitmap} (ts : List Tid) (hm : Built limits m) : Built limits (m.addTids ts)
  | addBlock {m : TidBitmap} (block : UInt32) (hm : Built limits m) :
    Built limits (m.addBlock block)
  | inter {m n : TidBitmap} (hm : Built limits m) (hn : Built limits n) : Built limits (m.inter n)
  | union {m n : TidBitmap} (hm : Built limits m) (hn : Built limits n) : Built limits (m.union n)

/-- Whether a bitmap keeps to a limit for a block and has no limit on its entries. -/
structure Uniform (limit : Nat) (m : TidBitmap) : Prop where
  limits_eq : m.limits = ⟨limit, maxCount⟩
  entryCap_eq : m.entryCap = maxCount
  within : ∀ block, PageEntry.Within limit (m.page? block)

namespace Uniform

theorem put {block : UInt32} {entry : PageEntry} (h : Uniform limit m)
    (hentry : PageEntry.Within limit (some entry)) : Uniform limit (m.put block entry) where
  limits_eq := h.limits_eq
  entryCap_eq := h.entryCap_eq
  within b := by
    rw [page?_put]
    split
    · exact hentry
    · exact h.within b

theorem makeLossy (h : Uniform limit m) (block : UInt32) : Uniform limit (m.makeLossy block) :=
  h.put (PageEntry.within_lossy limit)

theorem limitedPage_eq (h : Uniform limit m) (s : OffsetSet) :
    m.limitedPage s = .limited limit s := by
  rw [limitedPage, h.limits_eq]

theorem enforceTotal (h : Uniform limit m) : m.enforceTotal = m :=
  enforceTotal_of_cap h.entryCap_eq

theorem addTid (h : Uniform limit m) (t : Tid) : Uniform limit (m.addTid t) := by
  rcases m.addTid_cases t with heq | ⟨entry, hentry, heq⟩
  · rwa [heq]
  · rw [h.limits_eq] at hentry
    have hput : Uniform limit (m.put t.block entry) := h.put hentry
    rwa [heq, hput.enforceTotal]

theorem addTids (h : Uniform limit m) (ts : List Tid) : Uniform limit (m.addTids ts) := by
  induction ts generalizing m with
  | nil => exact h
  | cons t ts ih => exact ih (h.addTid t)

theorem addBlock (h : Uniform limit m) (block : UInt32) : Uniform limit (m.addBlock block) := by
  rw [TidBitmap.addBlock, (h.makeLossy block).enforceTotal]
  exact h.makeLossy block

/-- An intersection knows of a block what follows from both sides. -/
theorem page?_inter (h : Uniform limit m) (n : TidBitmap) (block : UInt32) :
    (m.inter n).page? block = PageEntry.meet? (m.page? block) (n.page? block) := by
  rw [TidBitmap.inter, enforceTotal_of_cap]
  · exact page?_common m n block
  · show m.limits.maxEntries = maxCount
    rw [h.limits_eq]

theorem inter (h : Uniform limit m) (n : TidBitmap) : Uniform limit (m.inter n) where
  limits_eq := by
    rw [TidBitmap.inter, enforceTotal_of_cap]
    · exact h.limits_eq
    · show m.limits.maxEntries = maxCount
      rw [h.limits_eq]
  entryCap_eq := by
    rw [TidBitmap.inter, enforceTotal_of_cap]
    all_goals
      show m.limits.maxEntries = maxCount
      rw [h.limits_eq]
  within block := by
    rw [h.page?_inter]
    exact (h.within block).meet?

/-- Merging a page changes what is known about its block alone. -/
theorem page?_mergePage (h : Uniform limit m) (p : Page) (block : UInt32) :
    (m.mergePage p).page? block =
      if block = p.1 then PageEntry.merge? limit (m.page? block) (some p.2)
      else m.page? block := by
  obtain ⟨k, e⟩ := p
  by_cases hk : block = k
  · subst hk
    rw [if_pos rfl]
    unfold TidBitmap.mergePage
    rcases hpage : m.page? block with _ | s | _ <;> rcases e with t | _
    all_goals simp [hpage, page?_put, TidBitmap.makeLossy, h.limitedPage_eq, PageEntry.merge?]
  · rw [if_neg hk]
    unfold TidBitmap.mergePage
    split
    · rfl
    all_goals exact (page?_put ..).trans (if_neg hk)

theorem mergePage (h : Uniform limit m) (p : Page) : Uniform limit (m.mergePage p) := by
  rcases m.mergePage_cases p with heq | ⟨entry, hentry, heq⟩
  · rwa [heq]
  · rw [h.limits_eq] at hentry
    rw [heq]
    exact h.put hentry

theorem foldl_mergePage (h : Uniform limit m) (ps : List Page) :
    Uniform limit (ps.foldl TidBitmap.mergePage m) := by
  induction ps generalizing m with
  | nil => exact h
  | cons p ps ih => exact ih (h.mergePage p)

/-- Merging pages of different blocks merges what they say into what is known. -/
theorem page?_foldl_mergePage (h : Uniform limit m) {ps : List Page}
    (hps : (Assoc.keys ps).Nodup) (block : UInt32) :
    (ps.foldl TidBitmap.mergePage m).page? block =
      PageEntry.merge? limit (m.page? block) (Assoc.find? block ps) := by
  induction ps generalizing m with
  | nil => exact (PageEntry.merge?_none limit _).symm
  | cons p ps ih =>
    have ⟨hfirst, hrest⟩ := List.nodup_cons.mp hps
    rw [List.foldl_cons, ih (h.mergePage p) hrest, h.page?_mergePage, Assoc.find?]
    by_cases hblock : block = p.1
    · -- The block has its page here, and none of the others is about it.
      subst hblock
      rw [if_pos rfl, if_pos rfl, Assoc.find?_eq_none_iff.mpr hfirst, PageEntry.merge?_none]
    · rw [if_neg hblock, if_neg (Ne.symm hblock)]

/-- A union knows of a block what either side says, merged under the limit. -/
theorem page?_union (h : Uniform limit m) (n : TidBitmap) (block : UInt32) :
    (m.union n).page? block =
      PageEntry.merge? limit (m.page? block) (n.page? block) := by
  rw [TidBitmap.union, (h.foldl_mergePage n.pages).enforceTotal, n.page?_eq_find?]
  exact h.page?_foldl_mergePage n.blocks_nodup block

theorem union (h : Uniform limit m) (n : TidBitmap) : Uniform limit (m.union n) := by
  rw [TidBitmap.union, (h.foldl_mergePage n.pages).enforceTotal]
  exact h.foldl_mergePage n.pages

end Uniform

/-- A bitmap that was built without a limit on its entries keeps to the limit for a block. -/
theorem Built.uniform (h : Built ⟨limit, maxCount⟩ m) : Uniform limit m := by
  induction h with
  | empty => exact ⟨rfl, rfl, fun _ => nofun⟩
  | addTid t _ ih => exact ih.addTid t
  | addTids ts _ ih => exact ih.addTids ts
  | addBlock block _ ih => exact ih.addBlock block
  | inter _ _ ih _ => exact ih.inter _
  | union _ _ ih _ => exact ih.union _

/-! ## Laws -/

/-- Intersection and union of bitmaps built under one limit for a block are commutative,
associative and idempotent; intersection distributes over union if the limit is none. -/
theorem inter_union_laws (ha : Built ⟨limit, maxCount⟩ a) (hb : Built ⟨limit, maxCount⟩ b)
    (hc : Built ⟨limit, maxCount⟩ c) :
    (a.inter b == b.inter a) = true ∧
      ((a.inter b).inter c == a.inter (b.inter c)) = true ∧
      (a.inter a == a) = true ∧
      (a.union b == b.union a) = true ∧
      ((a.union b).union c == a.union (b.union c)) = true ∧
      (a.union a == a) = true ∧
      (OffsetSet.offsetCount ≤ limit →
        (a.inter (b.union c) == (a.inter b).union (a.inter c)) = true) := by
  have ha := ha.uniform
  have hb := hb.uniform
  have hc := hc.uniform
  -- Bitmaps are equal if they have the same pages, so that each law is one of pages.
  simp only [beq_iff]
  refine ⟨?_, ?_, ?_, ?_, ?_, ?_, ?_⟩
  · intro block
    rw [ha.page?_inter, hb.page?_inter]
    exact PageEntry.meet?_comm _ _
  · intro block
    rw [(ha.inter b).page?_inter, ha.page?_inter, ha.page?_inter, hb.page?_inter]
    exact PageEntry.meet?_assoc _ _ _
  · intro block
    rw [ha.page?_inter]
    exact PageEntry.meet?_self _
  · intro block
    rw [ha.page?_union, hb.page?_union]
    exact PageEntry.merge?_comm (ha.within block) (hb.within block)
  · intro block
    rw [(ha.union b).page?_union, ha.page?_union, ha.page?_union, hb.page?_union]
    exact PageEntry.merge?_assoc (ha.within block) (hb.within block) (hc.within block)
  · intro block
    rw [ha.page?_union]
    exact PageEntry.merge?_self (ha.within block)
  -- A limit that pages do not reach leaves unions exact, over which intersections distribute.
  · intro hlimit block
    rw [ha.page?_inter, hb.page?_union, (ha.inter b).page?_union, ha.page?_inter, ha.page?_inter]
    exact PageEntry.meet?_merge? hlimit _ _ _

/-- Under a limit, a union may become lossy whose intersection with a third bitmap is not. -/
example :
    let one : TidBitmap := (TidBitmap.empty ⟨1, maxCount⟩).addTid ⟨0, 1⟩
    let two : TidBitmap := (TidBitmap.empty ⟨1, maxCount⟩).addTid ⟨0, 2⟩
    (one.inter (one.union two) == (one.inter one).union (one.inter two)) = false := by
  decide

/-- A bitmap without limits that has one tuple. -/
def oneTuple (t : Tid) : TidBitmap :=
  (TidBitmap.empty ⟨OffsetSet.offsetCount, maxCount⟩).addTid t

theorem built_oneTuple (t : Tid) : Built ⟨OffsetSet.offsetCount, maxCount⟩ (oneTuple t) :=
  .addTid t .empty

/-- A tuple, a page from which all tuples were removed, and a lossy page, all of one block. -/
theorem inter_union_laws_oneBlock :
    Built ⟨OffsetSet.offsetCount, maxCount⟩ (oneTuple ⟨0, 1⟩) ∧
      Built ⟨OffsetSet.offsetCount, maxCount⟩ ((oneTuple ⟨0, 1⟩).inter (oneTuple ⟨0, 2⟩)) ∧
      Built ⟨OffsetSet.offsetCount, maxCount⟩ ((oneTuple ⟨1, 1⟩).addBlock 0) ∧
      OffsetSet.offsetCount ≤ OffsetSet.offsetCount ∧
      ((oneTuple ⟨0, 1⟩).inter
          (((oneTuple ⟨0, 1⟩).inter (oneTuple ⟨0, 2⟩)).union ((oneTuple ⟨1, 1⟩).addBlock 0)) ==
        ((oneTuple ⟨0, 1⟩).inter ((oneTuple ⟨0, 1⟩).inter (oneTuple ⟨0, 2⟩))).union
          ((oneTuple ⟨0, 1⟩).inter ((oneTuple ⟨1, 1⟩).addBlock 0))) = true := by
  have ha := built_oneTuple ⟨0, 1⟩
  have hb := ha.inter (built_oneTuple ⟨0, 2⟩)
  have hc := (built_oneTuple ⟨1, 1⟩).addBlock 0
  obtain ⟨-, -, -, -, -, -, hdistributes⟩ := inter_union_laws ha hb hc
  exact ⟨ha, hb, hc, le_rfl, hdistributes le_rfl⟩

end TidBitmap

end PullQuery
