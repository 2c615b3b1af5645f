import Mathlib.Data.List.Perm.Basic
import PullQuery.Bitmap.Algebra
import PullQuery.Proofs.Bitmap.Offsets

/-!
# Candidates are never lost

A bitmap may only err on the side of too many candidates. A tuple that is a candidate stays one
when the bitmap gives up exact pages to keep within its limits, when further tuples or blocks
are added, and when the bitmap is united with another on either side.

## Main definitions

* `TidBitmap.HasCandidate`: whether a bitmap does not rule a tuple out

## Main results

* `TidBitmap.enforceTotal_keeps`: what each step of shrinking keeps, shrinking keeps
* `TidBitmap.HasCandidate.enforceTotalBy`
* `TidBitmap.hasCandidate_addTids`, `TidBitmap.hasCandidate_addBlocks`
* `TidBitmap.HasCandidate.union_left`, `TidBitmap.HasCandidate.union_right`
-/

namespace PullQuery

/-- Whether a page does not rule out an offset. -/
def PageEntry.Admits (e : PageEntry) (offset : UInt16) : Prop :=
  match e with
  | lossy => True
  | exact offsets => offsets.contains offset = true

theorem PageEntry.admits_limited {limit : Nat} {offsets : OffsetSet} {offset : UInt16}
    (h : offsets.contains offset = true) : (limited limit offsets).Admits offset := by
  unfold limited
  split
  · exact trivial
  · exact h

namespace TidBitmap

variable {m n : TidBitmap} {t : Tid} {block : UInt32} {entry : PageEntry}

/-- Whether a bitmap does not rule a tuple out. -/
def HasCandidate (m : TidBitmap) (t : Tid) : Prop := m.lookup t ≠ .absent

theorem hasCandidate_iff :
    m.HasCandidate t ↔ ∃ e, m.page? t.block = some e ∧ e.Admits t.offset := by
  unfold HasCandidate lookup
  rcases m.page? t.block with _ | offsets | _
  · simp
  · by_cases h : offsets.contains t.offset = true <;> simp [h, PageEntry.Admits]
  · simp [PageEntry.Admits]

section Fold

variable {α : Type} {f : TidBitmap → α → TidBitmap} {xs : List α}

theorem HasCandidate.foldl (h : m.HasCandidate t)
    (hkeep : ∀ m x, m.HasCandidate t → (f m x).HasCandidate t) :
    (xs.foldl f m).HasCandidate t := by
  induction xs generalizing m with
  | nil => exact h
  | cons x xs ih => exact ih (hkeep m x h)

/-- A candidate that one step brings in and all steps keep is there in the end. -/
theorem hasCandidate_foldl {x : α} (hx : x ∈ xs)
    (hkeep : ∀ m y, m.HasCandidate t → (f m y).HasCandidate t)
    (hadd : ∀ m, (f m x).HasCandidate t) (m : TidBitmap) : (xs.foldl f m).HasCandidate t := by
  induction xs generalizing m with
  | nil => contradiction
  | cons y ys ih =>
    rcases List.mem_cons.mp hx with rfl | hx
    · exact (hadd m).foldl hkeep
    · exact ih hx (f m y)

end Fold

/-! ## Pages that are written -/

theorem hasCandidate_put_self (h : entry.Admits t.offset) (hb : t.block = block) :
    (m.put block entry).HasCandidate t :=
  hasCandidate_iff.mpr ⟨entry, by rw [page?_put, if_pos hb], h⟩

/-- A page that admits what the old one admits loses no candidate. -/
theorem HasCandidate.put (h : m.HasCandidate t)
    (hentry : ∀ e, m.page? block = some e → e.Admits t.offset → entry.Admits t.offset) :
    (m.put block entry).HasCandidate t := by
  obtain ⟨e, hpage, he⟩ := hasCandidate_iff.mp h
  by_cases hb : t.block = block
  · exact hasCandidate_put_self (hentry e (hb ▸ hpage) he) hb
  · exact hasCandidate_iff.mpr ⟨e, by rwa [page?_put, if_neg hb], he⟩

theorem HasCandidate.makeLossy (h : m.HasCandidate t) (block : UInt32) :
    (m.makeLossy block).HasCandidate t := h.put fun _ _ _ => trivial

theorem hasCandidate_makeLossy (m : TidBitmap) (t : Tid) :
    (m.makeLossy t.block).HasCandidate t := hasCandidate_put_self trivial rfl

/-! ## Shrinking -/

section Keeping

variable {P : TidBitmap → Prop}

/-- What giving up one exact page keeps, giving up page after page keeps. -/
theorem lossifyUntil_keeps {target : Nat} (hmake : ∀ m b, P m → P (m.makeLossy b))
    (bs : List UInt32) (h : P m) : P (lossifyUntil target bs m) := by
  induction bs generalizing m with
  | nil => exact h
  | cons b bs ih =>
    rw [lossifyUntil]
    split
    · exact h
    · exact ih (hmake m b h)

/-- What giving up one exact page and raising the limit in force keep, shrinking in any order
keeps. -/
theorem enforceTotalBy_keeps (hmake : ∀ m b, P m → P (m.makeLossy b))
    (hraise : ∀ m cap, P m → P (m.raiseCap cap)) (order : List UInt32) (h : P m) :
    P (m.enforceTotalBy order) := by
  have hshrunk : P (lossifyUntil m.shrinkTarget order m) := lossifyUntil_keeps hmake order h
  unfold enforceTotalBy
  split
  · exact h
  · dsimp only
    split
    · exact hshrunk
    · exact hraise _ _ hshrunk

end Keeping

/-- Giving up exact pages makes candidates less exact and loses none. -/
theorem HasCandidate.enforceTotalBy (h : m.HasCandidate t) (order : List UInt32) :
    (m.enforceTotalBy order).HasCandidate t :=
  -- A higher limit leaves the pages as they are.
  enforceTotalBy_keeps (P := (·.HasCandidate t)) (fun _ b hm => hm.makeLossy b)
    (fun _ _ hm => hm) order h

theorem HasCandidate.enforceTotal (h : m.HasCandidate t) : m.enforceTotal.HasCandidate t :=
  h.enforceTotalBy _

/-! ## Adding -/

theorem HasCandidate.addTid (h : m.HasCandidate t) (u : Tid) : (m.addTid u).HasCandidate t := by
  unfold TidBitmap.addTid
  split
  · exact h
  · next offsets hpage =>
    -- The page gets one offset more, and keeps those that it had.
    refine (h.put ?_).enforceTotal
    intro e he hadmits
    obtain rfl := Option.some.inj (hpage.symm.trans he)
    apply PageEntry.admits_limited
    rw [OffsetSet.contains_insert]
    exact Bool.or_eq_true_iff.mpr (.inr hadmits)
  · next hnone =>
    refine (h.put ?_).enforceTotal
    intro e he _
    rw [hnone] at he
    contradiction

theorem hasCandidate_addTid (m : TidBitmap) (t : Tid) : (m.addTid t).HasCandidate t := by
  unfold TidBitmap.addTid
  split
  · next hpage => exact hasCandidate_iff.mpr ⟨_, hpage, trivial⟩
  all_goals
    refine (hasCandidate_put_self (PageEntry.admits_limited ?_) rfl).enforceTotal
    simp [OffsetSet.contains_insert]

theorem hasCandidate_addTids {ts : List Tid} (h : t ∈ ts) (m : TidBitmap) :
    (m.addTids ts).HasCandidate t :=
  hasCandidate_foldl h (fun _ u hm => hm.addTid u) (fun m => hasCandidate_addTid m t) m

theorem HasCandidate.addBlock (h : m.HasCandidate t) (block : UInt32) :
    (m.addBlock block).HasCandidate t := (h.makeLossy block).enforceTotal

theorem hasCandidate_addBlocks {ts : List Tid} (h : t ∈ ts) (m : TidBitmap) :
    (ts.foldl (fun m u => m.addBlock u.block) m).HasCandidate t :=
  hasCandidate_foldl h (fun _ u hm => hm.addBlock u.block)
    (fun m => (hasCandidate_makeLossy m t).enforceTotal) m

/-! ## Unions -/

theorem HasCandidate.mergePage (h : m.HasCandidate t) (p : Page) :
    (m.mergePage p).HasCandidate t := by
  unfold TidBitmap.mergePage
  split
  · exact h
  · exact h.makeLossy p.1
  -- Two exact pages are united.
  · next s _ hpage _ =>
    apply h.put
    intro e he hadmits
    obtain rfl := Option.some.inj (hpage.symm.trans he)
    apply PageEntry.admits_limited
    rw [OffsetSet.contains_union]
    exact Bool.or_eq_true_iff.mpr (.inl hadmits)
  · next hnone _ =>
    apply h.put
    intro e he _
    rw [hnone] at he
    contradiction

theorem hasCandidate_mergePage {e : PageEntry} (h : e.Admits t.offset) (m : TidBitmap) :
    (m.mergePage (t.block, e)).HasCandidate t := by
  unfold TidBitmap.mergePage
  split
  · next hpage => exact hasCandidate_iff.mpr ⟨_, hpage, trivial⟩
  · exact hasCandidate_makeLossy m t
  · next hentry =>
    refine hasCandidate_put_self (PageEntry.admits_limited ?_) rfl
    simp only at hentry
    subst hentry
    rw [OffsetSet.contains_union]
    exact Bool.or_eq_true_iff.mpr (.inr h)
  · next hentry =>
    simp only at hentry
    subst hentry
    exact hasCandidate_put_self (PageEntry.admits_limited h) rfl

theorem HasCandidate.union_left (h : m.HasCandidate t) (n : TidBitmap) :
    (m.union n).HasCandidate t :=
  HasCandidate.enforceTotal (h.foldl fun _ p hm => hm.mergePage p)

theorem HasCandidate.union_right (h : n.HasCandidate t) (m : TidBitmap) :
    (m.union n).HasCandidate t := by
  obtain ⟨e, hpage, he⟩ := hasCandidate_iff.mp h
  have hmem : (t.block, e) ∈ n.pages := page?_eq_some_iff.mp hpage
  exact HasCandidate.enforceTotal
    (hasCandidate_foldl hmem (fun _ p hm => hm.mergePage p) (hasCandidate_mergePage he) m)

end TidBitmap

end PullQuery
