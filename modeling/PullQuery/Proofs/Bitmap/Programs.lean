import Mathlib.Data.Set.Basic
import Mathlib.Data.Set.Insert
import PullQuery.Proofs.Bitmap.Exactness

/-!
# Programs over bitmaps

A program keeps bitmaps in registers, each under limits of its own. Beside the bitmaps we follow
the sets of tuples that the same program makes. The bitmap of a register rules out no tuple of
its set, and it has exactly only tuples that were added one by one; a block that has become lossy
stays so while the register is only added to.

## Main definitions

* `BitmapStep`, `BitmapStep.exec`: what a program does, and the bitmaps that it leaves
* `BitmapStep.denote`: the sets of tuples that it leaves
* `TidBitmap.IsLossy`: whether a block is lossy

## Main results

* `BitmapStep.bitmap_hasCandidate`, `BitmapStep.mem_of_bitmap_isExact`, `BitmapStep.bitmap_isLossy`:
  what one step does
* `BitmapStep.exec_approximates`: the three together for programs from empty registers
-/

namespace PullQuery

namespace TidBitmap

variable {m n : TidBitmap} {t : Tid} {block : UInt32} {entry : PageEntry}

/-! ## Lossy blocks -/

/-- Whether every tuple of a block has to be checked again. -/
def IsLossy (m : TidBitmap) (block : UInt32) : Prop := m.page? block = some .lossy

theorem IsLossy.page?_eq (h : m.IsLossy block) : m.page? block = some .lossy := h

theorem isLossy?_eq_some_true_iff : m.isLossy? block = some true ↔ m.IsLossy block := by
  unfold isLossy? IsLossy
  rcases m.page? block with _ | offsets | _
  · simp
  · simp [PageEntry.isLossy]
  · simp [PageEntry.isLossy]

theorem IsLossy.put {b : UInt32} (h : m.IsLossy block) (hb : block ≠ b) :
    (m.put b entry).IsLossy block := by
  unfold IsLossy
  rw [page?_put, if_neg hb]
  exact h

theorem isLossy_makeLossy (m : TidBitmap) (block : UInt32) :
    (m.makeLossy block).IsLossy block := by
  unfold IsLossy makeLossy
  rw [page?_put, if_pos rfl]

theorem IsLossy.makeLossy (h : m.IsLossy block) (b : UInt32) : (m.makeLossy b).IsLossy block := by
  by_cases hb : block = b
  · subst hb
    exact isLossy_makeLossy m block
  · exact h.put hb

theorem IsLossy.enforceTotalBy (h : m.IsLossy block) (order : List UInt32) :
    (m.enforceTotalBy order).IsLossy block :=
  enforceTotalBy_keeps (P := (·.IsLossy block)) (fun _ b hm => hm.makeLossy b)
    (fun _ _ hm => hm) order h

theorem IsLossy.enforceTotal (h : m.IsLossy block) : m.enforceTotal.IsLossy block :=
  h.enforceTotalBy _

theorem IsLossy.addTid (h : m.IsLossy block) (t : Tid) : (m.addTid t).IsLossy block := by
  unfold TidBitmap.addTid
  split
  · exact h
  -- The page that is written is another one, for this one is lossy.
  all_goals
    next hpage =>
    refine (h.put ?_).enforceTotal
    rintro rfl
    simp [h.page?_eq] at hpage

theorem IsLossy.addTids (h : m.IsLossy block) (ts : List Tid) : (m.addTids ts).IsLossy block := by
  induction ts generalizing m with
  | nil => exact h
  | cons t ts ih => exact ih (h.addTid t)

theorem IsLossy.addBlock (h : m.IsLossy block) (b : UInt32) : (m.addBlock b).IsLossy block :=
  (h.makeLossy b).enforceTotal

theorem IsLossy.mergePage (h : m.IsLossy block) (p : Page) : (m.mergePage p).IsLossy block := by
  unfold TidBitmap.mergePage
  split
  · exact h
  · exact h.makeLossy p.1
  all_goals
    next hpage _ =>
    apply h.put
    rintro rfl
    simp [h.page?_eq] at hpage

theorem IsLossy.foldl_mergePage (ps : List Page) (h : m.IsLossy block) :
    (ps.foldl TidBitmap.mergePage m).IsLossy block := by
  induction ps generalizing m with
  | nil => exact h
  | cons p ps ih => exact ih (h.mergePage p)

theorem isLossy_mergePage (m : TidBitmap) (block : UInt32) :
    (m.mergePage (block, .lossy)).IsLossy block := by
  unfold TidBitmap.mergePage
  split
  · next hpage => exact hpage
  · exact isLossy_makeLossy m block
  · next hentry => contradiction
  · next hentry => contradiction

theorem IsLossy.union_left (h : m.IsLossy block) (n : TidBitmap) : (m.union n).IsLossy block :=
  IsLossy.enforceTotal (h.foldl_mergePage n.pages)

theorem IsLossy.union_right (h : n.IsLossy block) (m : TidBitmap) :
    (m.union n).IsLossy block := by
  apply IsLossy.enforceTotal
  -- The fold meets the lossy page, and keeps what it makes of it.
  obtain ⟨before, after, hpages⟩ := List.append_of_mem (page?_eq_some_iff.mp h)
  rw [hpages, List.foldl_append, List.foldl_cons]
  exact (isLossy_mergePage _ block).foldl_mergePage after

/-! ## Tuples that are added -/

theorem HasCandidate.addTids (h : m.HasCandidate t) (ts : List Tid) :
    (m.addTids ts).HasCandidate t := h.foldl fun _ u hm => hm.addTid u

/-- Adding a tuple makes the answer about that tuple exact at most. -/
theorem IsExact.of_addTid {u : Tid} (h : (m.addTid u).IsExact t) : m.IsExact t ∨ t = u := by
  -- A page that is written holds the offsets of the old page and the new one.
  have hwritten : ∀ s : OffsetSet, (s.contains t.offset = true → t.block = u.block → m.IsExact t) →
      (m.put u.block (m.limitedPage (s.insert u.offset))).IsExact t → m.IsExact t ∨ t = u := by
    intro s hs hput
    rcases hput.of_put with hput | ⟨hblock, v, hv, hoffset⟩
    · exact .inl hput
    · obtain rfl := limitedPage_eq_exact hv
      rw [OffsetSet.contains_insert, Bool.or_eq_true, decide_eq_true_eq] at hoffset
      rcases hoffset with hoffset | hoffset
      · right
        cases t
        cases u
        simp_all
      · exact .inl (hs hoffset hblock)
  unfold TidBitmap.addTid at h
  split at h
  · exact .inl h
  · next s hpage =>
    apply hwritten s _ h.of_enforceTotal
    intro hs hblock
    exact isExact_iff.mpr ⟨s, hblock ▸ hpage, hs⟩
  · apply hwritten .empty _ h.of_enforceTotal
    intro hs
    simp at hs

theorem IsExact.of_addTids {ts : List Tid} (h : (m.addTids ts).IsExact t) :
    m.IsExact t ∨ t ∈ ts := by
  induction ts generalizing m with
  | nil => exact .inl h
  | cons u ts ih =>
    rcases ih (m := m.addTid u) h with h | h
    · rcases h.of_addTid with h | rfl
      · exact .inl h
      · exact .inr (List.mem_cons_self ..)
    · exact .inr (List.mem_cons_of_mem u h)

theorem IsExact.of_addBlock (h : (m.addBlock block).IsExact t) : m.IsExact t :=
  h.of_enforceTotal.of_makeLossy

end TidBitmap

/-! ## Programs -/

/-- What a program does with the bitmaps in its registers. A combination may be written to a
register that it reads. -/
inductive BitmapStep (ι : Type) where
  /-- A new bitmap under limits. -/
  | create (r : ι) (limits : BitmapLimits)
  | addTid (r : ι) (t : Tid)
  | addTids (r : ι) (ts : List Tid)
  | addBlock (r : ι) (block : UInt32)
  | clone (r source : ι)
  | union (r a b : ι)
  | inter (r a b : ι)

namespace BitmapStep

variable {ι : Type}

/-- The register that a step writes. -/
def target : BitmapStep ι → ι
  | create r _ => r
  | addTid r _ => r
  | addTids r _ => r
  | addBlock r _ => r
  | clone r _ => r
  | union r _ _ => r
  | inter r _ _ => r

/-- The bitmap that a step writes. -/
def bitmap (σ : ι → TidBitmap) : BitmapStep ι → TidBitmap
  | create _ limits => .empty limits
  | addTid r t => (σ r).addTid t
  | addTids r ts => (σ r).addTids ts
  | addBlock r block => (σ r).addBlock block
  | clone _ source => σ source
  | union _ a b => (σ a).union (σ b)
  | inter _ a b => (σ a).inter (σ b)

/-- The set of tuples that a step makes of the sets in the registers, where adding a block adds
the tuples `whole block`. -/
def tids (whole : UInt32 → Set Tid) (S : ι → Set Tid) : BitmapStep ι → Set Tid
  | create _ _ => ∅
  | addTid r t => insert t (S r)
  | addTids r ts => S r ∪ {t | t ∈ ts}
  | addBlock r block => S r ∪ whole block
  | clone _ source => S source
  | union _ a b => S a ∪ S b
  | inter _ a b => S a ∩ S b

/-- Whether a step leaves a register alone or adds to what it holds. -/
def OnlyAdds (r : ι) : BitmapStep ι → Prop
  | create r' _ => r' ≠ r
  | addTid _ _ => True
  | addTids _ _ => True
  | addBlock _ _ => True
  | clone r' _ => r' ≠ r
  | union r' a b => r' = r → a = r ∨ b = r
  | inter r' _ _ => r' ≠ r

/-! ### One step -/

/-- Every tuple of the block. -/
def wholeBlock (block : UInt32) : Set Tid := {t | t.block = block}

variable {σ : ι → TidBitmap} {S : ι → Set Tid} {s : BitmapStep ι} {t : Tid} {r : ι}
  {block : UInt32}

theorem bitmap_hasCandidate (h : ∀ r, ∀ t ∈ S r, (σ r).HasCandidate t)
    (ht : t ∈ s.tids wholeBlock S) : (s.bitmap σ).HasCandidate t := by
  cases s with
  | create r limits => contradiction
  | addTid r u =>
    rcases ht with rfl | ht
    · exact TidBitmap.hasCandidate_addTid (σ r) t
    · exact (h r t ht).addTid u
  | addTids r ts =>
    rcases ht with ht | ht
    · exact (h r t ht).addTids ts
    · exact TidBitmap.hasCandidate_addTids ht (σ r)
  | addBlock r block =>
    rcases ht with ht | rfl
    · exact (h r t ht).addBlock block
    · exact (TidBitmap.hasCandidate_makeLossy (σ r) t).enforceTotal
  | clone r source => exact h source t ht
  | union r a b =>
    rcases ht with ht | ht
    · exact (h a t ht).union_left (σ b)
    · exact (h b t ht).union_right (σ a)
  | inter r a b => exact (h a t ht.1).inter (h b t ht.2)

theorem mem_of_bitmap_isExact (h : ∀ r t, (σ r).IsExact t → t ∈ S r)
    (ht : (s.bitmap σ).IsExact t) : t ∈ s.tids (fun _ => ∅) S := by
  cases s with
  | create r limits => exact absurd ht (TidBitmap.not_isExact_empty limits t)
  | addTid r u =>
    rcases TidBitmap.IsExact.of_addTid ht with ht | rfl
    · exact .inr (h r t ht)
    · exact .inl rfl
  | addTids r ts =>
    rcases TidBitmap.IsExact.of_addTids ht with ht | ht
    · exact .inl (h r t ht)
    · exact .inr ht
  | addBlock r block => exact .inl (h r t (TidBitmap.IsExact.of_addBlock ht))
  | clone r source => exact h source t ht
  | union r a b =>
    rcases TidBitmap.IsExact.of_union ht with ht | ht
    · exact .inl (h a t ht)
    · exact .inr (h b t ht)
  | inter r a b =>
    obtain ⟨hleft, hright⟩ := TidBitmap.IsExact.of_inter ht
    exact ⟨h a t hleft, h b t hright⟩

/-- A step that writes a register and only adds to it leaves its lossy blocks lossy. -/
theorem bitmap_isLossy (hs : s.OnlyAdds s.target) (h : (σ s.target).IsLossy block) :
    (s.bitmap σ).IsLossy block := by
  cases s with
  | create r limits => exact absurd rfl hs
  | addTid r u => exact TidBitmap.IsLossy.addTid h u
  | addTids r ts => exact TidBitmap.IsLossy.addTids h ts
  | addBlock r b => exact TidBitmap.IsLossy.addBlock h b
  | clone r source => exact absurd rfl hs
  | union r a b =>
    rcases hs rfl with rfl | rfl
    · exact TidBitmap.IsLossy.union_left h (σ b)
    · exact TidBitmap.IsLossy.union_right h (σ a)
  | inter r a b => exact absurd rfl hs

/-! ### Runs -/

variable [DecidableEq ι]

/-- The bitmaps in the registers after steps. -/
def exec (steps : List (BitmapStep ι)) (σ : ι → TidBitmap) : ι → TidBitmap :=
  steps.foldl (fun σ s => Function.update σ s.target (s.bitmap σ)) σ

/-- The sets of tuples in the registers after steps. -/
def denote (whole : UInt32 → Set Tid) (steps : List (BitmapStep ι)) (S : ι → Set Tid) :
    ι → Set Tid :=
  steps.foldl (fun S s => Function.update S s.target (s.tids whole S)) S

/-- Empty bitmaps under the limits of their registers. -/
def emptied (limits : ι → BitmapLimits) : ι → TidBitmap := fun r => .empty (limits r)

section Related

variable {β : Type} {R : TidBitmap → β → Prop}

/-- What relates all registers of two families still does when one register is written on both
sides, if it relates what is written. -/
theorem forall_update {S : ι → β} (h : ∀ r, R (σ r) (S r)) (r : ι) {m : TidBitmap} {b : β}
    (hnew : R m b) (r' : ι) : R (Function.update σ r m r') (Function.update S r b r') := by
  by_cases hr : r' = r
  · subst hr
    rw [Function.update_self, Function.update_self]
    exact hnew
  · rw [Function.update_of_ne hr, Function.update_of_ne hr]
    exact h r'

/-- What every step keeps between the bitmaps and a second family of registers that the same steps
write, a program keeps. -/
theorem exec_related {write : (ι → β) → BitmapStep ι → β} {S : ι → β}
    (hstep : ∀ (s : BitmapStep ι) σ S, (∀ r, R (σ r) (S r)) → R (s.bitmap σ) (write S s))
    (steps : List (BitmapStep ι)) (h : ∀ r, R (σ r) (S r)) (r : ι) :
    R (exec steps σ r)
      (steps.foldl (fun S s => Function.update S s.target (write S s)) S r) := by
  induction steps generalizing σ S with
  | nil => exact h r
  | cons s steps ih =>
    apply ih
    intro r'
    exact forall_update h s.target (hstep s σ S h) r'

end Related

/-- What every step keeps of the bitmaps and the sets in the registers, a program keeps. -/
theorem exec_induction {R : TidBitmap → Set Tid → Prop} {whole : UInt32 → Set Tid}
    (hstep : ∀ (s : BitmapStep ι) σ S, (∀ r, R (σ r) (S r)) → R (s.bitmap σ) (s.tids whole S))
    (steps : List (BitmapStep ι)) (h : ∀ r, R (σ r) (S r)) (r : ι) :
    R (exec steps σ r) (denote whole steps S r) := exec_related hstep steps h r

/-- A lossy block stays lossy while its register is only added to. -/
theorem exec_isLossy {steps : List (BitmapStep ι)} (hsteps : ∀ s ∈ steps, s.OnlyAdds r)
    (h : (σ r).IsLossy block) : (exec steps σ r).IsLossy block := by
  induction steps generalizing σ with
  | nil => exact h
  | cons s steps ih =>
    have hrest : ∀ s' ∈ steps, s'.OnlyAdds r := by
      intro s' hs'
      exact hsteps s' (List.mem_cons_of_mem s hs')
    have hstep : (Function.update σ s.target (s.bitmap σ) r).IsLossy block := by
      by_cases hr : r = s.target
      · subst hr
        rw [Function.update_self]
        exact bitmap_isLossy (hsteps s (List.mem_cons_self ..)) h
      · rw [Function.update_of_ne hr]
        exact h
    exact ih hrest hstep

/-- A program neither loses nor invents candidates: no tuple of a register's set is ruled out,
only tuples that were added one by one are exact, and a lossy block stays lossy while its
register is only added to. -/
theorem exec_approximates (limits : ι → BitmapLimits) (steps : List (BitmapStep ι)) (r : ι) :
    (∀ t ∈ denote wholeBlock steps (fun _ => ∅) r,
        (exec steps (emptied limits) r).lookup t ≠ .absent) ∧
      (∀ t, (exec steps (emptied limits) r).lookup t = .exact →
        t ∈ denote (fun _ => ∅) steps (fun _ => ∅) r) ∧
      ∀ (later : List (BitmapStep ι)) (block : UInt32), (∀ s ∈ later, s.OnlyAdds r) →
        (exec steps (emptied limits) r).isLossy? block = some true →
        (exec (steps ++ later) (emptied limits) r).isLossy? block = some true := by
  refine ⟨?_, ?_, ?_⟩
  · -- An empty set has no tuple that could be ruled out.
    refine exec_induction (R := fun m T => ∀ t ∈ T, m.HasCandidate t) ?_ steps ?_ r
    · intro s σ S h t ht
      exact bitmap_hasCandidate h ht
    · intro r' t ht
      contradiction
  · refine exec_induction (R := fun m T => ∀ t, m.IsExact t → t ∈ T) ?_ steps ?_ r
    · intro s σ S h t ht
      exact mem_of_bitmap_isExact h ht
    · intro r' t ht
      exact absurd ht (TidBitmap.not_isExact_empty (limits r') t)
  · intro later block hlater hlossy
    rw [TidBitmap.isLossy?_eq_some_true_iff] at hlossy ⊢
    rw [exec, List.foldl_append]
    exact exec_isLossy hlater hlossy

/-- Limits of which one register soon runs out. -/
def narrowOrWide (wide : Bool) : BitmapLimits := if wide then {} else ⟨2, 3⟩

/-- Three tuples of one block, too many for the narrow register, are joined with two tuples and
then cut down to them. -/
def joinedAndCut : List (BitmapStep Bool) :=
  [.addTids false [⟨0, 1⟩, ⟨0, 2⟩, ⟨0, 3⟩], .addTids true [⟨0, 2⟩, ⟨1, 5⟩],
    .union false false true, .inter false false true]

theorem exec_approximates_joinedAndCut :
    (⟨0, 2⟩ ∈ denote wholeBlock joinedAndCut (fun _ => ∅) false ∧
        (exec joinedAndCut (emptied narrowOrWide) false).lookup ⟨0, 2⟩ ≠ .absent) ∧
      ((exec joinedAndCut (emptied narrowOrWide) false).lookup ⟨1, 5⟩ = .exact ∧
        ⟨1, 5⟩ ∈ denote (fun _ => ∅) joinedAndCut (fun _ => ∅) false) ∧
      (∀ s ∈ [BitmapStep.addTid false ⟨0, 7⟩, .union false true false], s.OnlyAdds false) ∧
      (exec joinedAndCut (emptied narrowOrWide) false).isLossy? 0 = some true ∧
      (exec (joinedAndCut ++ [.addTid false ⟨0, 7⟩, .union false true false])
        (emptied narrowOrWide) false).isLossy? 0 = some true := by
  have hmem : ⟨0, 2⟩ ∈ denote wholeBlock joinedAndCut (fun _ => ∅) false := by
    simp [denote, joinedAndCut, tids, target]
  have hexact : (exec joinedAndCut (emptied narrowOrWide) false).lookup ⟨1, 5⟩ = .exact := by
    decide
  have hlater : ∀ s ∈ [BitmapStep.addTid false ⟨0, 7⟩, .union false true false],
      s.OnlyAdds false := by
    simp [OnlyAdds]
  have hlossy : (exec joinedAndCut (emptied narrowOrWide) false).isLossy? 0 = some true := by
    decide
  obtain ⟨hkept, hadded, hstays⟩ := exec_approximates narrowOrWide joinedAndCut false
  exact ⟨⟨hmem, hkept _ hmem⟩, ⟨hexact, hadded _ hexact⟩, hlater, hlossy, hstays _ 0 hlater hlossy⟩

end BitmapStep

end PullQuery
