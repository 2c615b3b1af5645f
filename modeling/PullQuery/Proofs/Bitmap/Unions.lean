import Mathlib.Order.Lattice
import PullQuery.Proofs.Bitmap.Laws

/-!
# Unions of several bitmaps

What can be known about a block under a limit is ordered: a page says more than another if the
other adds nothing to it. Without a limit on the entries, a union knows of each block the least
that says all that the united bitmaps do. So neither their order matters nor how often one of
them is united.

## Main definitions

* `PageEntry.Known`: what can be known about a block under a limit
* `TidBitmap.known`: what a bitmap says about a block, cut down to a limit

## Main results

* `TidBitmap.Uniform.known_union`
* `TidBitmap.Uniform.known_foldl_union_le_iff`: the union of several bitmaps
-/

namespace PullQuery

namespace PageEntry

/-- What can be known about a block, if exact pages hold at most `limit` offsets. -/
def Known (limit : Nat) : Type := {x : Option PageEntry // Within limit x}

variable {limit : Nat} {x y : Option PageEntry}

/-- A page that is too large may be cut down before it is added. -/
theorem merge?_none_merge? (hx : Within limit x) :
    merge? limit x (merge? limit none y) = merge? limit x y := by
  rcases y with _ | t | _
  · rfl
  · rcases x with _ | s | _
    · exact none_merge? (within_limited limit t)
    · exact merge?_limited limit s t
    · rfl
  · rfl

namespace Known

instance : Max (Known limit) where
  max x y := ⟨merge? limit x.1 y.1, x.2.merge?⟩

/-- One thing that is known is below another if it adds nothing to it. -/
instance : SemilatticeSup (Known limit) :=
  SemilatticeSup.mk' (fun x y => Subtype.ext (merge?_comm x.2 y.2))
    (fun x y z => Subtype.ext (merge?_assoc x.2 y.2 z.2))
    (fun x => Subtype.ext (merge?_self x.2))

instance : OrderBot (Known limit) where
  bot := ⟨none, nofun⟩
  bot_le x := Subtype.ext (none_merge? x.2)

end Known

end PageEntry

namespace TidBitmap

variable {limit : Nat} {m n : TidBitmap} {block : UInt32}

/-- What a bitmap says about a block, cut down to a limit. -/
def known (limit : Nat) (m : TidBitmap) (block : UInt32) : PageEntry.Known limit :=
  ⟨PageEntry.merge? limit none (m.page? block), PageEntry.Within.merge? nofun⟩

theorem known_empty (limits : BitmapLimits) (block : UInt32) :
    (empty limits).known limit block = ⊥ := rfl

namespace Uniform

/-- There is nothing to be cut down in a bitmap that keeps to the limit. -/
theorem coe_known (h : Uniform limit m) (block : UInt32) :
    (m.known limit block).1 = m.page? block :=
  PageEntry.none_merge? (h.within block)

/-- Bitmaps that keep to the limit are equal when they know the same of every block. -/
theorem beq_of_known (hm : Uniform limit m) (hn : Uniform limit n)
    (h : ∀ block, m.known limit block = n.known limit block) : (m == n) = true := by
  rw [beq_iff]
  intro block
  rw [← hm.coe_known, ← hn.coe_known, h block]

/-- A union knows of a block what either side does. -/
theorem known_union (h : Uniform limit m) (n : TidBitmap) (block : UInt32) :
    (m.union n).known limit block = m.known limit block ⊔ n.known limit block := by
  apply Subtype.ext
  rw [(h.union n).coe_known, h.page?_union]
  show _ = PageEntry.merge? limit (m.known limit block).1 (n.known limit block).1
  rw [h.coe_known]
  exact (PageEntry.merge?_none_merge? (h.within block)).symm

theorem foldl_union (h : Uniform limit m) (ns : List TidBitmap) :
    Uniform limit (ns.foldl TidBitmap.union m) := by
  induction ns generalizing m with
  | nil => exact h
  | cons n ns ih => exact ih (h.union n)

/-- A union of several bitmaps knows the least that says all that they do. -/
theorem known_foldl_union_le_iff (h : Uniform limit m) {ns : List TidBitmap}
    {u : PageEntry.Known limit} :
    (ns.foldl TidBitmap.union m).known limit block ≤ u ↔
      m.known limit block ≤ u ∧ ∀ n ∈ ns, n.known limit block ≤ u := by
  induction ns generalizing m with
  | nil => simp
  | cons n ns ih =>
    rw [List.foldl_cons, ih (h.union n), h.known_union, sup_le_iff, List.forall_mem_cons,
      and_assoc]

end Uniform

end TidBitmap

end PullQuery
