/-!
# Tuple identifiers

A tuple identifier locates a row version by block and by offset within the block. Offsets
count from one. Identifiers are ordered by block and then by offset, and their encoding in
six bytes keeps that order.

## Main definitions

* `Tid`, `Tid.toBytes`, `Tid.ofBytes?`
* `Tid.maxOffset`: how many tuples a block can hold
-/

namespace PullQuery

/-- The location of a row version. -/
@[ext]
structure Tid where
  block : UInt32
  offset : UInt16
deriving DecidableEq, Repr

namespace Tid

/-- The most tuples a block can hold. -/
def maxOffset : Nat := 291

/-- Whether the offset names a tuple; offset zero does not. -/
def isValid (t : Tid) : Bool := t.offset != 0

theorem isValid_iff {t : Tid} : t.isValid = true ↔ 1 ≤ t.offset.toNat := by
  rw [isValid, bne_iff_ne, ne_eq, ← UInt16.toNat_inj]
  exact Nat.pos_iff_ne_zero.symm

/-- Whether the offset names a tuple that a block can hold. -/
def HasSlot (t : Tid) : Prop := 1 ≤ t.offset.toNat ∧ t.offset.toNat ≤ maxOffset

instance (t : Tid) : Decidable t.HasSlot := inferInstanceAs (Decidable (_ ∧ _))

def toText (t : Tid) : String :=
  "(" ++ toString t.block.toNat ++ "," ++ toString t.offset.toNat ++ ")"

/-! ## Order -/

instance : Ord Tid where
  compare a b := (compare a.block b.block).then (compare a.offset b.offset)

theorem compare_def (a b : Tid) :
    compare a b = (compare a.block b.block).then (compare a.offset b.offset) := rfl

instance : Std.TransOrd Tid :=
  inferInstanceAs (Std.TransCmp (compareLex (compareOn block) (compareOn offset)))

instance : LT Tid := ltOfOrd

instance : LE Tid := leOfOrd

theorem lt_iff {a b : Tid} :
    a < b ↔ a.block < b.block ∨ a.block = b.block ∧ a.offset < b.offset := by
  change compare a b = .lt ↔ _
  simp [compare_def, Ordering.then_eq_lt, Std.compare_eq_lt]

theorem compare_eq_eq_iff {a b : Tid} : compare a b = .eq ↔ a = b := by
  cases a
  cases b
  simp [compare_def, Ordering.then_eq_eq]

instance : Std.LawfulEqOrd Tid where
  eq_of_compare := compare_eq_eq_iff.mp

theorem lt_trans {a b c : Tid} (hab : a < b) (hbc : b < c) : a < c := Std.TransCmp.lt_trans hab hbc

theorem ne_of_lt {a b : Tid} (h : a < b) : a ≠ b := by
  rintro rfl
  rw [lt_iff] at h
  simp at h

theorem lt_irrefl (a : Tid) : ¬a < a := fun h => ne_of_lt h rfl

/-! ## Encoding -/

/-- The number of bytes of an encoded identifier. -/
def encodedSize : Nat := 6

/-- The block and then the offset, most significant byte first. -/
def toBytes (t : Tid) : List UInt8 :=
  [(t.block >>> 24).toUInt8, (t.block >>> 16).toUInt8, (t.block >>> 8).toUInt8, t.block.toUInt8,
    (t.offset >>> 8).toUInt8, t.offset.toUInt8]

/-- The identifier encoded by six bytes; no other number of bytes encodes one. -/
def ofBytes? : List UInt8 → Option Tid
  | [b₃, b₂, b₁, b₀, o₁, o₀] => some
    { block := b₃.toUInt32 <<< 24 ||| b₂.toUInt32 <<< 16 ||| b₁.toUInt32 <<< 8 ||| b₀.toUInt32
      offset := o₁.toUInt16 <<< 8 ||| o₀.toUInt16 }
  | _ => none

end Tid

end PullQuery
