import PullQuery.Bitmap.OffsetSet

/-!
# Pages of a tuple bitmap

What a bitmap knows about one block. A page is exact, with the offsets of its candidates, or
lossy, when any tuple of the block may be a candidate and has to be checked again.

## Main definitions

* `PageEntry`, `PageEntry.inter`, `PageEntry.limited`
-/

namespace PullQuery

/-- What is known about the candidates on one block. -/
inductive PageEntry where
  | exact (offsets : OffsetSet)
  | lossy
deriving DecidableEq

namespace PageEntry

def isLossy : PageEntry → Bool
  | exact _ => false
  | lossy => true

/-- How many offsets the page holds. -/
def exactSize : PageEntry → Nat
  | exact offsets => offsets.size
  | lossy => 0

/-- What the page adds to the number of lossy pages. -/
def lossySize : PageEntry → Nat
  | exact _ => 0
  | lossy => 1

/-- The candidates of two pages of one block; a lossy page makes the result lossy. -/
def inter : PageEntry → PageEntry → PageEntry
  | exact s, exact t => exact (s.inter t)
  | _, _ => lossy

/-- An exact page, or a lossy one if there are more offsets than `limit`. -/
def limited (limit : Nat) (offsets : OffsetSet) : PageEntry :=
  if limit < offsets.size then lossy else exact offsets

end PageEntry

/-- A block of a bitmap with what is known about it. -/
abbrev Page := UInt32 × PageEntry

end PullQuery
