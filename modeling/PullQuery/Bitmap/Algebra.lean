import PullQuery.Bitmap.Lossify

/-!
# Building and combining bitmaps

Tuples and whole blocks are added to a bitmap; two bitmaps are intersected or united block by
block. Every operation ends within the limits of its result.

## Main definitions

* `TidBitmap.addTid`, `TidBitmap.addTids`, `TidBitmap.addBlock`
* `TidBitmap.inter`, `TidBitmap.union`
-/

namespace PullQuery

namespace TidBitmap

/-- The page with these offsets under the bitmap's limit for one block. -/
def limitedPage (m : TidBitmap) (offsets : OffsetSet) : PageEntry :=
  .limited m.limits.maxExactPerBlock offsets

/-- Adds a candidate. A lossy block stays as it is. -/
def addTid (m : TidBitmap) (t : Tid) : TidBitmap :=
  match m.page? t.block with
  | some .lossy => m
  | some (.exact offsets) => (m.put t.block (m.limitedPage (offsets.insert t.offset))).enforceTotal
  | none => (m.put t.block (m.limitedPage (OffsetSet.empty.insert t.offset))).enforceTotal

def addTids (m : TidBitmap) (ts : List Tid) : TidBitmap := ts.foldl addTid m

/-- Adds every tuple of a block as a candidate to be checked again. -/
def addBlock (m : TidBitmap) (block : UInt32) : TidBitmap := (m.makeLossy block).enforceTotal

/-- The pages of the blocks that both bitmaps have. -/
def commonPages (m n : TidBitmap) : List Page :=
  m.pages.filterMap fun p => (n.page? p.1).map fun e => (p.1, p.2.inter e)

theorem commonPages_eq (m n : TidBitmap) :
    m.commonPages n = Assoc.zipWith PageEntry.inter m.pages n.pages := by
  simp only [commonPages, page?_eq_find?, Assoc.zipWith]

/-- The bitmap of the blocks that both bitmaps have, with the limits of the first. -/
def common (m n : TidBitmap) : TidBitmap :=
  ofPages m.limits (m.commonPages n) <| by
    rw [commonPages_eq]
    exact m.blocks_nodup.sublist (Assoc.keys_zipWith_sublist _ m.pages n.pages)

theorem page?_common (m n : TidBitmap) (block : UInt32) :
    (m.common n).page? block = (m.page? block).bind fun e => (n.page? block).map e.inter := by
  rw [common, page?_ofPages, commonPages_eq, page?_eq_find?, page?_eq_find?]
  exact Assoc.find?_zipWith PageEntry.inter block m.pages n.pages

/-- The candidates of both bitmaps, under the limits of the first. A block with exact pages
on both sides keeps its page even if no offset is left, so that a lossy page met later cannot
bring the block back. -/
def inter (m n : TidBitmap) : TidBitmap := (m.common n).enforceTotal

/-- Adds the candidates of one page. -/
def mergePage (m : TidBitmap) (p : Page) : TidBitmap :=
  match m.page? p.1, p.2 with
  -- Once lossy, always lossy.
  | some .lossy, _ => m
  | _, .lossy => m.makeLossy p.1
  | some (.exact s), .exact t => m.put p.1 (m.limitedPage (s.union t))
  | none, .exact t => m.put p.1 (m.limitedPage t)

/-- The candidates of either bitmap, under the limits of the first. -/
def union (m n : TidBitmap) : TidBitmap := (n.pages.foldl mergePage m).enforceTotal

end TidBitmap

end PullQuery
