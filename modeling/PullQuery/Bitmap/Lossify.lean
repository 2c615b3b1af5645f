import PullQuery.Bitmap.Basic

/-!
# Keeping a bitmap within its limits

A bitmap with too many entries turns exact pages into lossy ones, the densest first, until it
has shrunk to half its limit. If pages of two and more offsets do not suffice for that, the
limit in force is raised, so that later additions do not try again at once.

## Main definitions

* `TidBitmap.makeLossy`: one block becomes lossy
* `TidBitmap.enforceTotalBy`: blocks become lossy in a given order if there are too many entries
* `TidBitmap.enforceTotal`: the densest blocks come first
-/

namespace PullQuery

namespace TidBitmap

/-- The pages with one of a block in them: over the page that the block has, or behind all others,
where the index finds it from then on. -/
def writePage (index : List (UInt32 × Nat)) (pages : List Page) (block : UInt32)
    (entry : PageEntry) : List (UInt32 × Nat) × List Page :=
  match Assoc.find? block index with
  | some i => (index, pages.set i (block, entry))
  | none => (Assoc.put block pages.length index, pages ++ [(block, entry)])

/-- The index goes on to have the position of each page. -/
theorem writePage_eq (pages : List Page) (block : UInt32) (entry : PageEntry) :
    writePage (Assoc.keys pages).zipIdx pages block entry =
      ((Assoc.keys (Assoc.put block entry pages)).zipIdx, Assoc.put block entry pages) := by
  unfold writePage
  split
  · next i hi => rw [Assoc.put_eq_set hi, Nat.sub_zero, Assoc.keys_set_of_find? hi]
  · next hnone =>
    have hnew := Assoc.put_eq_append (Assoc.find?_zipIdx_eq_none_iff.mp hnone) entry
    rw [Assoc.put_eq_append hnone, hnew]
    simp [Assoc.keys, List.zipIdx_append]

/-- The size of the page that a block has. -/
def sizeOf (m : TidBitmap) (size : PageEntry → Nat) (block : UInt32) : Nat :=
  ((m.page? block).map size).getD 0

theorem sizeOf_eq (m : TidBitmap) (size : PageEntry → Nat) (block : UInt32) :
    m.sizeOf size block = Assoc.sizeAt size block m.pages := by
  rw [sizeOf, page?_eq_find?]
  rfl

/-- Writes the page of a block, which is counted in the place of the one that the block had. -/
def put (m : TidBitmap) (block : UInt32) (entry : PageEntry) : TidBitmap where
  index := (writePage m.index m.pages block entry).1
  pages := (writePage m.index m.pages block entry).2
  exactEntries := m.exactEntries - m.sizeOf PageEntry.exactSize block + entry.exactSize
  lossyBlocks := m.lossyBlocks - m.sizeOf PageEntry.lossySize block + entry.lossySize
  limits := m.limits
  entryCap := m.entryCap
  blocks_nodup := by
    rw [m.index_eq, writePage_eq]
    exact Assoc.nodup_keys_put m.blocks_nodup
  index_eq := by rw [m.index_eq, writePage_eq]
  exactEntries_eq := by
    rw [m.exactEntries_eq, sizeOf_eq, m.index_eq, writePage_eq]
    exact (Assoc.sumBy_put_eq_sub PageEntry.exactSize block entry m.pages).symm
  lossyBlocks_eq := by
    rw [m.lossyBlocks_eq, sizeOf_eq, m.index_eq, writePage_eq]
    exact (Assoc.sumBy_put_eq_sub PageEntry.lossySize block entry m.pages).symm

theorem pages_put (m : TidBitmap) (block : UInt32) (entry : PageEntry) :
    (m.put block entry).pages = Assoc.put block entry m.pages := by
  show (writePage m.index m.pages block entry).2 = _
  rw [m.index_eq, writePage_eq]

/-- Forgets the offsets of a block. -/
def makeLossy (m : TidBitmap) (block : UInt32) : TidBitmap := m.put block .lossy

@[simp]
theorem limits_put (m : TidBitmap) (block : UInt32) (entry : PageEntry) :
    (m.put block entry).limits = m.limits := rfl

@[simp]
theorem entryCap_put (m : TidBitmap) (block : UInt32) (entry : PageEntry) :
    (m.put block entry).entryCap = m.entryCap := rfl

theorem page?_put (m : TidBitmap) (block : UInt32) (entry : PageEntry) (b : UInt32) :
    (m.put block entry).page? b = if b = block then some entry else m.page? b := by
  rw [page?_eq_find?, pages_put, Assoc.find?_put, page?_eq_find?]

/-- A page that shrinks when it becomes lossy: its block and its number of offsets. -/
def shrinkable? (p : Page) : Option (UInt32 × Nat) :=
  match p.2 with
  | .exact offsets => if 1 < offsets.size then some (p.1, offsets.size) else none
  | .lossy => none

/-- The blocks that shrink when they become lossy. -/
def shrinkableBlocks (m : TidBitmap) : List UInt32 := (m.pages.filterMap shrinkable?).map (·.1)

/-- These blocks with the densest first, and among equally dense ones earlier pages before later
ones. -/
def densestBlocks (m : TidBitmap) : List UInt32 :=
  (sortBy (fun x y : UInt32 × Nat => y.2 ≤ x.2) (m.pages.filterMap shrinkable?)).map (·.1)

/-- Makes blocks lossy in turn until there are at most `target` entries. -/
def lossifyUntil (target : Nat) : List UInt32 → TidBitmap → TidBitmap
  | [], m => m
  | b :: bs, m => if m.totalEntries ≤ target then m else lossifyUntil target bs (m.makeLossy b)

/-- Raises the limit in force to at least `cap`. -/
def raiseCap (m : TidBitmap) (cap : Nat) : TidBitmap := { m with entryCap := max m.entryCap cap }

/-- Half the limit: what a bitmap with too many entries shrinks to. -/
def shrinkTarget (m : TidBitmap) : Nat := m.limits.maxEntries / 2

/-- Shrinks a bitmap that has too many entries, and gives up blocks in turn. -/
def enforceTotalBy (m : TidBitmap) (order : List UInt32) : TidBitmap :=
  if m.totalEntries ≤ m.entryCap then m
  else
    let shrunk := lossifyUntil m.shrinkTarget order m
    if shrunk.totalEntries ≤ m.shrinkTarget then shrunk
    else shrunk.raiseCap (saturatingMul shrunk.totalEntries 2)

/-- Shrinks a bitmap that has too many entries, and gives up the densest blocks first. -/
def enforceTotal (m : TidBitmap) : TidBitmap := m.enforceTotalBy m.densestBlocks

end TidBitmap

end PullQuery
