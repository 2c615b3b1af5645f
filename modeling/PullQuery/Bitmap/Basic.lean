import PullQuery.Assoc
import PullQuery.Bitmap.Page
import PullQuery.Count
import PullQuery.Sort
import PullQuery.Tid

/-!
# Tuple bitmaps

A tuple bitmap is the set of candidates that an index hands to a scan of the heap: for each
block either the exact offsets or the advice to check every tuple of the block again.

## Main definitions

* `BitmapLimits`: the memory limits of a bitmap
* `TidBitmap`, `TidBitmap.lookup`, `TidBitmap.toPages`, `TidBitmap.exactTids`
-/

namespace PullQuery

/-- The memory limits of a bitmap. -/
structure BitmapLimits where
  /-- A block with more offsets than this becomes lossy. -/
  maxExactPerBlock : Nat := Tid.maxOffset
  /-- A bitmap with more entries than this gives up exact pages. -/
  maxEntries : Nat := 0x100000
deriving DecidableEq, Repr

/-- The limits that no bitmap exceeds. -/
def BitmapLimits.unbounded : BitmapLimits := ⟨maxCount, maxCount⟩

/-- What a bitmap says of a tuple. -/
inductive TidMatch where
  | absent
  | exact
  /-- The tuple may match and has to be checked again. -/
  | recheck
deriving DecidableEq, Repr

/-- A set of candidate tuples. -/
structure TidBitmap where
  /-- Where the page of each block stands. -/
  index : List (UInt32 × Nat)
  /-- The pages in the order in which they were added. -/
  pages : List Page
  /-- The number of offsets on exact pages. -/
  exactEntries : Nat
  /-- The number of lossy pages. -/
  lossyBlocks : Nat
  limits : BitmapLimits
  /-- The number of entries beyond which pages become lossy. -/
  entryCap : Nat
  blocks_nodup : (Assoc.keys pages).Nodup
  index_eq : index = (Assoc.keys pages).zipIdx
  exactEntries_eq : exactEntries = sumBy (fun p => p.2.exactSize) pages
  lossyBlocks_eq : lossyBlocks = sumBy (fun p => p.2.lossySize) pages

namespace TidBitmap

/-- The bitmap with these pages, all of which are counted. -/
def ofPages (limits : BitmapLimits) (pages : List Page) (h : (Assoc.keys pages).Nodup) :
    TidBitmap where
  index := (Assoc.keys pages).zipIdx
  pages := pages
  exactEntries := sumBy (fun p => p.2.exactSize) pages
  lossyBlocks := sumBy (fun p => p.2.lossySize) pages
  limits := limits
  entryCap := limits.maxEntries
  blocks_nodup := h
  index_eq := rfl
  exactEntries_eq := rfl
  lossyBlocks_eq := rfl

/-- The bitmap without pages. -/
def empty (limits : BitmapLimits) : TidBitmap := ofPages limits [] .nil

instance : Inhabited TidBitmap := ⟨empty {}⟩

/-! ## Sizes -/

def blockCount (m : TidBitmap) : Nat := m.pages.length

/-- The entries that count against the limit. -/
def totalEntries (m : TidBitmap) : Nat := m.exactEntries + m.lossyBlocks

def isEmpty (m : TidBitmap) : Bool := m.pages.isEmpty

/-- Whether some tuple may be a candidate; exact pages without offsets hold none. -/
def hasCandidates (m : TidBitmap) : Bool := 0 < m.lossyBlocks || 0 < m.exactEntries

/-! ## Candidates -/

/-- What is known about a block: the page at the position that the index has for it. -/
def page? (m : TidBitmap) (block : UInt32) : Option PageEntry :=
  (Assoc.find? block m.index).bind fun i => (m.pages[i]?).map (·.2)

/-- The index finds each page. -/
theorem page?_eq_find? (m : TidBitmap) (block : UInt32) :
    m.page? block = Assoc.find? block m.pages := by
  rw [page?, m.index_eq]
  exact Assoc.find?_zipIdx_bind block m.pages 0

theorem page?_eq_some_iff {m : TidBitmap} {block : UInt32} {e : PageEntry} :
    m.page? block = some e ↔ (block, e) ∈ m.pages := by
  rw [page?_eq_find?]
  exact ⟨Assoc.mem_of_find?, Assoc.find?_eq_some_of_mem m.blocks_nodup⟩

theorem page?_eq_none_iff {m : TidBitmap} {block : UInt32} :
    m.page? block = none ↔ block ∉ Assoc.keys m.pages := by
  rw [page?_eq_find?, Assoc.find?_eq_none_iff]

theorem page?_ofPages (limits : BitmapLimits) (pages : List Page) (h : (Assoc.keys pages).Nodup)
    (block : UInt32) : (ofPages limits pages h).page? block = Assoc.find? block pages :=
  page?_eq_find? _ block

@[simp]
theorem page?_empty (limits : BitmapLimits) (block : UInt32) :
    (empty limits).page? block = none := rfl

theorem exactSize_le_exactEntries {m : TidBitmap} {block : UInt32} {e : PageEntry}
    (h : m.page? block = some e) : e.exactSize ≤ m.exactEntries := by
  rw [m.exactEntries_eq]
  exact le_sumBy_of_mem (fun p : Page => p.2.exactSize) (page?_eq_some_iff.mp h)

theorem lossySize_le_lossyBlocks {m : TidBitmap} {block : UInt32} {e : PageEntry}
    (h : m.page? block = some e) : e.lossySize ≤ m.lossyBlocks := by
  rw [m.lossyBlocks_eq]
  exact le_sumBy_of_mem (fun p : Page => p.2.lossySize) (page?_eq_some_iff.mp h)

def lookup (m : TidBitmap) (t : Tid) : TidMatch :=
  match m.page? t.block with
  | none => .absent
  | some .lossy => .recheck
  | some (.exact offsets) => if offsets.contains t.offset then .exact else .absent

/-- Whether a block's page is lossy, for blocks with a page. -/
def isLossy? (m : TidBitmap) (block : UInt32) : Option Bool := (m.page? block).map (·.isLossy)

/-- The offsets of a block's page, if it is exact. -/
def offsets? (m : TidBitmap) (block : UInt32) : Option (List UInt16) :=
  match m.page? block with
  | some (.exact offsets) => some offsets.toList
  | _ => none

/-- A page of candidates as a scan of the heap meets it. -/
structure CandidatePage where
  block : UInt32
  /-- The offsets of the candidates; none if the whole block is to be checked again. -/
  offsets : List UInt16
  recheck : Bool
deriving DecidableEq

/-- The candidates of a page, if it has any. -/
def candidatePage? (p : Page) : Option CandidatePage :=
  match p.2 with
  | .lossy => some ⟨p.1, [], true⟩
  | .exact offsets => if 0 < offsets.size then some ⟨p.1, offsets.toList, false⟩ else none

/-- The pages with candidates, by increasing block. -/
def toPages (m : TidBitmap) : List CandidatePage :=
  (sortBy (fun p q : Page => p.1 ≤ q.1) m.pages).filterMap candidatePage?

/-- The exact candidates in order. -/
def exactTids (m : TidBitmap) : List Tid :=
  (m.toPages.filter (!·.recheck)).flatMap fun p => p.offsets.map fun o => ⟨p.block, o⟩

/-- Bitmaps are equal when they say the same of every block, empty exact pages included. -/
instance : BEq TidBitmap where
  beq m n := m.pages.length == n.pages.length &&
    m.pages.all fun p => n.page? p.1 == some p.2

end TidBitmap

end PullQuery
