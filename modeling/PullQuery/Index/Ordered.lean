import PullQuery.Bitmap.Algebra
import PullQuery.Index.ScanKey
import PullQuery.Storage.Fault

/-!
# Ordered indexes

An ordered index keeps the locations of the tuples that hold each key, by increasing key. It
answers a scan key with a bitmap of candidates. NULL is not indexed.

## Main definitions

* `BitmapIndex`: an index as a plan uses it
* `OrderedIndex`, `OrderedIndex.insert`, `OrderedIndex.remove`, `OrderedIndex.build`
-/

namespace PullQuery

/-- An index that answers scan keys on one column with bitmaps. -/
structure BitmapIndex where
  name : String
  column : Nat
  build : ScanKey → Except StorageFault TidBitmap

/-- Whether an index answers with tuples or with whole blocks. -/
inductive Granularity where
  | tuple
  | page
deriving DecidableEq, Repr

/-- A key with the tuples that hold it, in order of insertion. -/
structure IndexEntry where
  key : Value
  tids : List Tid
deriving DecidableEq

namespace IndexEntry

/-- Adds a tuple to the entry for its key; an entry keeps the key that it was made with. -/
def insert (key : Value) (tid : Tid) : List IndexEntry → List IndexEntry
  | [] => [⟨key, [tid]⟩]
  | e :: es =>
    match compare key e.key with
    | .lt => ⟨key, [tid]⟩ :: e :: es
    | .eq => ⟨e.key, e.tids ++ [tid]⟩ :: es
    | .gt => e :: insert key tid es

/-- Removes the first occurrence of an element and puts the last element into its place. -/
def removeOne (tid : Tid) : List Tid → Option (List Tid)
  | [] => none
  | t :: ts =>
    if t = tid then
      some (match ts.getLast? with
        | none => []
        | some last => last :: ts.dropLast)
    else (removeOne tid ts).map (t :: ·)

/-- Removes a tuple from the entry for its key, and the entry with its last tuple. -/
def remove (key : Value) (tid : Tid) : List IndexEntry → Option (List IndexEntry)
  | [] => none
  | e :: es =>
    if key == e.key then
      (removeOne tid e.tids).map fun
        | [] => es
        | tids => ⟨e.key, tids⟩ :: es
    else (remove key tid es).map (e :: ·)

/-- Whether the entries stand by strictly increasing key. -/
def Sorted (es : List IndexEntry) : Prop := es.Pairwise fun e f => compare e.key f.key = .lt

theorem sorted_nil : Sorted [] := .nil

theorem exists_of_mem_insert {key : Value} {tid : Tid} {es : List IndexEntry} {e : IndexEntry}
    (h : e ∈ insert key tid es) : e.key = key ∨ ∃ f ∈ es, e.key = f.key := by
  induction es with
  | nil => simp_all [insert]
  | cons f es ih =>
    unfold insert at h
    split at h
    · rcases List.mem_cons.mp h with rfl | h
      · exact .inl rfl
      · exact .inr ⟨e, h, rfl⟩
    · rcases List.mem_cons.mp h with rfl | h
      · exact .inr ⟨f, List.mem_cons_self .., rfl⟩
      · exact .inr ⟨e, List.mem_cons_of_mem f h, rfl⟩
    · rcases List.mem_cons.mp h with rfl | h
      · exact .inr ⟨e, List.mem_cons_self .., rfl⟩
      · exact (ih h).imp_right fun ⟨g, hg, hk⟩ => ⟨g, List.mem_cons_of_mem f hg, hk⟩

theorem sorted_insert {key : Value} {tid : Tid} {es : List IndexEntry} (h : Sorted es) :
    Sorted (insert key tid es) := by
  induction es with
  | nil => exact List.pairwise_singleton _ _
  | cons e es ih =>
    have ⟨hfirst, hrest⟩ := List.pairwise_cons.mp h
    unfold insert
    split
    -- A new entry before `e`.
    · next hlt =>
      refine List.pairwise_cons.mpr ⟨fun f hf => ?_, h⟩
      rcases List.mem_cons.mp hf with rfl | hf
      · exact hlt
      · exact Std.TransCmp.lt_trans hlt (hfirst f hf)
    -- The entry `e` with one more tuple: its key is the same.
    · exact List.pairwise_cons.mpr ⟨hfirst, hrest⟩
    -- Somewhere behind `e`: every key there is the new one or was there before.
    · next hgt =>
      refine List.pairwise_cons.mpr ⟨fun f hf => ?_, ih hrest⟩
      rcases exists_of_mem_insert hf with hk | ⟨g, hg, hk⟩
      · rw [hk]
        exact Std.OrientedCmp.lt_of_gt hgt
      · rw [hk]
        exact hfirst g hg

theorem exists_of_mem_remove {key : Value} {tid : Tid} {es fs : List IndexEntry}
    (hr : remove key tid es = some fs) {e : IndexEntry} (h : e ∈ fs) :
    ∃ f ∈ es, e.key = f.key := by
  induction es generalizing fs with
  | nil => simp [remove] at hr
  | cons f es ih =>
    unfold remove at hr
    split at hr
    · obtain ⟨tids, -, rfl⟩ := Option.map_eq_some_iff.mp hr
      split at h
      · exact ⟨e, List.mem_cons_of_mem f h, rfl⟩
      · rcases List.mem_cons.mp h with rfl | h
        · exact ⟨f, List.mem_cons_self .., rfl⟩
        · exact ⟨e, List.mem_cons_of_mem f h, rfl⟩
    · obtain ⟨gs, hgs, rfl⟩ := Option.map_eq_some_iff.mp hr
      rcases List.mem_cons.mp h with rfl | h
      · exact ⟨e, by simp, rfl⟩
      · obtain ⟨g, hg, hk⟩ := ih hgs h
        exact ⟨g, by simp [hg], hk⟩

theorem sorted_remove {key : Value} {tid : Tid} {es fs : List IndexEntry} (h : Sorted es)
    (hr : remove key tid es = some fs) : Sorted fs := by
  induction es generalizing fs with
  | nil => simp [remove] at hr
  | cons e es ih =>
    have ⟨hfirst, hrest⟩ := List.pairwise_cons.mp h
    unfold remove at hr
    split at hr
    -- The entry `e` goes, or keeps its key with one tuple less.
    · obtain ⟨tids, -, rfl⟩ := Option.map_eq_some_iff.mp hr
      split
      · exact hrest
      · exact List.pairwise_cons.mpr ⟨hfirst, hrest⟩
    -- The tuple goes from an entry behind `e`, where no new key appears.
    · obtain ⟨gs, hgs, rfl⟩ := Option.map_eq_some_iff.mp hr
      refine List.pairwise_cons.mpr ⟨fun f hf => ?_, ih hrest hgs⟩
      obtain ⟨g, hg, hk⟩ := exists_of_mem_remove hgs hf
      rw [hk]
      exact hfirst g hg

/-! ### Numbers of tuples -/

/-- The number of tuples in entries. -/
def tupleCount (es : List IndexEntry) : Nat := sumBy (·.tids.length) es

theorem zero_eq_tupleCount_nil : 0 = tupleCount [] := rfl

theorem tupleCount_insert (key : Value) (tid : Tid) (es : List IndexEntry) :
    tupleCount (insert key tid es) = tupleCount es + 1 := by
  unfold tupleCount
  induction es with
  | nil => rfl
  | cons e es ih =>
    unfold insert
    split
    · rw [sumBy_cons, List.length_singleton, Nat.add_comm]
    · rw [sumBy_cons, sumBy_cons, List.length_append, List.length_singleton, Nat.add_right_comm]
    · rw [sumBy_cons, sumBy_cons, ih, Nat.add_assoc]

theorem length_removeOne {tid : Tid} {ts us : List Tid} (h : removeOne tid ts = some us) :
    us.length + 1 = ts.length := by
  induction ts generalizing us with
  | nil => contradiction
  | cons t ts ih =>
    unfold removeOne at h
    split at h
    · obtain rfl := Option.some.inj h
      split
      · next hlast =>
        rw [List.getLast?_eq_none_iff.mp hlast]
        rfl
      · next last hlast =>
        -- The last one has moved to the front.
        obtain ⟨front, rfl⟩ := List.getLast?_eq_some_iff.mp hlast
        simp
    · obtain ⟨vs, hvs, rfl⟩ := Option.map_eq_some_iff.mp h
      rw [List.length_cons, List.length_cons, ih hvs]

theorem tupleCount_remove {key : Value} {tid : Tid} {es fs : List IndexEntry}
    (h : remove key tid es = some fs) : tupleCount fs + 1 = tupleCount es := by
  unfold tupleCount
  induction es generalizing fs with
  | nil => contradiction
  | cons e es ih =>
    unfold remove at h
    split at h
    · obtain ⟨tids, htids, rfl⟩ := Option.map_eq_some_iff.mp h
      rw [sumBy_cons, ← length_removeOne htids]
      split
      · rw [List.length_nil, Nat.zero_add, Nat.add_comm]
      · rw [sumBy_cons, Nat.add_right_comm]
    · obtain ⟨gs, hgs, rfl⟩ := Option.map_eq_some_iff.mp h
      rw [sumBy_cons, sumBy_cons, ← ih hgs, Nat.add_assoc]

end IndexEntry

/-- An index that keeps its keys in order. -/
structure OrderedIndex where
  name : String
  column : Nat
  granularity : Granularity := .tuple
  limits : BitmapLimits := {}
  entries : List IndexEntry := []
  /-- The number of indexed tuples. -/
  size : Nat := 0
  sorted : IndexEntry.Sorted entries := by exact IndexEntry.sorted_nil
  size_eq : size = IndexEntry.tupleCount entries := by exact IndexEntry.zero_eq_tupleCount_nil

namespace OrderedIndex

def isEmpty (x : OrderedIndex) : Bool := x.size == 0

/-- Indexes a tuple by a key; NULL is not indexed. -/
def insert (x : OrderedIndex) (key : Value) (tid : Tid) : OrderedIndex :=
  if key.isNull then x
  else
    { x with
      entries := IndexEntry.insert key tid x.entries
      size := x.size + 1
      sorted := IndexEntry.sorted_insert x.sorted
      size_eq := by rw [IndexEntry.tupleCount_insert, x.size_eq] }

/-- The index without a tuple under a key, if it is there. -/
def remove (x : OrderedIndex) (key : Value) (tid : Tid) : Option OrderedIndex :=
  match h : IndexEntry.remove key tid x.entries with
  | none => none
  | some entries =>
    some { x with
      entries
      size := x.size - 1
      sorted := IndexEntry.sorted_remove x.sorted h
      size_eq := by rw [x.size_eq, ← IndexEntry.tupleCount_remove h, Nat.add_sub_cancel] }

/-- The tuples under keys of the argument's type that satisfy a scan key, by key and then in
order of insertion. -/
def matching (x : OrderedIndex) (k : ScanKey) : List Tid :=
  (x.entries.filter fun e => k.range.contains e.key && e.key.type? == k.argument.type?).flatMap
    IndexEntry.tids

/-- The candidates for a scan key. A NULL argument matches nothing. -/
def build (x : OrderedIndex) (k : ScanKey) : Except StorageFault TidBitmap :=
  if k.column ≠ x.column then .error (.otherColumn x.name x.column k.column)
  else if k.argument.isNull then .ok (.empty x.limits)
  else
    match x.granularity with
    | .tuple => .ok ((TidBitmap.empty x.limits).addTids (x.matching k))
    | .page => .ok ((x.matching k).foldl (fun m t => m.addBlock t.block) (.empty x.limits))

/-- The index as a plan uses it. -/
def toBitmapIndex (x : OrderedIndex) : BitmapIndex where
  name := x.name
  column := x.column
  build := x.build

end OrderedIndex

end PullQuery
