import Mathlib.Data.List.Perm.Basic
import PullQuery.Index.Ordered
import PullQuery.Proofs.Bitmap.Candidates
import PullQuery.Row

/-!
# Indexes that cover rows

An index covers rows if it holds the location of each under its key. Such an index answers a
scan key with a bitmap that has every row whose key compares as asked, as long as the key has
the type of the argument: keys of other types are left out whatever they are.

## Main definitions

* `OrderedIndex.Covers`: whether an index has all of some rows
* `OrderedIndex.indexRows`: the index with rows added in turn

## Main results

* `OrderedIndex.Covers.indexRows`
* `OrderedIndex.exists_build`, `OrderedIndex.Covers.mem_matching`: no row of the argument's
  type is missed
-/

namespace PullQuery

/-! ## Keys that are equal -/

theorem Value.type?_eq_of_beq {v w : Value} (h : (v == w) = true) : v.type? = w.type? := by
  cases v <;> cases w <;> first | rfl | exact absurd h Bool.false_ne_true

theorem Value.isNull_eq_of_type? {v w : Value} (h : v.type? = w.type?) :
    v.isNull = w.isNull := by
  cases v <;> cases w <;> first | rfl | simp [type?] at h

theorem Value.beq_refl (v : Value) : (v == v) = true :=
  compare_eq_eq_iff.mp Std.ReflCmp.compare_self

theorem ScanOp.holds_congr_left (op : ScanOp) {v w : Value} (h : (v == w) = true)
    (argument : Value) : op.holds v argument = op.holds w argument := by
  have hcompare : compare v argument = compare w argument :=
    Std.TransCmp.congr_left (Value.compare_eq_eq_iff.mpr h)
  cases op with
  | eq =>
    rw [holds, holds, Bool.eq_iff_iff, ← Value.compare_eq_eq_iff, hcompare,
      Value.compare_eq_eq_iff]
  | _ => rw [holds, holds, hcompare]

theorem ScanOp.holds_congr_right (op : ScanOp) {v w : Value} (h : (v == w) = true)
    (key : Value) : op.holds key v = op.holds key w := by
  have hcompare : compare key v = compare key w :=
    Std.TransCmp.congr_right (Value.compare_eq_eq_iff.mpr h)
  cases op with
  | eq =>
    rw [holds, holds, Bool.eq_iff_iff, ← Value.compare_eq_eq_iff, hcompare,
      Value.compare_eq_eq_iff]
  | _ => rw [holds, holds, hcompare]

/-! ## Entries -/

namespace IndexEntry

variable {key : Value} {tid : Tid} {es : List IndexEntry} {e : IndexEntry}

/-- An insertion leaves every tuple under its key. -/
theorem exists_insert_of_mem (h : e ∈ es) :
    ∃ f ∈ insert key tid es, f.key = e.key ∧ ∀ t ∈ e.tids, t ∈ f.tids := by
  induction es with
  | nil => contradiction
  | cons g es ih =>
    unfold insert
    split
    · exact ⟨e, List.mem_cons_of_mem _ h, rfl, fun _ ht => ht⟩
    · -- The first entry has the key, and only it changes.
      rcases List.mem_cons.mp h with rfl | h
      · exact ⟨_, List.mem_cons_self .., rfl, fun _ ht => List.mem_append_left _ ht⟩
      · exact ⟨e, List.mem_cons_of_mem _ h, rfl, fun _ ht => ht⟩
    · rcases List.mem_cons.mp h with rfl | h
      · exact ⟨e, List.mem_cons_self .., rfl, fun _ ht => ht⟩
      · obtain ⟨f, hf, hkey⟩ := ih h
        exact ⟨f, List.mem_cons_of_mem g hf, hkey⟩

/-- An inserted tuple is under an equal key. -/
theorem exists_insert (key : Value) (tid : Tid) (es : List IndexEntry) :
    ∃ e ∈ insert key tid es, (key == e.key) = true ∧ tid ∈ e.tids := by
  induction es with
  | nil => exact ⟨_, List.mem_cons_self .., key.beq_refl, List.mem_singleton_self tid⟩
  | cons g es ih =>
    unfold insert
    split
    · exact ⟨_, List.mem_cons_self .., key.beq_refl, List.mem_singleton_self tid⟩
    · next heq =>
      exact ⟨_, List.mem_cons_self .., Value.compare_eq_eq_iff.mp heq,
        List.mem_append_right _ (List.mem_singleton_self tid)⟩
    · obtain ⟨e, he, hkey⟩ := ih
      exact ⟨e, List.mem_cons_of_mem g he, hkey⟩

end IndexEntry

namespace OrderedIndex

variable {x : OrderedIndex} {rows : List (Tid × Row)} {tid : Tid} {row : Row}

/-! ## Coverage -/

/-- Whether an index has all of the rows whose key is not NULL. -/
def Covers (x : OrderedIndex) (rows : List (Tid × Row)) : Prop :=
  ∀ r ∈ rows, ∀ v, r.2.get? x.column = some v → v.isNull = false →
    ∃ e ∈ x.entries, (v == e.key) = true ∧ r.1 ∈ e.tids

/-- Adds a row under its key. -/
def indexRow (x : OrderedIndex) (r : Tid × Row) : OrderedIndex :=
  match r.2.get? x.column with
  | none => x
  | some v => x.insert v r.1

/-- Adds rows in turn. -/
def indexRows (x : OrderedIndex) (rows : List (Tid × Row)) : OrderedIndex :=
  rows.foldl indexRow x

theorem column_indexRow (x : OrderedIndex) (r : Tid × Row) : (x.indexRow r).column = x.column := by
  unfold indexRow
  split
  · rfl
  · rw [insert]
    split <;> rfl

theorem Covers.indexRow (h : x.Covers rows) (r : Tid × Row) :
    (x.indexRow r).Covers (rows ++ [r]) := by
  intro s hs v hv hnull
  rw [column_indexRow] at hv
  unfold OrderedIndex.indexRow
  rcases List.mem_append.mp hs with hs | hs
  · -- A row that was covered is still under its key.
    obtain ⟨e, he, hkey, htid⟩ := h s hs v hv hnull
    split
    · exact ⟨e, he, hkey, htid⟩
    · next w _ =>
      rw [insert]
      split
      · exact ⟨e, he, hkey, htid⟩
      · obtain ⟨f, hf, hfkey, htids⟩ := IndexEntry.exists_insert_of_mem he
        exact ⟨f, hf, hfkey.symm ▸ hkey, htids _ htid⟩
  · obtain rfl := List.mem_singleton.mp hs
    rw [hv]
    simp only [insert, hnull, Bool.false_eq_true, if_false]
    exact IndexEntry.exists_insert v s.1 x.entries

/-- An index to which rows are added covers them too. -/
theorem Covers.indexRows (h : x.Covers rows) (more : List (Tid × Row)) :
    (x.indexRows more).Covers (rows ++ more) := by
  induction more generalizing x rows with
  | nil => exact (List.append_nil rows).symm ▸ h
  | cons r more ih =>
    rw [OrderedIndex.indexRows, List.foldl_cons, List.append_cons]
    exact ih (h.indexRow r)

/-! ## Scan keys -/

theorem mem_matching {k : ScanKey} :
    tid ∈ x.matching k ↔ ∃ e ∈ x.entries, k.op.holds e.key k.argument = true ∧
      e.key.type? = k.argument.type? ∧ tid ∈ e.tids := by
  simp only [matching, List.mem_flatMap, List.mem_filter, Bool.and_eq_true, beq_iff_eq,
    ScanKey.contains_range, and_assoc]

/-- An index answers every scan key on its column. -/
theorem exists_build {k : ScanKey} (hcolumn : k.column = x.column) :
    ∃ m, x.build k = .ok m ∧
      (k.argument.isNull = false → ∀ t ∈ x.matching k, m.HasCandidate t) := by
  rw [build, if_neg (not_not_intro hcolumn)]
  split
  · next hnull => exact ⟨_, rfl, fun h => absurd (hnull.symm.trans h) (by simp)⟩
  · -- An index of blocks adds more than the tuples, never less.
    rcases x.granularity with _ | _
    · exact ⟨_, rfl, fun _ t ht => TidBitmap.hasCandidate_addTids ht _⟩
    · exact ⟨_, rfl, fun _ t ht => TidBitmap.hasCandidate_addBlocks ht _⟩

/-- A row whose key has the type of the argument and compares as asked is found. -/
theorem Covers.mem_matching (h : x.Covers rows) {k : ScanKey} {r : Tid × Row} (hr : r ∈ rows)
    {v : Value} (hv : r.2.get? x.column = some v) (hnull : v.isNull = false)
    (hholds : k.op.holds v k.argument = true) (htype : v.type? = k.argument.type?) :
    r.1 ∈ x.matching k := by
  obtain ⟨e, he, hkey, htid⟩ := h r hr v hv hnull
  refine OrderedIndex.mem_matching.mpr ⟨e, he, ?_, ?_, htid⟩
  · rw [← k.op.holds_congr_left hkey]
    exact hholds
  · rw [← Value.type?_eq_of_beq hkey]
    exact htype

end OrderedIndex

end PullQuery
