import Mathlib.Data.List.Perm.Basic
import PullQuery.Heap.Relation

/-!
# What lies ahead of a scan

A scan of a heap stands between the versions that it has passed and those that lie ahead of it.
A fetch in the direction of the scan takes the first version ahead, and a restart puts all
versions ahead again; neither fails on a heap that stays as it is. Storage that fails a request
leaves the scan where it stands.

## Main definitions

* `Cursor.rest`: the elements that lie ahead of a cursor
* `Heap.inOrder`: the versions of a heap in the order of a scan
* `HeapScan.At`, `RelationScan.At`: where a scan stands

## Main results

* `HeapScan.At.fetch_nil`, `HeapScan.At.fetch_cons`, `HeapScan.At.rescan`
* `RelationScan.At.fetch`, `RelationScan.At.rescan`
-/

namespace PullQuery

/-! ## Cursors -/

namespace Cursor

variable {α : Type} {xs ys : List α} {x : α} {c : Cursor} {d : Direction}

/-- The elements of a list that lie ahead of a cursor in a direction. -/
def rest (xs : List α) : Cursor → Direction → List α
  | beforeStart, .forward => xs
  | beforeStart, .backward => []
  | afterEnd, .forward => []
  | afterEnd, .backward => xs.reverse
  | .onIndex i, .forward => xs.drop (i + 1)
  | .onIndex i, .backward => (xs.take i).reverse

/-- Whether a cursor stands on one of `n` elements, or at an end. -/
def Within (n : Nat) : Cursor → Prop
  | .onIndex i => i < n
  | _ => True

theorem within_start (n : Nat) (d : Direction) : (start d).Within n := by
  cases d <;> exact trivial

theorem Within.step {n : Nat} (h : c.Within n) (d : Direction) : (c.step n d).Within n := by
  cases c with
  | beforeStart =>
    cases d with
    | forward =>
      rw [Cursor.step]
      split
      · assumption
      · exact trivial
    | backward => exact trivial
  | afterEnd =>
    cases d with
    | forward => exact trivial
    | backward =>
      rw [Cursor.step]
      split
      · show n - 1 < n
        omega
      · exact trivial
  | onIndex i =>
    have hi : i < n := h
    cases d with
    | forward =>
      rw [Cursor.step]
      split
      · assumption
      · exact trivial
    | backward =>
      rw [Cursor.step]
      split
      · exact trivial
      · show i - 1 < n
        omega

theorem mem_of_mem_rest (h : x ∈ c.rest xs d) : x ∈ xs := by
  cases c with
  | beforeStart =>
    cases d with
    | forward => exact h
    | backward => contradiction
  | afterEnd =>
    cases d with
    | forward => contradiction
    | backward => exact List.mem_reverse.mp h
  | onIndex i =>
    cases d with
    | forward => exact List.mem_of_mem_drop h
    | backward => exact List.mem_of_mem_take (List.mem_reverse.mp h)

theorem length_rest (h : c.Within xs.length) (d : Direction) :
    (c.rest xs d).length = c.ahead xs.length d := by
  cases c <;> cases d <;> simp [rest, ahead]
  have hi : _ < xs.length := h
  omega

/-- Where nothing lies ahead, a step leads to no element. -/
theorem step_of_rest_nil (h : c.Within xs.length) (hrest : c.rest xs d = []) :
    (∀ i, c.step xs.length d ≠ .onIndex i) ∧ (c.step xs.length d).rest xs d = [] := by
  have hlength := congrArg List.length hrest
  rw [length_rest h] at hlength
  cases c with
  | beforeStart =>
    cases d with
    | forward => simp_all [ahead, step, rest]
    | backward => simp [step, rest]
  | afterEnd =>
    cases d with
    | forward => simp [step, rest]
    | backward => simp_all [ahead, step, rest]
  | onIndex i =>
    cases d with
    | forward =>
      have hend : ¬ i + 1 < xs.length := by
        simp only [ahead, List.length_nil] at hlength
        omega
      simp [step, rest, hend]
    | backward =>
      have hi : i = 0 := hlength
      simp [step, rest, hi]

/-- A step leads to the first element that lies ahead. -/
theorem step_of_rest_cons (h : c.Within xs.length) (hrest : c.rest xs d = x :: ys) :
    ∃ i, c.step xs.length d = .onIndex i ∧ xs[i]? = some x ∧
      (c.step xs.length d).rest xs d = ys := by
  cases c with
  | beforeStart =>
    cases d with
    | forward =>
      obtain rfl : xs = x :: ys := hrest
      exact ⟨0, by simp [step], rfl, by simp [step, rest]⟩
    | backward => contradiction
  | afterEnd =>
    cases d with
    | forward => contradiction
    | backward =>
      obtain rfl : xs = ys.reverse ++ [x] := by
        have hreverse : xs.reverse = x :: ys := hrest
        rw [← List.reverse_reverse xs, hreverse, List.reverse_cons]
      refine ⟨ys.length, by simp [step], by simp, by simp [step, rest]⟩
  | onIndex i =>
    have hi : i < xs.length := h
    cases d with
    | forward =>
      have hdrop : xs.drop (i + 1) = x :: ys := hrest
      have hlt : i + 1 < xs.length := by
        have hlength := congrArg List.length hdrop
        simp only [List.length_drop, List.length_cons] at hlength
        omega
      -- What lies ahead begins with the element behind the cursor.
      rw [List.drop_eq_getElem_cons hlt] at hdrop
      obtain ⟨rfl, rfl⟩ := List.cons.inj hdrop
      exact ⟨i + 1, by simp [step, hlt], by simp [hlt], by simp [step, hlt, rest]⟩
    | backward =>
      have htake : (xs.take i).reverse = x :: ys := hrest
      rcases i with _ | i
      · simp at htake
      · have hlt : i < xs.length := by omega
        -- Backward it begins with the one before the cursor.
        rw [List.take_succ_eq_append_getElem hlt, List.reverse_append] at htake
        obtain ⟨rfl, rfl⟩ := List.cons.inj htake
        exact ⟨i, by simp [step], by simp [hlt], by simp [step, rest]⟩

end Cursor

/-! ## Heaps -/

namespace Heap

/-- The versions of a heap by increasing location, or against this order. -/
def inOrder (h : Heap) : Direction → List HeapTuple
  | .forward => h.tuples
  | .backward => h.tuples.reverse

/-- All versions lie ahead of where a scan begins. -/
theorem rest_start (h : Heap) (d : Direction) : (Cursor.start d).rest h.tuples d = h.inOrder d := by
  cases d <;> rfl

theorem length_locations (h : Heap) : h.locations.length = h.tuples.length := List.length_map _

theorem pairwise_locations (h : Heap) : h.locations.Pairwise (· < ·) :=
  List.Pairwise.map _ (fun _ _ hlt => hlt) h.pairwise_tuples

theorem sorted_locations (h : Heap) : Keyed.Sorted id h.locations := h.pairwise_locations

/-- The search for a location finds it wherever it stands. -/
theorem indexOf?_locations_eq_some_iff {h : Heap} {tid : Tid} {i : Nat} :
    Keyed.indexOf? id tid h.locations = some i ↔ h.locations[i]? = some tid := by
  rw [h.sorted_locations.indexOf?_eq_some_iff]
  simp

theorem indexOf?_locations_eq_none_iff {h : Heap} {tid : Tid} :
    Keyed.indexOf? id tid h.locations = none ↔ tid ∉ h.locations := by
  rw [h.sorted_locations.indexOf?_eq_none_iff]
  exact ⟨fun hnone htid => hnone tid htid rfl, fun hnone _ hmem heq => hnone (heq ▸ hmem)⟩

theorem get?_of_getElem? {h : Heap} {i : Nat} {t : HeapTuple} (ht : h.tuples[i]? = some t) :
    h.locations[i]? = some t.tid ∧ h.get? t.tid = some t :=
  ⟨by simp [locations, ht], get?_of_mem (List.mem_of_getElem? ht)⟩

end Heap

/-- Where a scan in a direction stands: before some versions. -/
structure HeapScan.At (h : Heap) (d : Direction) (s : HeapScan) (rest : List HeapTuple) : Prop where
  locations : s.locations = h.locations
  direction : s.direction = d
  within : s.cursor.Within h.tuples.length
  rest_eq : s.cursor.rest h.tuples d = rest

namespace HeapScan

variable {h : Heap} {d : Direction} {s : HeapScan} {t : HeapTuple} {rest : List HeapTuple}

theorem at_start (h : Heap) (d : Direction) : At h d (start h d) (h.inOrder d) where
  locations := rfl
  direction := rfl
  within := Cursor.within_start _ d
  rest_eq := h.rest_start d

/-- A restart puts all versions ahead. -/
theorem At.rescan (hs : At h d s rest) : At h d s.rescan (h.inOrder d) where
  locations := hs.locations
  direction := hs.direction
  within := Cursor.within_start _ s.direction
  rest_eq := by
    show (Cursor.start s.direction).rest h.tuples d = h.inOrder d
    rw [hs.direction, h.rest_start]

theorem At.ahead_eq (hs : At h d s rest) : s.ahead d = rest.length := by
  rw [HeapScan.ahead, hs.locations, h.length_locations, ← Cursor.length_rest hs.within, hs.rest_eq]

/-- Where nothing lies ahead, a fetch returns nothing. -/
theorem At.fetch_nil (hs : At h d s []) :
    ∃ s', s.fetch h d = (.ok none, s') ∧ At h d s' [] := by
  have hlength : s.locations.length = h.tuples.length := by
    rw [hs.locations, h.length_locations]
  obtain ⟨hnone, hrest⟩ := Cursor.step_of_rest_nil hs.within hs.rest_eq
  refine ⟨{ s with cursor := s.cursor.step s.locations.length d }, ?_, ?_⟩
  · rw [HeapScan.fetch]
    dsimp only
    split
    · next i hi =>
      rw [hlength] at hi
      exact absurd hi (hnone i)
    · rfl
  · rw [hlength]
    exact ⟨hs.locations, hs.direction, hs.within.step d, hrest⟩

/-- A fetch returns the first version ahead. -/
theorem At.fetch_cons (hs : At h d s (t :: rest)) :
    ∃ s', s.fetch h d = (.ok (some t), s') ∧ At h d s' rest := by
  obtain ⟨i, hi, hget, hrest⟩ := Cursor.step_of_rest_cons hs.within hs.rest_eq
  obtain ⟨hlocation, hfound⟩ := Heap.get?_of_getElem? hget
  refine ⟨{ s with cursor := .onIndex i }.visitBlock t.tid.block, ?_, ?_⟩
  · simp only [HeapScan.fetch, hs.locations, h.length_locations, hi, hlocation, hfound]
  · rw [hi] at hrest
    have hwithin := hs.within.step d
    rw [hi] at hwithin
    -- Counting the block leaves the position as it is.
    constructor
    · rw [visitBlock_locations, hs.locations]
    · rw [visitBlock_direction, hs.direction]
    · rw [visitBlock_cursor]
      exact hwithin
    · rw [visitBlock_cursor]
      exact hrest

/-- A scan that returns to a position moves its cursor among its locations, and nothing else. -/
theorem restore_eq_ok {p : ScanPosition} {s' : HeapScan} (hrestore : s.restore h p = .ok s') :
    ∃ c : Cursor, c.Within s.locations.length ∧ s' = { s with cursor := c } := by
  unfold HeapScan.restore at hrestore
  split at hrestore
  · split at hrestore
    · exact ⟨.beforeStart, trivial, (Except.ok.inj hrestore).symm⟩
    · exact ⟨.afterEnd, trivial, (Except.ok.inj hrestore).symm⟩
    · split at hrestore
      · next tid i hfound =>
        exact ⟨.onIndex i, Keyed.lt_of_indexOf? hfound, (Except.ok.inj hrestore).symm⟩
      · contradiction
  · contradiction

/-- A scan that returns to a position stands before some of the versions. -/
theorem At.restore (hs : At h d s rest) {p : ScanPosition} {s' : HeapScan}
    (hrestore : s.restore h p = .ok s') : ∃ rest', At h d s' rest' := by
  obtain ⟨c, hwithin, rfl⟩ := restore_eq_ok hrestore
  rw [hs.locations, h.length_locations] at hwithin
  exact ⟨_, hs.locations, hs.direction, hwithin, rfl⟩

/-- The versions ahead of a scan are versions of the heap. -/
theorem At.rest_subset (hs : At h d s rest) : rest ⊆ h.inOrder d := by
  rw [← hs.rest_eq]
  intro t ht
  have hmem : t ∈ h.tuples := Cursor.mem_of_mem_rest ht
  cases d with
  | forward => exact hmem
  | backward => exact List.mem_reverse.mpr hmem

end HeapScan

/-! ## Relations -/

/-- Where a scan of a relation stands. -/
def RelationScan.At (r : Relation) (d : Direction) (s : RelationScan) (rest : List HeapTuple) :
    Prop := HeapScan.At r.heap d s.scan rest

/-- Whether the storage of a relation never fails a request. -/
structure Relation.Reliable (r : Relation) : Prop where
  onOpen : r.faults.onOpen? = none
  onFetch : ∀ k, r.faults.onFetch? k = none
  onRescan : ∀ k, r.faults.onRescan? k = none

theorem Relation.reliable_ofHeap (h : Heap) : (Relation.ofHeap h).Reliable :=
  ⟨rfl, fun _ => rfl, fun _ => rfl⟩

namespace RelationScan

variable {r : Relation} {d : Direction} {s : RelationScan} {rest : List HeapTuple}

/-- A fetch takes the first version ahead, or it fails and takes none. -/
theorem At.fetch (hs : At r d s rest) :
    (∃ e s', ¬ r.Reliable ∧ s.fetch r d = (.error e, s') ∧ At r d s' rest) ∨
      ∃ s', s.fetch r d = (.ok rest.head?, s') ∧ At r d s' rest.tail := by
  unfold RelationScan.fetch
  dsimp only
  split
  · next m hm =>
    refine .inl ⟨_, _, ?_, rfl, hs⟩
    intro hreliable
    rw [hreliable.onFetch] at hm
    contradiction
  · refine .inr ?_
    cases rest with
    | nil =>
      obtain ⟨scan, hfetch, hat⟩ := HeapScan.At.fetch_nil hs
      exact ⟨{ s with scan, fetches := s.fetches + 1 }, by rw [hfetch]; rfl, hat⟩
    | cons t rest =>
      obtain ⟨scan, hfetch, hat⟩ := HeapScan.At.fetch_cons hs
      exact ⟨{ s with scan, fetches := s.fetches + 1 }, by rw [hfetch]; rfl, hat⟩

/-- A restart puts all versions ahead, or it fails and moves nothing. -/
theorem At.rescan (hs : At r d s rest) :
    (∃ e s', ¬ r.Reliable ∧ s.rescan r = (.error e, s') ∧ At r d s' rest) ∨
      ∃ s', s.rescan r = (.ok (), s') ∧ At r d s' (r.heap.inOrder d) := by
  unfold RelationScan.rescan
  dsimp only
  split
  · next m hm =>
    refine .inl ⟨_, _, ?_, rfl, hs⟩
    intro hreliable
    rw [hreliable.onRescan] at hm
    contradiction
  · exact .inr ⟨_, rfl, HeapScan.At.rescan hs⟩

theorem At.restore (hs : At r d s rest) {p : ScanPosition} {s' : RelationScan}
    (h : s.restore r p = .ok s') : ∃ rest', At r d s' rest' := by
  unfold RelationScan.restore at h
  split at h
  · obtain ⟨scan, hrestore, rfl⟩ := exceptMap_eq_ok_iff.mp h
    exact HeapScan.At.restore hs hrestore
  · contradiction

theorem At.rest_subset (hs : At r d s rest) : rest ⊆ r.heap.inOrder d := HeapScan.At.rest_subset hs

theorem exists_start (hr : r.Reliable) : ∃ s, start r d = .ok s := by
  refine ⟨{ scan := .start r.heap d }, ?_⟩
  rw [start, hr.onOpen]

theorem at_start {s : RelationScan} (h : start r d = .ok s) : At r d s (r.heap.inOrder d) := by
  unfold start at h
  split at h
  · contradiction
  · obtain rfl := Except.ok.inj h
    exact HeapScan.at_start r.heap d

end RelationScan

end PullQuery
