/-!
# Stable sorting

Insertion into a sorted list and the stable sort built from it. Of two elements that may
stand in either order, the one that came first stays first.

## Main definitions

* `sortBy`: the elements of a list in order
* `dropRepeats`: a list without repetitions of neighbours

## Main results

* `sortBy_perm`, `pairwise_sortBy`: sorting keeps the elements and puts them in order
* `dropRepeats_sublist`: dropping repetitions keeps the order of the rest
* `pairwise_dropRepeats`: none are left in a sorted list
-/

namespace PullQuery

variable {α : Type}

/-- Puts an element before the first one that it may precede. -/
def insertSorted (le : α → α → Bool) (x : α) : List α → List α
  | [] => [x]
  | y :: ys => if le x y then x :: y :: ys else y :: insertSorted le x ys

/-- The elements in an order that `le` allows, stably. -/
def sortBy (le : α → α → Bool) (xs : List α) : List α := xs.foldr (insertSorted le) []

/-- The elements that differ from the one kept before them, `x` being kept before the first. -/
def dropRepeatsAfter (same : α → α → Bool) (x : α) : List α → List α
  | [] => []
  | y :: ys => if same y x then dropRepeatsAfter same x ys else y :: dropRepeatsAfter same y ys

/-- Drops elements that are the same as the one kept before them. -/
def dropRepeats (same : α → α → Bool) : List α → List α
  | [] => []
  | x :: xs => x :: dropRepeatsAfter same x xs

theorem insertSorted_perm (le : α → α → Bool) (x : α) (ys : List α) :
    (insertSorted le x ys).Perm (x :: ys) := by
  induction ys with
  | nil => exact .refl _
  | cons y ys ih =>
    unfold insertSorted
    split
    · exact .refl _
    · exact (ih.cons y).trans (.swap x y ys)

theorem sortBy_perm (le : α → α → Bool) (xs : List α) : (sortBy le xs).Perm xs := by
  induction xs with
  | nil => exact .refl _
  | cons x xs ih => exact (insertSorted_perm le x _).trans (ih.cons x)

theorem mem_sortBy {le : α → α → Bool} {xs : List α} {x : α} : x ∈ sortBy le xs ↔ x ∈ xs :=
  (sortBy_perm le xs).mem_iff

/-- A list in order stays in order when an element is inserted. -/
theorem pairwise_insertSorted {le : α → α → Bool} (htotal : ∀ x y, le x y || le y x)
    (htrans : ∀ x y z, le x y → le y z → le x z) {x : α} {ys : List α}
    (h : ys.Pairwise fun x y => le x y) : (insertSorted le x ys).Pairwise fun x y => le x y := by
  induction ys with
  | nil => exact List.pairwise_singleton _ _
  | cons y ys ih =>
    have ⟨hfirst, hrest⟩ := List.pairwise_cons.mp h
    unfold insertSorted
    split
    · next hle =>
      -- `x` goes first: it may precede `y`, which may precede all the others.
      refine List.pairwise_cons.mpr ⟨fun z hz => ?_, h⟩
      rcases List.mem_cons.mp hz with rfl | hz
      · exact hle
      · exact htrans x y z hle (hfirst z hz)
    · next hle =>
      -- `y` stays first: `x` may not precede it, so it may precede `x`.
      refine List.pairwise_cons.mpr ⟨fun z hz => ?_, ih hrest⟩
      rcases List.mem_cons.mp ((insertSorted_perm le x ys).mem_iff.mp hz) with rfl | hz
      · simpa [hle] using htotal z y
      · exact hfirst z hz

/-- Sorting by a total and transitive relation puts the elements in its order. -/
theorem pairwise_sortBy {le : α → α → Bool} (htotal : ∀ x y, le x y || le y x)
    (htrans : ∀ x y z, le x y → le y z → le x z) (xs : List α) :
    (sortBy le xs).Pairwise fun x y => le x y := by
  induction xs with
  | nil => exact .nil
  | cons x xs ih => exact pairwise_insertSorted htotal htrans ih

theorem dropRepeatsAfter_sublist (same : α → α → Bool) (x : α) (ys : List α) :
    (dropRepeatsAfter same x ys).Sublist ys := by
  induction ys generalizing x with
  | nil => exact .slnil
  | cons y ys ih =>
    unfold dropRepeatsAfter
    split
    · exact (ih x).cons y
    · exact (ih y).cons_cons y

/-- An element that is dropped is the same as one that is kept. -/
theorem exists_of_mem_dropRepeatsAfter {same : α → α → Bool} (hrefl : ∀ x, same x x) {x y : α}
    {ys : List α} (h : y ∈ ys) : ∃ z ∈ x :: dropRepeatsAfter same x ys, same y z := by
  induction ys generalizing x with
  | nil => contradiction
  | cons z zs ih =>
    unfold dropRepeatsAfter
    split
    · next hz =>
      rcases List.mem_cons.mp h with rfl | h
      · exact ⟨x, List.mem_cons_self .., hz⟩
      · exact ih h
    · rcases List.mem_cons.mp h with rfl | h
      · exact ⟨y, by simp, hrefl y⟩
      · obtain ⟨u, hu, hsame⟩ := ih (x := z) h
        exact ⟨u, List.mem_cons_of_mem x hu, hsame⟩

theorem exists_of_mem_dropRepeats {same : α → α → Bool} (hrefl : ∀ x, same x x) {x : α}
    {xs : List α} (h : x ∈ xs) : ∃ y ∈ dropRepeats same xs, same x y := by
  cases xs with
  | nil => contradiction
  | cons y ys =>
    rcases List.mem_cons.mp h with rfl | h
    · exact ⟨x, List.mem_cons_self .., hrefl x⟩
    · exact exists_of_mem_dropRepeatsAfter hrefl h

theorem dropRepeats_sublist (same : α → α → Bool) (xs : List α) :
    (dropRepeats same xs).Sublist xs := by
  cases xs with
  | nil => exact .slnil
  | cons x xs => exact (dropRepeatsAfter_sublist same x xs).cons_cons x

/-- If the elements between two that are the same are all the same, a list in order has none left
that are. -/
theorem pairwise_dropRepeatsAfter {le same : α → α → Bool}
    (hsame : ∀ x y z, le x y → le y z → same z x → same y x) {x : α} {ys : List α}
    (h : (x :: ys).Pairwise fun x y => le x y) :
    (x :: dropRepeatsAfter same x ys).Pairwise fun x y => le x y ∧ ¬ same y x := by
  induction ys generalizing x with
  | nil => exact List.pairwise_singleton _ _
  | cons y ys ih =>
    have ⟨hfirst, hrest⟩ := List.pairwise_cons.mp h
    unfold dropRepeatsAfter
    split
    · exact ih (h.sublist ((List.sublist_cons_self y ys).cons_cons x))
    · next hy =>
      refine List.pairwise_cons.mpr ⟨fun z hz => ⟨?_, fun hz' => ?_⟩, ih hrest⟩
      · exact hfirst z (((dropRepeatsAfter_sublist same y ys).cons_cons y).subset hz)
      · -- `y` is kept, so that nothing behind it is the same as `x`.
        rcases List.mem_cons.mp hz with rfl | hz
        · exact hy hz'
        · have hyz := (List.pairwise_cons.mp hrest).1 z
            ((dropRepeatsAfter_sublist same y ys).subset hz)
          exact hy (hsame x y z (hfirst y (List.mem_cons_self ..)) hyz hz')

theorem pairwise_dropRepeats {le same : α → α → Bool}
    (hsame : ∀ x y z, le x y → le y z → same z x → same y x) {xs : List α}
    (h : xs.Pairwise fun x y => le x y) :
    (dropRepeats same xs).Pairwise fun x y => le x y ∧ ¬ same y x := by
  cases xs with
  | nil => exact .nil
  | cons x xs => exact pairwise_dropRepeatsAfter hsame h

end PullQuery
