import PullQuery.Count

/-!
# Association lists

Lists of keys with values in the order in which the keys were added, at most one value for
each key.

## Main definitions

* `Assoc.find?`, `Assoc.put`, `Assoc.keys`
* `Assoc.sizeAt`: the size of a key's value

## Main results

* `Assoc.find?_put`: writing a key changes that key alone
* `Assoc.nodup_keys_put`: no key gets two values
* `Assoc.sumBy_put`: what writing a key does to the sum of the sizes
* `Assoc.find?_zipWith`: a combination has the keys of both lists
-/

namespace PullQuery

namespace Assoc

variable {κ β : Type} [DecidableEq κ]

def keys (xs : List (κ × β)) : List κ := xs.map (·.1)

/-- The value of a key. -/
def find? (key : κ) : List (κ × β) → Option β
  | [] => none
  | x :: xs => if x.1 = key then some x.2 else find? key xs

/-- Replaces the value of a key, or adds the key at the end. -/
def put (key : κ) (value : β) : List (κ × β) → List (κ × β)
  | [] => [(key, value)]
  | x :: xs => if x.1 = key then (key, value) :: xs else x :: put key value xs

theorem find?_put (key : κ) (value : β) (xs : List (κ × β)) (k : κ) :
    find? k (put key value xs) = if k = key then some value else find? k xs := by
  induction xs with
  | nil =>
    simp only [put, find?]
    by_cases hk : key = k
    · rw [if_pos hk, if_pos hk.symm]
    · rw [if_neg hk, if_neg (Ne.symm hk)]
  | cons x xs ih =>
    unfold put
    split
    -- The first key is the one that is written.
    · next hx =>
      simp only [find?, hx]
      by_cases hk : key = k
      · rw [if_pos hk, if_pos hk.symm]
      · rw [if_neg hk, if_neg hk, if_neg (Ne.symm hk)]
    -- The first key is another one; it keeps its value.
    · next hx =>
      simp only [find?, ih]
      by_cases hk : x.1 = k
      · rw [if_pos hk, if_pos hk, if_neg fun h => hx (hk.trans h)]
      · rw [if_neg hk, if_neg hk]

theorem find?_eq_none_iff {key : κ} {xs : List (κ × β)} : find? key xs = none ↔ key ∉ keys xs := by
  induction xs with
  | nil => simp [find?, keys]
  | cons x xs ih =>
    unfold find?
    split
    · next hx => simp [keys, hx]
    · next hx =>
      rw [ih]
      simp [keys, Ne.symm hx]

theorem mem_of_find? {key : κ} {value : β} {xs : List (κ × β)}
    (h : find? key xs = some value) : (key, value) ∈ xs := by
  induction xs with
  | nil => contradiction
  | cons x xs ih =>
    unfold find? at h
    split at h
    · next hx =>
      obtain rfl := Option.some.inj h
      exact hx ▸ List.mem_cons_self ..
    · exact List.mem_cons_of_mem x (ih h)

theorem mem_keys_put {key k : κ} {value : β} {xs : List (κ × β)} :
    k ∈ keys (put key value xs) ↔ k = key ∨ k ∈ keys xs := by
  induction xs with
  | nil => simp [put, keys]
  | cons x xs ih =>
    unfold put
    split
    · next hx => simp [keys, hx]
    · next hx =>
      unfold keys at ih ⊢
      rw [List.map_cons, List.mem_cons, ih, List.map_cons, List.mem_cons]
      exact or_left_comm

theorem nodup_keys_put {key : κ} {value : β} {xs : List (κ × β)} (h : (keys xs).Nodup) :
    (keys (put key value xs)).Nodup := by
  induction xs with
  | nil => simp [put, keys]
  | cons x xs ih =>
    have ⟨hx, hxs⟩ := List.nodup_cons.mp h
    unfold put
    split
    -- The value of the first key changes, and the keys do not.
    · next hk => exact List.nodup_cons.mpr ⟨hk ▸ hx, hxs⟩
    -- The keys behind the first gain at most the new one, which differs from it.
    · next hk =>
      refine List.nodup_cons.mpr ⟨fun hmem => ?_, ih hxs⟩
      rcases mem_keys_put.mp hmem with h' | h'
      · exact hk h'
      · exact hx h'

/-! ## Positions

A table of where each key of a list stands, such as the keys numbered in order. -/

theorem le_of_find?_zipIdx {key : κ} {ks : List κ} {k i : Nat}
    (h : find? key (ks.zipIdx k) = some i) : k ≤ i := by
  have hmem := List.mem_zipIdx (mem_of_find? h)
  exact hmem.1

/-- The value of a key stands at the position of the key. -/
theorem find?_zipIdx_bind (key : κ) (xs : List (κ × β)) (k : Nat) :
    ((find? key ((keys xs).zipIdx k)).bind fun i => (xs[i - k]?).map (·.2)) = find? key xs := by
  induction xs generalizing k with
  | nil => rfl
  | cons x xs ih =>
    rw [keys, List.map_cons, List.zipIdx_cons, find?, find?]
    split
    · simp
    -- The position is one of those behind the first key.
    · rw [← ih (k + 1)]
      refine Option.bind_congr fun i hi => ?_
      obtain ⟨j, rfl⟩ := Nat.exists_eq_add_of_le (le_of_find?_zipIdx hi)
      have hbehind : k + 1 + j - k = j + 1 := by omega
      rw [hbehind, List.getElem?_cons_succ, Nat.add_sub_cancel_left]

theorem find?_zipIdx_eq_none_iff {key : κ} {xs : List (κ × β)} {k : Nat} :
    find? key ((keys xs).zipIdx k) = none ↔ find? key xs = none := by
  have hkeys : keys ((keys xs).zipIdx k) = keys xs := List.zipIdx_map_fst k (keys xs)
  rw [find?_eq_none_iff, find?_eq_none_iff, hkeys]

/-- Writing a key that a list has replaces what stands at its position. -/
theorem put_eq_set {key : κ} {xs : List (κ × β)} {k i : Nat}
    (h : find? key ((keys xs).zipIdx k) = some i) (value : β) :
    put key value xs = xs.set (i - k) (key, value) := by
  induction xs generalizing k with
  | nil => contradiction
  | cons x xs ih =>
    rw [keys, List.map_cons, List.zipIdx_cons, find?] at h
    rw [put]
    split
    · next hx =>
      rw [if_pos hx] at h
      obtain rfl := Option.some.inj h
      simp
    · next hx =>
      rw [if_neg hx] at h
      obtain ⟨j, rfl⟩ := Nat.exists_eq_add_of_le (le_of_find?_zipIdx h)
      have hbehind : k + 1 + j - k = j + 1 := by omega
      rw [ih h, hbehind, List.set_cons_succ, Nat.add_sub_cancel_left]

/-- Replacing a value at the position of its key leaves the keys as they are. -/
theorem keys_set_of_find? {key : κ} {xs : List (κ × β)} {i : Nat}
    (h : find? key (keys xs).zipIdx = some i) (value : β) :
    keys (xs.set i (key, value)) = keys xs := by
  have hmem := List.mk_mem_zipIdx_iff_getElem?.mp (mem_of_find? h)
  obtain ⟨hi, hkey⟩ := List.getElem?_eq_some_iff.mp hmem
  rw [keys, List.map_set, ← hkey]
  exact List.set_getElem_self hi

/-- Writing a key that a list does not have adds it at the end. -/
theorem put_eq_append {key : κ} {xs : List (κ × β)} (h : find? key xs = none) (value : β) :
    put key value xs = xs ++ [(key, value)] := by
  induction xs with
  | nil => rfl
  | cons x xs ih =>
    rw [find?] at h
    split at h
    · contradiction
    · next hx => rw [put, if_neg hx, ih h, List.cons_append]

/-! ## Sizes of values -/

/-- The size of a key's value, zero if the key has none. -/
def sizeAt (size : β → Nat) (key : κ) (xs : List (κ × β)) : Nat :=
  ((find? key xs).map size).getD 0

theorem sizeAt_cons (size : β → Nat) (key : κ) (x : κ × β) (xs : List (κ × β)) :
    sizeAt size key (x :: xs) = if x.1 = key then size x.2 else sizeAt size key xs := by
  rw [sizeAt, find?]
  split <;> rfl

theorem sizeAt_le_sumBy (size : β → Nat) (key : κ) (xs : List (κ × β)) :
    sizeAt size key xs ≤ sumBy (fun x => size x.2) xs := by
  induction xs with
  | nil => exact Nat.le_refl 0
  | cons x xs ih =>
    rw [sizeAt_cons, sumBy_cons]
    split <;> omega

/-- Writing a key exchanges its old size for its new one. -/
theorem sumBy_put (size : β → Nat) (key : κ) (value : β) (xs : List (κ × β)) :
    sumBy (fun x => size x.2) (put key value xs) + sizeAt size key xs =
      sumBy (fun x => size x.2) xs + size value := by
  induction xs with
  | nil => simp [put, sizeAt, find?]
  | cons x xs ih =>
    rw [sizeAt_cons, put]
    split
    · simp only [sumBy_cons]
      omega
    · simp only [sumBy_cons]
      omega

theorem sumBy_put_eq_sub (size : β → Nat) (key : κ) (value : β) (xs : List (κ × β)) :
    sumBy (fun x => size x.2) (put key value xs) =
      sumBy (fun x => size x.2) xs - sizeAt size key xs + size value := by
  have hput := sumBy_put size key value xs
  have hold := sizeAt_le_sumBy size key xs
  omega

/-! ## Combinations -/

/-- The keys of the first list that the second has too, with the two values combined. -/
def zipWith (combine : β → β → β) (xs ys : List (κ × β)) : List (κ × β) :=
  xs.filterMap fun x => (find? x.1 ys).map fun y => (x.1, combine x.2 y)

theorem keys_zipWith_sublist (combine : β → β → β) (xs ys : List (κ × β)) :
    (keys (zipWith combine xs ys)).Sublist (keys xs) := by
  induction xs with
  | nil => exact .slnil
  | cons x xs ih =>
    unfold zipWith keys at ih ⊢
    cases hy : find? x.1 ys with
    | none => simpa [hy] using ih.cons x.1
    | some y => simpa [hy] using ih

/-- The value under a key of a list of keys without repeats. -/
theorem find?_eq_some_of_mem {key : κ} {value : β} {xs : List (κ × β)} (hxs : (keys xs).Nodup)
    (h : (key, value) ∈ xs) : find? key xs = some value := by
  induction xs with
  | nil => contradiction
  | cons x xs ih =>
    have ⟨hx, hrest⟩ := List.nodup_cons.mp hxs
    rcases List.mem_cons.mp h with rfl | h
    · simp [find?]
    · have hne : x.1 ≠ key := by
        intro hkey
        subst hkey
        exact hx (List.mem_map.mpr ⟨_, h, rfl⟩)
      simp [find?, hne, ih hrest h]

/-- A combination has the keys that both lists have. -/
theorem find?_zipWith (combine : β → β → β) (key : κ) (xs ys : List (κ × β)) :
    find? key (zipWith combine xs ys) =
      (find? key xs).bind fun v => (find? key ys).map fun w => combine v w := by
  induction xs with
  | nil => rfl
  | cons x xs ih =>
    unfold zipWith at ih ⊢
    by_cases hx : x.1 = key
    · subst hx
      cases hy : find? x.1 ys with
      | none => simp [find?, hy, ih]
      | some w => simp [find?, hy]
    · cases hy : find? x.1 ys with
      | none => simp [find?, hy, hx, ih]
      | some w => simp [find?, hy, hx, ih]

end Assoc

end PullQuery
