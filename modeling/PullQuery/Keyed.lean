/-!
# Lists by increasing key

Lists of elements with keys that stand by strictly increasing key. An element goes to the place
of its key, and takes the place of the element that has this key already.

## Main definitions

* `Keyed.find?`, `Keyed.place`, `Keyed.indexOf?`
* `Keyed.Sorted`: elements stand by strictly increasing key

## Main results

* `Keyed.sorted_place`: placing an element keeps the order
* `Keyed.find?_place`: it changes what is found under its key alone
* `Keyed.Sorted.ext`: what is found under keys determines the list
* `Keyed.Sorted.indexOf?_eq_some_iff`: the search by halves finds each element
-/

namespace PullQuery

namespace Keyed

variable {α κ : Type} {key : α → κ} {x y : α} {xs ys : List α} {k : κ}

/-! ## Searching -/

section Find

variable [DecidableEq κ]

/-- The element that has a key. -/
def find? (key : α → κ) (k : κ) (xs : List α) : Option α := xs.find? fun x => key x = k

theorem find?_cons : find? key k (x :: xs) = if key x = k then some x else find? key k xs := by
  by_cases h : key x = k <;> simp [find?, h]

theorem mem_of_find? (h : find? key k xs = some x) : x ∈ xs ∧ key x = k :=
  ⟨List.mem_of_find?_eq_some h, by simpa using List.find?_some h⟩

end Find

variable [Ord κ]

/-! ## Order -/

/-- Whether elements stand by strictly increasing key. -/
def Sorted (key : α → κ) (xs : List α) : Prop :=
  xs.Pairwise fun x y => compare (key x) (key y) = .lt

/-- Puts an element among others by increasing key. -/
def place (key : α → κ) (x : α) : List α → List α
  | [] => [x]
  | y :: ys =>
    match compare (key x) (key y) with
    | .lt => x :: y :: ys
    | .eq => x :: ys
    | .gt => y :: place key x ys

theorem mem_place (h : y ∈ place key x xs) : y = x ∨ y ∈ xs := by
  induction xs with
  | nil => simp_all [place]
  | cons z zs ih =>
    unfold place at h
    split at h
    · exact List.mem_cons.mp h
    · exact (List.mem_cons.mp h).imp_right (List.mem_cons_of_mem z)
    · rcases List.mem_cons.mp h with rfl | h
      · exact .inr (List.mem_cons_self ..)
      · exact (ih h).imp_right (List.mem_cons_of_mem z)

/-- The index of the element that has a key, among those from `low` on and before `high`. Elements
stand by increasing key, so that the one in the middle tells in which half to go on. -/
def indexBetween? (key : α → κ) (k : κ) (xs : List α) (low high : Nat) : Option Nat :=
  if low < high then
    let middle := (low + high) / 2
    (xs[middle]?).bind fun x =>
      match compare (key x) k with
      | .lt => indexBetween? key k xs (middle + 1) high
      | .eq => some middle
      | .gt => indexBetween? key k xs low middle
  else none
termination_by high - low

/-- The index of the element that has a key. -/
def indexOf? (key : α → κ) (k : κ) (xs : List α) : Option Nat :=
  indexBetween? key k xs 0 xs.length

/-- Whatever the order, an index that is found is one of the list. -/
theorem lt_of_indexBetween? {low high i : Nat}
    (h : indexBetween? key k xs low high = some i) : i < xs.length := by
  fun_induction indexBetween? key k xs low high with
  | case1 low high hlt middle ihabove ihbelow =>
    obtain ⟨x, hx, hi⟩ := Option.bind_eq_some_iff.mp h
    split at hi
    · exact ihabove hi
    · obtain rfl := Option.some.inj hi
      exact (List.getElem?_eq_some_iff.mp hx).1
    · exact ihbelow hi
  | case2 => contradiction

theorem lt_of_indexOf? {i : Nat} (h : indexOf? key k xs = some i) : i < xs.length :=
  lt_of_indexBetween? h

variable [Std.TransOrd κ]

theorem ne_of_lt {k l : κ} (h : compare k l = .lt) : k ≠ l := by
  rintro rfl
  rw [Std.compare_self] at h
  contradiction

theorem Sorted.nodup (h : Sorted key xs) : xs.Nodup :=
  h.imp fun hlt hxy => ne_of_lt hlt (congrArg key hxy)

/-! ## What is found -/

section Unique

variable [DecidableEq κ]

/-- Among elements by increasing key, the key of one is no other's. -/
theorem Sorted.find?_of_mem (h : Sorted key xs) (hx : x ∈ xs) : find? key (key x) xs = some x := by
  induction xs with
  | nil => contradiction
  | cons y ys ih =>
    have ⟨hfirst, hrest⟩ := List.pairwise_cons.mp h
    rw [find?_cons]
    rcases List.mem_cons.mp hx with rfl | hx
    · rw [if_pos rfl]
    · rw [if_neg (ne_of_lt (hfirst x hx)), ih hrest hx]

theorem Sorted.find?_eq_some_iff (h : Sorted key xs) :
    find? key k xs = some x ↔ x ∈ xs ∧ key x = k := by
  constructor
  · exact mem_of_find?
  · rintro ⟨hx, rfl⟩
    exact h.find?_of_mem hx

/-- Lists in which the same is found under each key are the same. -/
theorem Sorted.ext (hxs : Sorted key xs) (hys : Sorted key ys)
    (h : ∀ k, find? key k xs = find? key k ys) : xs = ys := by
  have hmem (x : α) : x ∈ xs ↔ x ∈ ys := by
    have hx := congrArg (· = some x) (h (key x))
    simpa [hxs.find?_eq_some_iff, hys.find?_eq_some_iff] using hx
  have hperm : xs.Perm ys := (List.perm_ext_iff_of_nodup hxs.nodup hys.nodup).mpr hmem
  refine hperm.eq_of_pairwise (fun x y _ _ hxy hyx => ?_) hxs hys
  exact absurd rfl (ne_of_lt (Std.TransCmp.lt_trans hxy hyx))

end Unique

/-! ## What placing changes -/

/-- An element whose key is behind all others goes to the end. -/
theorem place_of_gt (h : ∀ y ∈ xs, compare (key y) (key x) = .lt) : place key x xs = xs ++ [x] := by
  induction xs with
  | nil => rfl
  | cons y ys ih =>
    rw [place, Std.OrientedCmp.gt_of_lt (h y (List.mem_cons_self ..)),
      ih fun z hz => h z (List.mem_cons_of_mem y hz)]
    rfl

variable [Std.LawfulEqOrd κ]

theorem sorted_place (h : Sorted key xs) : Sorted key (place key x xs) := by
  induction xs with
  | nil => exact List.pairwise_singleton _ _
  | cons y ys ih =>
    have ⟨hfirst, hrest⟩ := List.pairwise_cons.mp h
    unfold place
    split
    -- The element goes before `y`, which is before all the others.
    · next hlt =>
      refine List.pairwise_cons.mpr ⟨fun z hz => ?_, h⟩
      rcases List.mem_cons.mp hz with rfl | hz
      · exact hlt
      · exact Std.TransCmp.lt_trans hlt (hfirst z hz)
    -- The element takes the place of `y`.
    · next heq =>
      refine List.pairwise_cons.mpr ⟨fun z hz => ?_, hrest⟩
      rw [Std.LawfulEqCmp.eq_of_compare heq]
      exact hfirst z hz
    -- The element goes behind `y`, among the others.
    · next hgt =>
      refine List.pairwise_cons.mpr ⟨fun z hz => ?_, ih hrest⟩
      rcases mem_place hz with rfl | hz
      · exact Std.OrientedCmp.lt_of_gt hgt
      · exact hfirst z hz

section Place

variable [DecidableEq κ]

theorem find?_place :
    find? key k (place key x xs) = if key x = k then some x else find? key k xs := by
  induction xs with
  | nil => rw [place, find?_cons]
  | cons y ys ih =>
    unfold place
    split
    · exact find?_cons
    -- The element takes the place of `y`, which has its key.
    · next heq =>
      rw [find?_cons, find?_cons, Std.LawfulEqCmp.eq_of_compare heq]
      by_cases hk : key y = k
      · rw [if_pos hk, if_pos hk]
      · rw [if_neg hk, if_neg hk, if_neg hk]
    -- The element goes behind `y`, which has another key.
    · next hgt =>
      rw [find?_cons, find?_cons, ih]
      by_cases hk : key y = k
      · have hne : key x ≠ k := hk ▸ (ne_of_lt (Std.OrientedCmp.lt_of_gt hgt)).symm
        rw [if_pos hk, if_pos hk, if_neg hne]
      · rw [if_neg hk, if_neg hk]

/-- A placed element is one more, unless it takes the place of another. -/
theorem Sorted.length_place (h : Sorted key xs) :
    (place key x xs).length = xs.length + if (find? key (key x) xs).isSome then 0 else 1 := by
  induction xs with
  | nil => rfl
  | cons y ys ih =>
    have ⟨hfirst, hrest⟩ := List.pairwise_cons.mp h
    unfold place
    split
    -- No element has the key, as all others have greater ones.
    · next hlt =>
      have hnone : find? key (key x) (y :: ys) = none := by
        rw [Option.eq_none_iff_forall_ne_some]
        intro z hz
        obtain ⟨hz, hkey⟩ := mem_of_find? hz
        rcases List.mem_cons.mp hz with rfl | hz
        · exact ne_of_lt hlt hkey.symm
        · exact ne_of_lt (Std.TransCmp.lt_trans hlt (hfirst z hz)) hkey.symm
      rw [hnone]
      rfl
    · next heq =>
      rw [find?_cons, if_pos (Std.LawfulEqCmp.eq_of_compare heq).symm]
      rfl
    · next hgt =>
      rw [find?_cons, if_neg (ne_of_lt (Std.OrientedCmp.lt_of_gt hgt)), List.length_cons,
        ih hrest, List.length_cons]
      omega

end Place

/-! ## Search by halves -/

/-- Elements stand to each other as their indices. -/
theorem Sorted.compare_getElem? (h : Sorted key xs) {i j : Nat} (hx : xs[i]? = some x)
    (hy : xs[j]? = some y) : compare (key x) (key y) = compare i j := by
  obtain ⟨hi, rfl⟩ := List.getElem?_eq_some_iff.mp hx
  obtain ⟨hj, rfl⟩ := List.getElem?_eq_some_iff.mp hy
  have hlt := List.pairwise_iff_getElem.mp h
  rcases Nat.lt_trichotomy i j with hij | rfl | hij
  · rw [hlt i j hi hj hij, Nat.compare_eq_lt.mpr hij]
  · rw [Std.compare_self, Std.compare_self]
  · rw [Std.OrientedCmp.gt_of_lt (hlt j i hj hi hij), Nat.compare_eq_gt.mpr hij]

/-- The search by halves finds an element wherever it stands. -/
theorem Sorted.indexBetween?_eq_some_iff (h : Sorted key xs) {low high i : Nat}
    (hhigh : high ≤ xs.length) :
    indexBetween? key k xs low high = some i ↔
      low ≤ i ∧ i < high ∧ ∃ x, xs[i]? = some x ∧ key x = k := by
  fun_induction indexBetween? key k xs low high with
  | case1 low high hlt middle ihabove ihbelow =>
    have hmiddle : middle < xs.length := by omega
    have hx := List.getElem?_eq_getElem hmiddle
    -- The element in the middle tells on which side of it the other one stands.
    have hside {y : α} (hy : xs[i]? = some y) (hkey : key y = k) :
        compare (key xs[middle]) k = compare middle i := hkey ▸ h.compare_getElem? hx hy
    rw [hx, Option.bind_some]
    split
    · next hless =>
      rw [ihabove hhigh]
      constructor
      · rintro ⟨hlow, hi, hfound⟩
        exact ⟨by omega, hi, hfound⟩
      · rintro ⟨-, hi, y, hy, hkey⟩
        have habove : middle < i := Nat.compare_eq_lt.mp (hless ▸ hside hy hkey).symm
        exact ⟨habove, hi, y, hy, hkey⟩
    · next heq =>
      constructor
      · intro hfound
        obtain rfl := Option.some.inj hfound
        exact ⟨by omega, by omega, _, hx, Std.LawfulEqCmp.eq_of_compare heq⟩
      · rintro ⟨-, -, y, hy, hkey⟩
        exact congrArg some (Nat.compare_eq_eq.mp (heq ▸ hside hy hkey).symm)
    · next hgreater =>
      rw [ihbelow (by omega)]
      constructor
      · rintro ⟨hlow, hi, hfound⟩
        exact ⟨hlow, by omega, hfound⟩
      · rintro ⟨hlow, -, y, hy, hkey⟩
        have hbelow : i < middle := Nat.compare_eq_gt.mp (hgreater ▸ hside hy hkey).symm
        exact ⟨hlow, hbelow, y, hy, hkey⟩
  | case2 low high hempty =>
    constructor
    · nofun
    · omega

theorem Sorted.indexOf?_eq_some_iff (h : Sorted key xs) {i : Nat} :
    indexOf? key k xs = some i ↔ ∃ x, xs[i]? = some x ∧ key x = k := by
  rw [indexOf?, h.indexBetween?_eq_some_iff (Nat.le_refl _)]
  constructor
  · rintro ⟨-, -, hfound⟩
    exact hfound
  · rintro ⟨x, hx, hkey⟩
    obtain ⟨hi, -⟩ := List.getElem?_eq_some_iff.mp hx
    exact ⟨Nat.zero_le i, hi, x, hx, hkey⟩

theorem Sorted.indexOf?_eq_none_iff (h : Sorted key xs) :
    indexOf? key k xs = none ↔ ∀ x ∈ xs, key x ≠ k := by
  rw [Option.eq_none_iff_forall_ne_some]
  simp only [ne_eq, h.indexOf?_eq_some_iff, List.mem_iff_getElem?]
  constructor
  · exact fun hnone x ⟨i, hx⟩ hkey => hnone i ⟨x, hx, hkey⟩
  · exact fun hnone i ⟨x, hx, hkey⟩ => hnone x ⟨i, hx⟩ hkey

end Keyed

end PullQuery
