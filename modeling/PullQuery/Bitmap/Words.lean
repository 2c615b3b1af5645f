import PullQuery.Count

/-!
# Words of bits

A set of places is kept as a list of 64-bit words: place `i` is bit `i % 64` of word `i / 64`. The
words behind the last one of a list count as zero, so that lists of different lengths can be
combined and compared.

## Main definitions

* `ones`, `lowestPlace`, `places`: the bits of one word that are set
* `wordAt`: a word of a list, zero behind its end
* `padTo`, `orInto`, `popZeros`: lists of words
* `Trimmed`: whether the last word is not zero

## Main results

* `ones_or_bitAt`: setting a bit raises the count by one
* `wordAt_padTo`, `wordAt_orInto`, `wordAt_zipAnd`, `wordAt_popZeros`: lists word by word
* `trimmed_popZeros`, `Trimmed.eq_of_wordAt`: trimmed lists are told apart by their words
-/

namespace PullQuery

/-! ## Bits of a word -/

/-- The number of bits of a word. -/
def wordBits : Nat := 64

/-- How many bits of a word are set. -/
def ones (w : UInt64) : Nat := (List.range wordBits).countP w.toNat.testBit

/-- The lowest place of a word whose bit is set, or `wordBits` if none is. -/
def lowestPlace (w : UInt64) : Nat :=
  ((List.range wordBits).find? fun i => w.toNat.testBit i).getD wordBits

/-- The places of a word whose bits are set, from the lowest: it is noted and cleared, and the
others follow. `fuel` bounds how many there are. -/
def places : Nat → UInt64 → List Nat
  | 0, _ => []
  | fuel + 1, w => if w = 0 then [] else lowestPlace w :: places fuel (w &&& (w - 1))

theorem testBit_eq_false_of_wordBits_le (w : UInt64) {i : Nat} (h : wordBits ≤ i) :
    w.toNat.testBit i = false :=
  Nat.testBit_lt_two_pow
    (Nat.lt_of_lt_of_le w.toNat_lt (Nat.pow_le_pow_right (by decide) h))

/-- The word with the bit at a place. -/
def bitAt (place : Nat) : UInt64 := 1 <<< UInt64.ofNat place

theorem toNat_bitAt {place : Nat} (h : place < wordBits) : (bitAt place).toNat = 1 <<< place := by
  have hplace : (UInt64.ofNat place).toNat % 64 = place := by
    rw [UInt64.toNat_ofNat']
    exact Nat.mod_eq_of_lt (Nat.lt_of_le_of_lt (Nat.mod_le ..) h) |>.trans
      (Nat.mod_eq_of_lt (Nat.lt_trans h (by decide)))
  rw [bitAt, UInt64.toNat_shiftLeft, hplace, UInt64.toNat_one]
  apply Nat.mod_eq_of_lt
  rw [Nat.one_shiftLeft]
  exact Nat.pow_lt_pow_right (by decide) h

theorem testBit_bitAt {place : Nat} (h : place < wordBits) (i : Nat) :
    (bitAt place).toNat.testBit i = decide (place = i) := by
  rw [toNat_bitAt h, Nat.one_shiftLeft, Nat.testBit_two_pow]

theorem bitAt_ne_zero {place : Nat} (h : place < wordBits) : bitAt place ≠ 0 := by
  intro hzero
  have hbit := testBit_bitAt h place
  rw [hzero, decide_eq_true rfl, UInt64.toNat_zero, Nat.zero_testBit] at hbit
  contradiction

/-- A word shares a bit with the word that has it alone. -/
theorem and_bitAt_ne_zero {place : Nat} (h : place < wordBits) (w : UInt64) :
    (w &&& bitAt place != 0) = w.toNat.testBit place := by
  have hbit (i : Nat) : (w &&& bitAt place).toNat.testBit i =
      (w.toNat.testBit i && decide (place = i)) := by
    rw [UInt64.toNat_and, Nat.testBit_and, testBit_bitAt h]
  cases hw : w.toNat.testBit place with
  | true =>
    refine bne_iff_ne.mpr fun hzero => ?_
    have hplace := hbit place
    rw [hzero, hw, decide_eq_true rfl, UInt64.toNat_zero, Nat.zero_testBit] at hplace
    contradiction
  | false =>
    have hzero : w &&& bitAt place = 0 := by
      apply UInt64.toNat_inj.mp
      apply Nat.eq_of_testBit_eq
      intro i
      rw [hbit, UInt64.toNat_zero, Nat.zero_testBit]
      by_cases hi : place = i
      · rw [← hi, hw, Bool.false_and]
      · rw [decide_eq_false hi, Bool.and_false]
    rw [hzero, bne_self_eq_false]

/-- Setting a bit that was not set raises the count by one. -/
theorem ones_or_bitAt {w : UInt64} {place : Nat} (hlt : place < wordBits)
    (h : w.toNat.testBit place = false) : ones (w ||| bitAt place) = ones w + 1 := by
  -- In a range of any width, the new bit counts once if the range reaches it.
  have hcount (width : Nat) :
      (List.range width).countP (w ||| bitAt place).toNat.testBit =
        (List.range width).countP w.toNat.testBit + if place < width then 1 else 0 := by
    induction width with
    | zero => simp
    | succ width ih =>
      rw [List.range_succ, List.countP_append, ih, List.countP_append, List.countP_singleton,
        List.countP_singleton, UInt64.toNat_or, Nat.testBit_or, testBit_bitAt hlt]
      by_cases hplace : place = width
      · subst hplace
        simp [h]
      · have hreach : place < width + 1 ↔ place < width := by omega
        simp only [hplace, hreach, decide_false, Bool.or_false]
        omega
  rw [ones, hcount, if_pos hlt, ones]

/-! ## Lists of words -/

/-- The word at a position, zero behind the end of the list. -/
def wordAt (ws : List UInt64) (i : Nat) : UInt64 := ws[i]?.getD 0

/-- The list with zero words behind its end, up to a length. -/
def padTo (length : Nat) (ws : List UInt64) : List UInt64 :=
  ws ++ List.replicate (length - ws.length) 0

/-- Each word of a list united with the word of another list at its position, as far as this
reaches. -/
def orInto : List UInt64 → List UInt64 → List UInt64
  | w :: ws, v :: vs => (w ||| v) :: orInto ws vs
  | ws, [] => ws
  | [], _ => []

/-- The list without the zero words at its end. -/
def popZeros (ws : List UInt64) : List UInt64 := (ws.reverse.dropWhile fun w => w == 0).reverse

theorem wordAt_of_length_le {ws : List UInt64} {i : Nat} (h : ws.length ≤ i) : wordAt ws i = 0 := by
  rw [wordAt, List.getElem?_eq_none h, Option.getD_none]

theorem lt_length_of_wordAt_ne_zero {ws : List UInt64} {i : Nat} (h : wordAt ws i ≠ 0) :
    i < ws.length :=
  Nat.lt_of_not_le fun hle => h (wordAt_of_length_le hle)

theorem getElem?_of_lt {ws : List UInt64} {i : Nat} (h : i < ws.length) :
    ws[i]? = some (wordAt ws i) := by
  rw [wordAt, List.getElem?_eq_getElem h, Option.getD_some]

theorem wordAt_append_zeros (ws : List UInt64) (n i : Nat) :
    wordAt (ws ++ List.replicate n 0) i = wordAt ws i := by
  rw [wordAt, wordAt, List.getElem?_append]
  split
  · rfl
  · next h =>
    rw [List.getElem?_eq_none (Nat.le_of_not_lt h), List.getElem?_replicate]
    split <;> rfl

theorem length_padTo (length : Nat) (ws : List UInt64) :
    (padTo length ws).length = max ws.length length := by
  rw [padTo, List.length_append, List.length_replicate]
  omega

theorem wordAt_padTo (length : Nat) (ws : List UInt64) (i : Nat) :
    wordAt (padTo length ws) i = wordAt ws i := wordAt_append_zeros ..

theorem padTo_of_le {length : Nat} {ws : List UInt64} (h : length ≤ ws.length) :
    padTo length ws = ws := by
  rw [padTo, Nat.sub_eq_zero_of_le h, List.replicate_zero, List.append_nil]

theorem wordAt_modify {ws : List UInt64} {k : Nat} (h : k < ws.length) (f : UInt64 → UInt64)
    (i : Nat) : wordAt (ws.modify k f) i = if i = k then f (wordAt ws k) else wordAt ws i := by
  rw [wordAt, List.getElem?_modify]
  by_cases hi : i = k
  · subst hi
    simp [getElem?_of_lt h]
  · simp [hi, Ne.symm hi, wordAt]

theorem length_orInto (ws vs : List UInt64) : (orInto ws vs).length = ws.length := by
  induction ws generalizing vs with
  | nil => cases vs <;> rfl
  | cons w ws ih =>
    cases vs with
    | nil => rfl
    | cons v vs => rw [orInto, List.length_cons, List.length_cons, ih]

theorem wordAt_orInto {ws vs : List UInt64} (h : vs.length ≤ ws.length) (i : Nat) :
    wordAt (orInto ws vs) i = wordAt ws i ||| wordAt vs i := by
  induction ws generalizing vs i with
  | nil =>
    obtain rfl : vs = [] := List.length_eq_zero_iff.mp (Nat.le_zero.mp h)
    simp [orInto, wordAt]
  | cons w ws ih =>
    cases vs with
    | nil => simp [orInto, wordAt]
    | cons v vs =>
      cases i with
      | zero => rfl
      | succ i => exact ih (Nat.le_of_succ_le_succ h) i

theorem wordAt_zipAnd (ws vs : List UInt64) (i : Nat) :
    wordAt (List.zipWith (· &&& ·) ws vs) i = wordAt ws i &&& wordAt vs i := by
  rw [wordAt, List.getElem?_zipWith, wordAt, wordAt]
  cases ws[i]? <;> cases vs[i]? <;> simp

/-- Only zero words are taken off the end. -/
theorem exists_eq_popZeros_append (ws : List UInt64) :
    ∃ n, ws = popZeros ws ++ List.replicate n 0 := by
  let zeros := (ws.reverse.takeWhile fun w => w == 0).reverse
  have hzeros : zeros = List.replicate zeros.length 0 := by
    apply List.eq_replicate_of_mem
    intro w hw
    exact eq_of_beq (List.all_eq_true.mp List.all_takeWhile w (List.mem_reverse.mp hw))
  refine ⟨zeros.length, ?_⟩
  rw [← hzeros, popZeros, ← List.reverse_append, List.takeWhile_append_dropWhile,
    List.reverse_reverse]

theorem length_popZeros_le (ws : List UInt64) : (popZeros ws).length ≤ ws.length := by
  obtain ⟨n, hn⟩ := exists_eq_popZeros_append ws
  have hlength := congrArg List.length hn
  rw [List.length_append] at hlength
  omega

theorem wordAt_popZeros (ws : List UInt64) (i : Nat) : wordAt (popZeros ws) i = wordAt ws i := by
  obtain ⟨n, hn⟩ := exists_eq_popZeros_append ws
  conv => rhs; rw [hn]
  rw [wordAt_append_zeros]

/-! ## Trimmed lists -/

/-- Whether the last word of a list, if there is one, is not zero. -/
def Trimmed (ws : List UInt64) : Prop := ws ≠ [] → wordAt ws (ws.length - 1) ≠ 0

theorem trimmed_popZeros (ws : List UInt64) : Trimmed (popZeros ws) := by
  have hhead := List.head?_dropWhile_not (fun w : UInt64 => w == 0) ws.reverse
  unfold popZeros
  cases hdrop : ws.reverse.dropWhile fun w => w == 0 with
  | nil => exact fun h => absurd rfl h
  | cons v vs =>
    rw [hdrop] at hhead
    intro _
    simpa [wordAt] using hhead

/-- Words that agree show that one trimmed list is not longer than another. -/
theorem Trimmed.length_le {ws vs : List UInt64} (hws : Trimmed ws)
    (h : ∀ i, wordAt ws i = wordAt vs i) : ws.length ≤ vs.length := by
  apply Nat.le_of_not_lt
  intro hlt
  have hlast := hws (List.ne_nil_of_length_pos (Nat.zero_lt_of_lt hlt))
  rw [h, wordAt_of_length_le (Nat.le_sub_one_of_lt hlt)] at hlast
  exact hlast rfl

/-- Trimmed lists with the same words are equal. -/
theorem Trimmed.eq_of_wordAt {ws vs : List UInt64} (hws : Trimmed ws) (hvs : Trimmed vs)
    (h : ∀ i, wordAt ws i = wordAt vs i) : ws = vs := by
  have hlength : ws.length = vs.length :=
    Nat.le_antisymm (hws.length_le h) (hvs.length_le fun i => (h i).symm)
  apply List.ext_getElem?
  intro i
  rcases Nat.lt_or_ge i ws.length with hi | hi
  · rw [getElem?_of_lt hi, getElem?_of_lt (hlength ▸ hi), h]
  · rw [List.getElem?_eq_none hi, List.getElem?_eq_none (hlength ▸ hi)]

end PullQuery
