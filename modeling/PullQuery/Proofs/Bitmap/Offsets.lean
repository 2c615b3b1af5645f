import Mathlib.Data.Finset.Card
import Mathlib.Data.Finset.Lattice.Basic
import PullQuery.Bitmap.OffsetSet
import PullQuery.Proofs.Bitmap.LowestBits

/-!
# Bitsets as sets

An offset and the place of its bit determine each other. So the words of a bitset say which offsets
are its members, and a word behind the end says the same as a zero word at the end. The operations
work word by word, whatever the lengths are, and make the sets that they are named for.

## Main definitions

* `Bitset.Valid`: bitsets that count their members and mark nothing beyond the offsets
* `Bitset.members`: the set that a bitset stands for
* `Bitset.History`: how a bitset has been made

## Main results

* `Bitset.contains_insert`, `Bitset.contains_union`, `Bitset.contains_inter`
* `Bitset.mem_toList`, `Bitset.pairwise_toList`, `Bitset.Valid.length_toList`: the members in order
* `Bitset.Valid.same_iff`: bitsets are the same if they have the same members
* `Bitset.History.bitset_represents`: what bitsets say after any history
* `OffsetSet.ext_contains`: sets of offsets with the same members are equal
-/

namespace PullQuery

namespace Bitset

variable {b c : Bitset} {o p : UInt16}

/-! ## Offsets and places -/

/-- The offset with a place in the word at a position. -/
def offsetAt (i place : Nat) : UInt16 := UInt16.ofNat (i * wordBits + place)

theorem toNat_offsetAt {i place : Nat} (hi : i < wordCount) (hplace : place < wordBits) :
    (offsetAt i place).toNat = i * wordBits + place := by
  have hlt : i * wordBits + place < 65536 := by
    simp only [wordCount, wordBits] at *
    omega
  rw [offsetAt, UInt16.toNat_ofNat']
  exact Nat.mod_eq_of_lt hlt

theorem wordOf_offsetAt {i place : Nat} (hi : i < wordCount) (hplace : place < wordBits) :
    wordOf (offsetAt i place) = i := by
  rw [wordOf, toNat_offsetAt hi hplace]
  simp only [wordBits] at *
  omega

theorem placeOf_offsetAt {i place : Nat} (hi : i < wordCount) (hplace : place < wordBits) :
    placeOf (offsetAt i place) = place := by
  rw [placeOf, toNat_offsetAt hi hplace]
  simp only [wordBits] at *
  omega

theorem offsetAt_wordOf_placeOf (o : UInt16) : offsetAt (wordOf o) (placeOf o) = o := by
  rw [offsetAt, wordOf, placeOf, Nat.div_add_mod', UInt16.ofNat_toNat]

/-- Two offsets with one place in one word are the same. -/
theorem eq_iff_wordOf_placeOf : o = p ↔ wordOf o = wordOf p ∧ placeOf o = placeOf p := by
  constructor
  · rintro rfl
    exact ⟨rfl, rfl⟩
  · rintro ⟨hword, hplace⟩
    rw [← offsetAt_wordOf_placeOf o, hword, hplace, offsetAt_wordOf_placeOf]

/-! ## Members -/

/-- What the words of a bitset say about an offset does not depend on where they end. -/
theorem contains_congr (h : ∀ i, wordAt b.words i = wordAt c.words i) (o : UInt16) :
    b.contains o = c.contains o := by
  rw [contains_eq, contains_eq, h]

theorem contains_offsetAt {i place : Nat} (hi : i < wordCount) (hplace : place < wordBits) :
    b.contains (offsetAt i place) = (wordAt b.words i).toNat.testBit place := by
  rw [contains_eq, wordOf_offsetAt hi hplace, placeOf_offsetAt hi hplace]

theorem contains_empty (o : UInt16) : ({} : Bitset).contains o = false := by
  rw [contains_eq, wordAt_of_length_le (Nat.zero_le _), UInt64.toNat_zero, Nat.zero_testBit]

/-- An insertion tells whether the offset is new. -/
theorem insert_fst (b : Bitset) (o : UInt16) : (b.insert o).1 = !b.contains o := by
  cases h : b.contains o with
  | true => rw [insert_of_contains h, Bool.not_true]
  | false => rw [insert_of_not_contains h, Bool.not_false]

theorem contains_insert (b : Bitset) (o p : UInt16) :
    (b.insert o).2.contains p = (decide (p = o) || b.contains p) := by
  cases h : b.contains o with
  | true =>
    rw [insert_of_contains h]
    by_cases hp : p = o
    · rw [hp, h, Bool.or_true]
    · rw [decide_eq_false hp, Bool.false_or]
  | false =>
    rw [insert_of_not_contains h, contains_eq, contains_eq,
      wordAt_modify (lt_length_padTo b o), wordAt_padTo, wordAt_padTo]
    by_cases hword : wordOf p = wordOf o
    -- In the word that is written, the new bit is that of the offset.
    · have heq : placeOf o = placeOf p ↔ p = o := by
        rw [eq_iff_wordOf_placeOf, eq_comm, and_iff_right hword]
      rw [if_pos hword, UInt64.toNat_or, Nat.testBit_or, testBit_bitAt (placeOf_lt o), hword,
        Bool.or_comm]
      simp only [heq]
    · have hp : p ≠ o := fun hp => hword (congrArg wordOf hp)
      rw [if_neg hword, decide_eq_false hp, Bool.false_or]

theorem contains_union (b c : Bitset) (o : UInt16) :
    (b.union c).contains o = (b.contains o || c.contains o) := by
  rw [contains_eq, wordAt_union, UInt64.toNat_or, Nat.testBit_or, contains_eq, contains_eq]

theorem wordAt_inter (b c : Bitset) (i : Nat) :
    wordAt (b.inter c).words i = wordAt b.words i &&& wordAt c.words i := by
  rw [inter, ofWords, wordAt_popZeros, wordAt_zipAnd]

theorem contains_inter (b c : Bitset) (o : UInt16) :
    (b.inter c).contains o = (b.contains o && c.contains o) := by
  rw [contains_eq, wordAt_inter, UInt64.toNat_and, Nat.testBit_and, contains_eq, contains_eq]

/-! ## Bitsets that are sets of offsets -/

/-- Whether a bitset marks no place beyond the offsets, and counts its members. -/
structure Valid (b : Bitset) : Prop where
  wordAt_eq_zero : ∀ i, wordCount ≤ i → wordAt b.words i = 0
  size_eq : b.size = sumBy ones b.words

namespace Valid

theorem empty : Valid {} where
  wordAt_eq_zero _ _ := wordAt_of_length_le (Nat.zero_le _)
  size_eq := rfl

theorem insert (h : b.Valid) (o : UInt16) : (b.insert o).2.Valid where
  wordAt_eq_zero i hi := by
    cases hb : b.contains o with
    | true =>
      rw [insert_of_contains hb]
      exact h.wordAt_eq_zero i hi
    | false =>
      have hne : i ≠ wordOf o := (Nat.lt_of_lt_of_le (wordOf_lt o) hi).ne'
      rw [insert_of_not_contains hb, wordAt_modify (lt_length_padTo b o), if_neg hne, wordAt_padTo]
      exact h.wordAt_eq_zero i hi
  size_eq := sumBy_ones_insert h.size_eq o

theorem union (hb : b.Valid) (hc : c.Valid) : (b.union c).Valid where
  wordAt_eq_zero i hi := by
    rw [wordAt_union, hb.wordAt_eq_zero i hi, hc.wordAt_eq_zero i hi, UInt64.or_zero]
  size_eq := rfl

theorem inter (hb : b.Valid) (c : Bitset) : (b.inter c).Valid where
  wordAt_eq_zero i hi := by
    rw [wordAt_inter, hb.wordAt_eq_zero i hi, UInt64.zero_and]
  size_eq := rfl

theorem pad (h : b.Valid) (length : Nat) : Valid { b with words := padTo length b.words } where
  wordAt_eq_zero i hi := by
    rw [wordAt_padTo]
    exact h.wordAt_eq_zero i hi
  size_eq := h.size_eq.trans (sumBy_ones_padTo ..).symm

/-- A word in which a place is marked belongs to offsets. -/
theorem lt_wordCount (h : b.Valid) {i place : Nat}
    (hbit : (wordAt b.words i).toNat.testBit place = true) : i < wordCount := by
  apply Nat.lt_of_not_le
  intro hle
  rw [h.wordAt_eq_zero i hle, UInt64.toNat_zero, Nat.zero_testBit] at hbit
  contradiction

/-! ### The members in order -/

theorem mem_toList (h : b.Valid) : o ∈ b.toList ↔ b.contains o = true := by
  simp only [toList, List.mem_flatMap, List.mem_map, List.mem_zipIdx_iff_getElem?,
    mem_places (ones_le_wordBits _)]
  constructor
  · rintro ⟨⟨w, i⟩, hw, place, hbit, rfl⟩
    have hword : wordAt b.words i = w := by rw [wordAt, hw, Option.getD_some]
    rw [← hword] at hbit
    have hoffset := contains_offsetAt (b := b) (h.lt_wordCount hbit) (lt_wordBits_of_testBit hbit)
    exact hoffset.trans hbit
  · intro ho
    rw [contains_eq] at ho
    have hreach : wordOf o < b.words.length := by
      apply lt_length_of_wordAt_ne_zero
      intro hzero
      rw [hzero, UInt64.toNat_zero, Nat.zero_testBit] at ho
      contradiction
    exact ⟨(wordAt b.words (wordOf o), wordOf o), getElem?_of_lt hreach, placeOf o, ho,
      offsetAt_wordOf_placeOf o⟩

/-- The words are gone through from the first to the last, so that all offsets of one come before
those of the next. -/
theorem pairwise_toList (h : b.Valid) : b.toList.Pairwise fun o p => o < p := by
  -- Only offsets are listed, so that they compare as their words and places do.
  have hoffset {x : UInt64 × Nat} {place : Nat} (hx : x ∈ b.words.zipIdx)
      (hplace : place ∈ places wordBits x.1) :
      place < wordBits ∧ (offsetAt x.2 place).toNat = x.2 * wordBits + place := by
    rw [mem_places (ones_le_wordBits _)] at hplace
    have hword : wordAt b.words x.2 = x.1 := by
      rw [wordAt, List.mem_zipIdx_iff_getElem?.mp hx, Option.getD_some]
    rw [← hword] at hplace
    have hlt := lt_wordBits_of_testBit hplace
    exact ⟨hlt, toNat_offsetAt (h.lt_wordCount hplace) hlt⟩
  have hpositions : b.words.zipIdx.Pairwise fun x y => x.2 < y.2 := by
    rw [← List.pairwise_map, List.zipIdx_map_snd]
    exact List.pairwise_lt_range'
  rw [toList, List.pairwise_flatMap]
  refine ⟨fun x hx => ?_, hpositions.imp_of_mem fun {x y} hx hy hlt => ?_⟩
  · rw [List.pairwise_map]
    refine (pairwise_places (ones_le_wordBits _)).imp_of_mem fun hi hj hlt => ?_
    have hi := (hoffset hx hi).2
    have hj := (hoffset hx hj).2
    rw [offsetAt] at hi hj
    rw [UInt16.lt_iff_toNat_lt, hi, hj]
    omega
  · intro o ho p hp
    obtain ⟨i, hi, rfl⟩ := List.mem_map.mp ho
    obtain ⟨j, hj, rfl⟩ := List.mem_map.mp hp
    obtain ⟨hibits, hi⟩ := hoffset hx hi
    have hj := (hoffset hy hj).2
    rw [offsetAt] at hi hj
    rw [UInt16.lt_iff_toNat_lt, hi, hj]
    calc x.2 * wordBits + i
        < (x.2 + 1) * wordBits := by
          rw [Nat.succ_mul]
          omega
      _ ≤ y.2 * wordBits := Nat.mul_le_mul_right _ hlt
      _ ≤ y.2 * wordBits + j := Nat.le_add_right ..

theorem length_toList (h : b.Valid) : b.toList.length = b.size := by
  have hwords (ws : List UInt64) (k : Nat) :
      ((ws.zipIdx k).map fun x => (places wordBits x.1).length).sum = sumBy ones ws := by
    induction ws generalizing k with
    | nil => rfl
    | cons w ws ih =>
      rw [List.zipIdx_cons, List.map_cons, List.sum_cons, ih, sumBy_cons,
        length_places (ones_le_wordBits w)]
  rw [h.size_eq, ← hwords b.words 0, toList, List.length_flatMap]
  simp only [List.length_map]

theorem nodup_toList (h : b.Valid) : b.toList.Nodup :=
  h.pairwise_toList.imp fun hlt heq => UInt16.ne_of_lt hlt heq

end Valid

/-- The set that a bitset stands for. -/
def members (b : Bitset) : Finset UInt16 := b.toList.toFinset

namespace Valid

theorem mem_members (h : b.Valid) : o ∈ b.members ↔ b.contains o = true := by
  rw [members, List.mem_toFinset, h.mem_toList]

theorem size_eq_card (h : b.Valid) : b.size = b.members.card := by
  rw [members, List.toFinset_card_of_nodup h.nodup_toList, h.length_toList]

theorem members_inj (hb : b.Valid) (hc : c.Valid) :
    b.members = c.members ↔ ∀ o, b.contains o = c.contains o := by
  rw [Finset.ext_iff]
  refine forall_congr' fun o => ?_
  rw [hb.mem_members, hc.mem_members]
  exact Bool.eq_iff_iff.symm

/-- The words of a bitset are determined by its members. -/
theorem wordAt_eq_of_contains (hb : b.Valid) (hc : c.Valid)
    (h : ∀ o, b.contains o = c.contains o) (i : Nat) : wordAt b.words i = wordAt c.words i := by
  rcases Nat.lt_or_ge i wordCount with hi | hi
  · apply eq_of_testBit_eq
    intro place hplace
    rw [← contains_offsetAt hi hplace, ← contains_offsetAt hi hplace, h]
  · rw [hb.wordAt_eq_zero i hi, hc.wordAt_eq_zero i hi]

/-- Bitsets are the same if they have the same members, wherever their words end. -/
theorem same_iff (hb : b.Valid) (hc : c.Valid) :
    b.same c = true ↔ b.members = c.members := by
  rw [Bitset.same_iff, members_inj hb hc]
  constructor
  · rintro ⟨-, hwords⟩
    exact contains_congr hwords
  · intro h
    refine ⟨?_, wordAt_eq_of_contains hb hc h⟩
    rw [hb.size_eq_card, hc.size_eq_card, (members_inj hb hc).mpr h]

end Valid

/-! ## Histories -/

/-- How a bitset has been made: from the empty one by any operations, also on one that had zero
words put behind its last word. -/
inductive History where
  | empty
  | insert (h : History) (o : UInt16)
  | union (h k : History)
  | inter (h k : History)
  | pad (h : History) (length : Nat)

namespace History

/-- The bitset that a history leaves. -/
def bitset : History → Bitset
  | empty => {}
  | insert h o => (h.bitset.insert o).2
  | union h k => h.bitset.union k.bitset
  | inter h k => h.bitset.inter k.bitset
  | pad h length => { h.bitset with words := padTo length h.bitset.words }

/-- The set of offsets that the same operations on sets leave. -/
def offsets : History → Finset UInt16
  | empty => ∅
  | insert h o => Insert.insert o h.offsets
  | union h k => h.offsets ∪ k.offsets
  | inter h k => h.offsets ∩ k.offsets
  | pad h _ => h.offsets

theorem bitset_valid (h : History) : h.bitset.Valid := by
  induction h with
  | empty => exact .empty
  | insert h o ih => exact ih.insert o
  | union h k ihh ihk => exact ihh.union ihk
  | inter h k ihh ihk => exact ihh.inter k.bitset
  | pad h length ih => exact ih.pad length

theorem contains_bitset (h : History) (o : UInt16) :
    h.bitset.contains o = true ↔ o ∈ h.offsets := by
  induction h with
  | empty => simp [bitset, offsets, contains_empty]
  | insert h p ih => simp [bitset, offsets, contains_insert, ih]
  | union h k ihh ihk => simp [bitset, offsets, contains_union, ihh, ihk]
  | inter h k ihh ihk => simp [bitset, offsets, contains_inter, ihh, ihk]
  | pad h length ih =>
    rw [bitset, contains_congr (c := h.bitset) fun i => wordAt_padTo length h.bitset.words i, ih,
      offsets]

theorem members_bitset (h : History) : h.bitset.members = h.offsets := by
  ext o
  rw [h.bitset_valid.mem_members, contains_bitset]

/-- After any history a bitset is the set of offsets that the history makes: it has the same
members and as many, tells whether an insertion adds one, lists them in order, is united and
intersected with any other as their sets are, and is the same as another exactly if the sets are
equal. -/
theorem bitset_represents (h k : History) :
    (∀ o, h.bitset.contains o = true ↔ o ∈ h.offsets) ∧
      (∀ o, (h.bitset.insert o).1 = true ↔ o ∉ h.offsets) ∧
      h.bitset.size = h.offsets.card ∧
      h.bitset.toList.Pairwise (fun o p => o < p) ∧
      (∀ o, o ∈ h.bitset.toList ↔ o ∈ h.offsets) ∧
      (∀ o, (h.bitset.insert o).2.members = Insert.insert o h.offsets) ∧
      (h.bitset.union k.bitset).members = h.offsets ∪ k.offsets ∧
      (h.bitset.inter k.bitset).members = h.offsets ∩ k.offsets ∧
      (h.bitset.same k.bitset = true ↔ h.offsets = k.offsets) := by
  have hvalid := h.bitset_valid
  refine ⟨h.contains_bitset, fun o => ?_, ?_, hvalid.pairwise_toList, fun o => ?_,
    fun o => (insert h o).members_bitset, (union h k).members_bitset, (inter h k).members_bitset,
    ?_⟩
  · rw [insert_fst, Bool.not_eq_true', ← Bool.not_eq_true, contains_bitset]
  · rw [hvalid.size_eq_card, members_bitset]
  · rw [hvalid.mem_toList, contains_bitset]
  · rw [hvalid.same_iff k.bitset_valid, members_bitset, members_bitset]

-- The union of a set of one word and one of two words, and what an intersection leaves of it.
example : ((empty.insert 3).union (empty.insert 64)).bitset.toList = [3, 64] ∧
    (((empty.insert 64).insert 3).inter ((empty.insert 3).pad 5)).bitset.words = [8] := by decide

end History

end Bitset

/-! ## Sets of offsets -/

namespace OffsetSet

variable {s t : OffsetSet} {o : UInt16}

theorem valid (s : OffsetSet) : s.toBitset.Valid where
  wordAt_eq_zero _ hi := wordAt_of_length_le (Nat.le_trans s.length_le hi)
  size_eq := s.size_eq

theorem ext_contains (h : ∀ o, s.contains o = t.contains o) : s = t :=
  eq_of_same ((s.valid.same_iff t.valid).mpr ((s.valid.members_inj t.valid).mpr h))

theorem length_toList (s : OffsetSet) : s.toList.length = s.size := s.valid.length_toList

theorem mem_toList : o ∈ s.toList ↔ s.contains o = true := s.valid.mem_toList

theorem pairwise_toList (s : OffsetSet) : s.toList.Pairwise fun o p => o < p :=
  s.valid.pairwise_toList

theorem toList_inj : s.toList = t.toList ↔ s = t := by
  constructor
  · intro h
    apply ext_contains
    intro o
    rw [Bool.eq_iff_iff, ← mem_toList, ← mem_toList, h]
  · intro h
    rw [h]

theorem size_pos_of_contains (h : s.contains o = true) : 0 < s.size := by
  rw [← s.length_toList]
  exact List.length_pos_of_mem (mem_toList.mpr h)

@[simp]
theorem contains_empty (o : UInt16) : empty.contains o = false := Bitset.contains_empty o

@[simp]
theorem contains_insert (s : OffsetSet) (o p : UInt16) :
    (s.insert o).contains p = (decide (p = o) || s.contains p) :=
  Bitset.contains_insert s.toBitset o p

@[simp]
theorem contains_union (s t : OffsetSet) (o : UInt16) :
    (s.union t).contains o = (s.contains o || t.contains o) :=
  Bitset.contains_union s.toBitset t.toBitset o

@[simp]
theorem contains_inter (s t : OffsetSet) (o : UInt16) :
    (s.inter t).contains o = (s.contains o && t.contains o) :=
  Bitset.contains_inter s.toBitset t.toBitset o

end OffsetSet

end PullQuery
