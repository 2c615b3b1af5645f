import PullQuery.Bitmap.Words

/-!
# Sets of tuple offsets

A set of 16-bit offsets is kept as a bitset: words of 64 bits together with the number of members.
Words are added at the end when an offset needs them, and zero words at the end are taken off
after an intersection.

## Main definitions

* `Bitset`: words and a size, with `Bitset.contains`, `Bitset.toList`, `Bitset.insert`,
  `Bitset.union`, `Bitset.inter`, `Bitset.same`
* `OffsetSet`: the bitsets that count their members and have no zero word at their end

## Main results

* `Bitset.same_iff`: bitsets are the same if their sizes and their words are
-/

namespace PullQuery

/-- A set of 16-bit offsets as words of bits, and how many members it has. -/
structure Bitset where
  words : List UInt64 := []
  size : Nat := 0
deriving Repr

namespace Bitset

/-- The number of words that the bits of all offsets take. -/
def wordCount : Nat := 1024

/-- The position of the word of an offset. -/
def wordOf (o : UInt16) : Nat := o.toNat / wordBits

/-- The place of an offset in its word. -/
def placeOf (o : UInt16) : Nat := o.toNat % wordBits

def contains (b : Bitset) (o : UInt16) : Bool :=
  b.words[wordOf o]?.any fun w => w &&& bitAt (placeOf o) != 0

/-- Adds an offset, and tells whether it was not a member. The words go as far as the one of the
offset then. -/
def insert (b : Bitset) (o : UInt16) : Bool × Bitset :=
  let words := padTo (wordOf o + 1) b.words
  if wordAt words (wordOf o) &&& bitAt (placeOf o) != 0 then (false, { b with words })
  else
    (true, { words := words.modify (wordOf o) fun w => w ||| bitAt (placeOf o)
             size := b.size + 1 })

/-- The members word by word, in each word from the lowest bit. -/
def toList (b : Bitset) : List UInt16 :=
  b.words.zipIdx.flatMap fun (w, i) =>
    (places wordBits w).map fun place => UInt16.ofNat (i * wordBits + place)

/-- The set with given words, without the zero words at their end. -/
def ofWords (ws : List UInt64) : Bitset :=
  { words := popZeros ws, size := sumBy ones (popZeros ws) }

/-- The words go as far as those of both sets. -/
def inter (b c : Bitset) : Bitset := ofWords (List.zipWith (· &&& ·) b.words c.words)

def union (b c : Bitset) : Bitset :=
  let words := orInto (padTo c.words.length b.words) c.words
  { words, size := sumBy ones words }

/-- Whether two sets are the same. Zero words at the end of one make no difference. -/
def same (b c : Bitset) : Bool :=
  b.size == c.size &&
    (List.range (max b.words.length c.words.length)).all fun i =>
      wordAt b.words i == wordAt c.words i

theorem wordOf_lt (o : UInt16) : wordOf o < wordCount :=
  Nat.div_lt_of_lt_mul o.toNat_lt

theorem placeOf_lt (o : UInt16) : placeOf o < wordBits := Nat.mod_lt _ (by decide)

/-- Sets are the same if they have one size and the same words, as far as either goes. -/
theorem same_iff {b c : Bitset} :
    b.same c = true ↔ b.size = c.size ∧ ∀ i, wordAt b.words i = wordAt c.words i := by
  rw [same, Bool.and_eq_true, beq_iff_eq, List.all_eq_true]
  refine and_congr_right fun _ => ⟨fun h i => ?_, fun h i _ => beq_iff_eq.mpr (h i)⟩
  rcases Nat.lt_or_ge i (max b.words.length c.words.length) with hi | hi
  · exact beq_iff_eq.mp (h i (List.mem_range.mpr hi))
  · rw [wordAt_of_length_le (Nat.le_trans (Nat.le_max_left ..) hi),
      wordAt_of_length_le (Nat.le_trans (Nat.le_max_right ..) hi)]

theorem sumBy_ones_padTo (length : Nat) (ws : List UInt64) :
    sumBy ones (padTo length ws) = sumBy ones ws := by
  have hzeros (n : Nat) : sumBy ones (List.replicate n 0) = 0 := by
    induction n with
    | zero => rfl
    | succ n ih => rw [List.replicate_succ, sumBy_cons, ih]; rfl
  rw [padTo, sumBy_append, hzeros, Nat.add_zero]

/-- One more bit is set when a bit of one word is. -/
theorem sumBy_ones_modify {ws : List UInt64} {k place : Nat} (hk : k < ws.length)
    (hplace : place < wordBits) (h : (wordAt ws k).toNat.testBit place = false) :
    sumBy ones (ws.modify k fun w => w ||| bitAt place) = sumBy ones ws + 1 := by
  induction ws generalizing k with
  | nil => contradiction
  | cons w ws ih =>
    cases k with
    | zero =>
      have h : w.toNat.testBit place = false := h
      rw [List.modify_zero_cons, sumBy_cons, sumBy_cons, ones_or_bitAt hplace h]
      omega
    | succ k =>
      rw [List.modify_succ_cons, sumBy_cons, sumBy_cons, ih (Nat.lt_of_succ_lt_succ hk) h]
      omega

theorem contains_eq (b : Bitset) (o : UInt16) :
    b.contains o = (wordAt b.words (wordOf o)).toNat.testBit (placeOf o) := by
  rw [contains, ← and_bitAt_ne_zero (placeOf_lt o), wordAt]
  cases b.words[wordOf o]? with
  | none => simp
  | some w => rfl

theorem lt_length_padTo (b : Bitset) (o : UInt16) :
    wordOf o < (padTo (wordOf o + 1) b.words).length := by
  rw [length_padTo]
  omega

/-- A member is not added again, and the words stay as they are. -/
theorem insert_of_contains {b : Bitset} {o : UInt16} (h : b.contains o = true) :
    b.insert o = (false, b) := by
  have hbit := (contains_eq b o).symm.trans h
  have hreach : wordOf o < b.words.length := by
    apply lt_length_of_wordAt_ne_zero
    intro hzero
    rw [hzero, UInt64.toNat_zero, Nat.zero_testBit] at hbit
    contradiction
  unfold insert
  simp only [wordAt_padTo]
  rw [and_bitAt_ne_zero (placeOf_lt o), if_pos hbit, padTo_of_le hreach]

theorem insert_of_not_contains {b : Bitset} {o : UInt16} (h : b.contains o = false) :
    b.insert o =
      (true, { words := (padTo (wordOf o + 1) b.words).modify (wordOf o) fun w =>
                 w ||| bitAt (placeOf o)
               size := b.size + 1 }) := by
  have hbit := (contains_eq b o).symm.trans h
  unfold insert
  simp only [wordAt_padTo]
  rw [and_bitAt_ne_zero (placeOf_lt o), if_neg (Bool.not_eq_true _ |>.mpr hbit)]

theorem length_insert_le {length : Nat} {b : Bitset} (h : b.words.length ≤ length) {o : UInt16}
    (ho : wordOf o < length) : (b.insert o).2.words.length ≤ length := by
  cases hb : b.contains o with
  | true => rwa [insert_of_contains hb]
  | false =>
    rw [insert_of_not_contains hb, List.length_modify, length_padTo]
    exact Nat.max_le.mpr ⟨h, ho⟩

theorem sumBy_ones_insert {b : Bitset} (h : b.size = sumBy ones b.words) (o : UInt16) :
    (b.insert o).2.size = sumBy ones (b.insert o).2.words := by
  cases hb : b.contains o with
  | true => rwa [insert_of_contains hb]
  | false =>
    rw [insert_of_not_contains hb]
    rw [contains_eq, ← wordAt_padTo (wordOf o + 1)] at hb
    rw [sumBy_ones_modify (lt_length_padTo b o) (placeOf_lt o) hb, sumBy_ones_padTo, h]

/-- The last word is the one with the new bit, or stays as it was. -/
theorem trimmed_insert {b : Bitset} (h : Trimmed b.words) (o : UInt16) :
    Trimmed (b.insert o).2.words := by
  cases hb : b.contains o with
  | true => rwa [insert_of_contains hb]
  | false =>
    rw [insert_of_not_contains hb]
    intro _
    rw [List.length_modify, wordAt_modify (lt_length_padTo b o), length_padTo]
    split
    · intro hzero
      exact bitAt_ne_zero (placeOf_lt o) (UInt64.or_eq_zero_iff.mp hzero).2
    · next hlast =>
      have hlength : max b.words.length (wordOf o + 1) = b.words.length := by omega
      rw [wordAt_padTo, hlength]
      exact h (List.ne_nil_of_length_pos (by omega))

theorem length_union (b c : Bitset) :
    (b.union c).words.length = max b.words.length c.words.length := by
  rw [union, length_orInto, length_padTo]

theorem wordAt_union (b c : Bitset) (i : Nat) :
    wordAt (b.union c).words i = wordAt b.words i ||| wordAt c.words i := by
  have hreach : c.words.length ≤ (padTo c.words.length b.words).length := by
    rw [length_padTo]
    omega
  rw [union, wordAt_orInto hreach, wordAt_padTo]

theorem trimmed_union {b c : Bitset} (hb : Trimmed b.words) (hc : Trimmed c.words) :
    Trimmed (b.union c).words := by
  intro hne hzero
  have hpos := List.length_pos_iff.mpr hne
  rw [wordAt_union, UInt64.or_eq_zero_iff, length_union] at hzero
  rw [length_union] at hpos
  -- The longer of the two sets ends where the union does.
  rcases Nat.le_total b.words.length c.words.length with hle | hle
  · rw [Nat.max_eq_right hle] at hzero hpos
    exact hc (List.ne_nil_of_length_pos hpos) hzero.2
  · rw [Nat.max_eq_left hle] at hzero hpos
    exact hb (List.ne_nil_of_length_pos hpos) hzero.1

theorem length_inter_le (b c : Bitset) : (b.inter c).words.length ≤ b.words.length :=
  calc (b.inter c).words.length
      ≤ (List.zipWith (· &&& ·) b.words c.words).length := length_popZeros_le _
    _ ≤ b.words.length := by
      rw [List.length_zipWith]
      exact Nat.min_le_left ..

end Bitset

/-- A set of 16-bit offsets: a bitset with no more words than there are offsets for, that counts
its members and has no zero word at its end. -/
structure OffsetSet extends Bitset where
  length_le : words.length ≤ Bitset.wordCount
  size_eq : size = sumBy ones words
  trimmed : Trimmed words

namespace OffsetSet

/-- The number of offsets there are. -/
def offsetCount : Nat := 65536

theorem eq_of_same {s t : OffsetSet} (h : s.same t.toBitset = true) : s = t := by
  obtain ⟨hsize, hwords⟩ := Bitset.same_iff.mp h
  have hwords := s.trimmed.eq_of_wordAt t.trimmed hwords
  obtain ⟨⟨_, _⟩, _, _, _⟩ := s
  obtain ⟨⟨_, _⟩, _, _, _⟩ := t
  subst hsize hwords
  rfl

instance : DecidableEq OffsetSet := fun s t =>
  decidable_of_iff (s.same t.toBitset = true)
    ⟨eq_of_same, fun h => h ▸ Bitset.same_iff.mpr ⟨rfl, fun _ => rfl⟩⟩

def contains (s : OffsetSet) (o : UInt16) : Bool := s.toBitset.contains o

/-- The members in increasing order. -/
def toList (s : OffsetSet) : List UInt16 := s.toBitset.toList

def empty : OffsetSet where
  length_le := Nat.zero_le _
  size_eq := rfl
  trimmed h := absurd rfl h

instance : Inhabited OffsetSet := ⟨empty⟩

def insert (s : OffsetSet) (o : UInt16) : OffsetSet where
  toBitset := (s.toBitset.insert o).2
  length_le := Bitset.length_insert_le s.length_le (Bitset.wordOf_lt o)
  size_eq := Bitset.sumBy_ones_insert s.size_eq o
  trimmed := Bitset.trimmed_insert s.trimmed o

def union (s t : OffsetSet) : OffsetSet where
  toBitset := s.toBitset.union t.toBitset
  length_le := by
    rw [Bitset.length_union]
    exact Nat.max_le.mpr ⟨s.length_le, t.length_le⟩
  size_eq := rfl
  trimmed := Bitset.trimmed_union s.trimmed t.trimmed

def inter (s t : OffsetSet) : OffsetSet where
  toBitset := s.toBitset.inter t.toBitset
  length_le := Nat.le_trans (Bitset.length_inter_le ..) s.length_le
  size_eq := rfl
  trimmed := trimmed_popZeros _

end OffsetSet

end PullQuery
