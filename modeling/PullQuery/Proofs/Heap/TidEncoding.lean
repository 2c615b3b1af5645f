import Mathlib.Algebra.Order.Group.Nat
import PullQuery.Bytes
import PullQuery.Storage.Fault

/-!
# The order of encoded tuple identifiers

An identifier is written as its block and its offset, each as a number of fixed width with the
most significant byte first. Digits of the highest places are compared first, so that the byte
strings order as the identifiers do, and each byte string of six bytes is the encoding of just one
identifier.

## Main results

* `compare_reverse_littleEndian`: digits of numbers order as the numbers
* `Tid.toBytes_eq`: an encoding is two numbers of fixed width
* `Tid.compare_toBytes`, `Tid.encoding_orderIso`
-/

namespace PullQuery

/-! ## Digits -/

/-- The quotients by a number decide between two numbers, and then the remainders. -/
theorem compare_eq_then_div_mod (m n p : Nat) :
    compare m n = (compare (m / p) (n / p)).then (compare (m % p) (n % p)) := by
  rcases Nat.lt_trichotomy (m / p) (n / p) with hlt | heq | hgt
  · have hless : m < n := Nat.lt_of_div_lt_div hlt
    rw [Nat.compare_eq_lt.mpr hlt, Nat.compare_eq_lt.mpr hless, Ordering.lt_then]
  · have hm : m = p * (n / p) + m % p := by rw [← heq, Nat.div_add_mod]
    have hn : n = p * (n / p) + n % p := (Nat.div_add_mod n p).symm
    have hless : m < n ↔ m % p < n % p := by omega
    have hgreater : n < m ↔ n % p < m % p := by omega
    rw [Nat.compare_eq_eq.mpr heq, Ordering.eq_then]
    simp only [Nat.compare_eq_ite_lt, hless, hgreater]
  · have hgreater : n < m := Nat.lt_of_div_lt_div hgt
    rw [Nat.compare_eq_gt.mpr hgt, Nat.compare_eq_gt.mpr hgreater, Ordering.gt_then]

/-- Byte strings are compared by their first parts, if these are of one length, and then by the
rest. -/
theorem compare_append {xs ys xs' ys' : List UInt8} (h : xs.length = ys.length) :
    compare (xs ++ xs') (ys ++ ys') = (compare xs ys).then (compare xs' ys') := by
  induction xs generalizing ys with
  | nil =>
    obtain rfl : ys = [] := List.length_eq_zero_iff.mp h.symm
    rfl
  | cons x xs ih =>
    cases ys with
    | nil => contradiction
    | cons y ys =>
      rw [List.cons_append, List.cons_append, List.compare_cons_cons, List.compare_cons_cons,
        ih (Nat.succ.inj h), Ordering.then_assoc]

/-- Words order as the numbers that they stand for. -/
theorem compareOfLessAndEq_eq {α : Type} [LT α] [DecidableLT α] [DecidableEq α] (toNat : α → Nat)
    (hlt : ∀ x y, x < y ↔ toNat x < toNat y) (hinj : ∀ x y, toNat x = toNat y ↔ x = y) (x y : α) :
    compareOfLessAndEq x y = compare (toNat x) (toNat y) := by
  change _ = compareOfLessAndEq (toNat x) (toNat y)
  simp only [compareOfLessAndEq, hlt, hinj]

theorem compare_byte (x y : UInt8) : compare x y = compare x.toNat y.toNat :=
  compareOfLessAndEq_eq UInt8.toNat (fun _ _ => UInt8.lt_iff_toNat_lt)
    (fun _ _ => UInt8.toNat_inj) x y

/-- Written with the most significant byte first, as many digits as two numbers have order as the
numbers do. -/
theorem compare_reverse_littleEndian (count m n : Nat) :
    compare (littleEndian count m).reverse (littleEndian count n).reverse =
      compare (m % 256 ^ count) (n % 256 ^ count) := by
  induction count generalizing m n with
  | zero => simp [littleEndian, Nat.mod_one]
  | succ count ih =>
    have hlast : compare [UInt8.ofNat m] [UInt8.ofNat n] = compare (m % 256) (n % 256) := by
      rw [List.compare_cons_cons, List.compare_nil_nil, Ordering.then_eq, compare_byte,
        UInt8.toNat_ofNat', UInt8.toNat_ofNat']
    calc compare (littleEndian (count + 1) m).reverse (littleEndian (count + 1) n).reverse
      _ = compare ((littleEndian count (m / 256)).reverse ++ [UInt8.ofNat m])
            ((littleEndian count (n / 256)).reverse ++ [UInt8.ofNat n]) := by
          simp only [littleEndian, List.reverse_cons]
      _ = (compare (m / 256 % 256 ^ count) (n / 256 % 256 ^ count)).then
            (compare (m % 256) (n % 256)) := by
          rw [compare_append (by simp), ih, hlast]
      _ = compare (m % 256 ^ (count + 1)) (n % 256 ^ (count + 1)) := by
          rw [compare_eq_then_div_mod (m % 256 ^ (count + 1)) _ 256, Nat.pow_succ',
            Nat.mod_mul_right_div_self, Nat.mod_mul_right_div_self, Nat.mod_mul_right_mod,
            Nat.mod_mul_right_mod]

namespace Tid

/-- An encoding is the block and then the offset, each with the most significant byte first. -/
theorem toBytes_eq (t : Tid) :
    t.toBytes =
      (littleEndian 4 t.block.toNat).reverse ++ (littleEndian 2 t.offset.toNat).reverse := by
  simp only [toBytes, littleEndian, List.reverse_cons, List.reverse_nil, List.nil_append,
    List.cons_append, List.cons.injEq, and_true]
  refine ⟨?_, ?_, ?_, ?_, ?_, ?_⟩ <;>
    apply UInt8.toNat_inj.mp <;>
    simp [Nat.shiftRight_eq_div_pow, Nat.div_div_eq_div_mul]

/-! ## Order -/

/-- Encodings order as the identifiers do. -/
theorem compare_toBytes (a b : Tid) : compare a.toBytes b.toBytes = compare a b := by
  have hblock (t : Tid) : t.block.toNat % 256 ^ 4 = t.block.toNat :=
    Nat.mod_eq_of_lt t.block.toNat_lt
  have hoffset (t : Tid) : t.offset.toNat % 256 ^ 2 = t.offset.toNat :=
    Nat.mod_eq_of_lt t.offset.toNat_lt
  rw [toBytes_eq, toBytes_eq, compare_append (by simp), compare_reverse_littleEndian,
    compare_reverse_littleEndian, hblock, hblock, hoffset, hoffset, compare_def]
  have hcompare : compare a.block.toNat b.block.toNat = compare a.block b.block :=
    (compareOfLessAndEq_eq UInt32.toNat (fun _ _ => UInt32.lt_iff_toNat_lt)
      (fun _ _ => UInt32.toNat_inj) _ _).symm
  have hcompare' : compare a.offset.toNat b.offset.toNat = compare a.offset b.offset :=
    (compareOfLessAndEq_eq UInt16.toNat (fun _ _ => UInt16.lt_iff_toNat_lt)
      (fun _ _ => UInt16.toNat_inj) _ _).symm
  rw [hcompare, hcompare']

theorem toBytes_injective {a b : Tid} (h : a.toBytes = b.toBytes) : a = b := by
  rw [← compare_eq_eq_iff, ← compare_toBytes, h]
  exact Std.ReflCmp.compare_self

/-! ## Reading -/

/-- A byte is put in front of lower digits. -/
theorem shiftLeft_or_eq (b : UInt8) {n k : Nat} (h : n < 2 ^ k) :
    b.toNat <<< k ||| n = n + 2 ^ k * b.toNat := by
  rw [← Nat.shiftLeft_add_eq_or_of_lt h, Nat.shiftLeft_eq, Nat.mul_comm, Nat.add_comm]

theorem shiftLeft_mod_eq (b : UInt8) {k width : Nat} (h : 8 + k ≤ width) :
    b.toNat <<< k % 2 ^ width = b.toNat <<< k := by
  refine Nat.mod_eq_of_lt (Nat.lt_of_lt_of_le ?_ (Nat.pow_le_pow_right (by decide) h))
  rw [Nat.shiftLeft_eq, Nat.pow_add]
  exact Nat.mul_lt_mul_of_pos_right b.toNat_lt (Nat.two_pow_pos k)

theorem toNat_toUInt32_shiftLeft (b : UInt8) {k : UInt32} (h : k.toNat ≤ 24) :
    (b.toUInt32 <<< k).toNat = b.toNat <<< k.toNat := by
  have hk : k.toNat % 32 = k.toNat := Nat.mod_eq_of_lt (by omega)
  rw [UInt32.toNat_shiftLeft, UInt8.toNat_toUInt32, hk]
  exact shiftLeft_mod_eq b (by omega)

theorem toNat_toUInt16_shiftLeft (b : UInt8) {k : UInt16} (h : k.toNat ≤ 8) :
    (b.toUInt16 <<< k).toNat = b.toNat <<< k.toNat := by
  have hk : k.toNat % 16 = k.toNat := Nat.mod_eq_of_lt (by omega)
  rw [UInt16.toNat_shiftLeft, UInt8.toNat_toUInt16, hk]
  exact shiftLeft_mod_eq b (by omega)

theorem toNat_block (b₃ b₂ b₁ b₀ : UInt8) :
    (b₃.toUInt32 <<< 24 ||| b₂.toUInt32 <<< 16 ||| b₁.toUInt32 <<< 8 ||| b₀.toUInt32).toNat =
      ofLittleEndian [b₀, b₁, b₂, b₃] := by
  have h₀ := b₀.toNat_lt
  have h₁ := b₁.toNat_lt
  have h₂ := b₂.toNat_lt
  calc
    _ = b₃.toNat <<< 24 ||| (b₂.toNat <<< 16 ||| (b₁.toNat <<< 8 ||| b₀.toNat)) := by
      rw [UInt32.toNat_or, UInt32.toNat_or, UInt32.toNat_or,
        toNat_toUInt32_shiftLeft b₃ (by decide), toNat_toUInt32_shiftLeft b₂ (by decide),
        toNat_toUInt32_shiftLeft b₁ (by decide), UInt8.toNat_toUInt32, Nat.or_assoc, Nat.or_assoc]
      rfl
    _ = ofLittleEndian [b₀, b₁, b₂, b₃] := by
      rw [shiftLeft_or_eq b₁ h₀, shiftLeft_or_eq b₂ (by omega), shiftLeft_or_eq b₃ (by omega)]
      simp only [ofLittleEndian]
      omega

theorem toNat_offset (o₁ o₀ : UInt8) :
    (o₁.toUInt16 <<< 8 ||| o₀.toUInt16).toNat = ofLittleEndian [o₀, o₁] := by
  calc
    _ = o₁.toNat <<< 8 ||| o₀.toNat := by
      rw [UInt16.toNat_or, toNat_toUInt16_shiftLeft o₁ (by decide), UInt8.toNat_toUInt16]
      rfl
    _ = ofLittleEndian [o₀, o₁] := by
      rw [shiftLeft_or_eq o₁ o₀.toNat_lt]
      rfl

/-- Six bytes are read as the identifier that is written as them. -/
theorem toBytes_of_ofBytes? {bs : List UInt8} {t : Tid} (h : ofBytes? bs = some t) :
    t.toBytes = bs := by
  match bs, h with
  | [b₃, b₂, b₁, b₀, o₁, o₀], h =>
    obtain rfl := Option.some.inj h
    rw [toBytes_eq, toNat_block, toNat_offset]
    have hblock := littleEndian_ofLittleEndian [b₀, b₁, b₂, b₃]
    have hoffset := littleEndian_ofLittleEndian [o₀, o₁]
    simp only [List.length_cons, List.length_nil] at hblock hoffset
    rw [hblock, hoffset]
    rfl

theorem ofBytes?_of_length {bs : List UInt8} (h : bs.length = encodedSize) :
    ∃ t, ofBytes? bs = some t := by
  match bs, h with
  | [_, _, _, _, _, _], _ => exact ⟨_, rfl⟩

/-- The bytes that are read are those that are written. -/
theorem ofBytes?_eq_some_iff {bs : List UInt8} {t : Tid} :
    ofBytes? bs = some t ↔ t.toBytes = bs := by
  constructor
  · exact toBytes_of_ofBytes?
  · rintro rfl
    have hlength : t.toBytes.length = encodedSize := rfl
    obtain ⟨u, hu⟩ := ofBytes?_of_length hlength
    rw [hu, toBytes_injective (toBytes_of_ofBytes? hu)]

theorem ofBytes?_eq_none_iff {bs : List UInt8} :
    ofBytes? bs = none ↔ bs.length ≠ encodedSize := by
  constructor
  · intro hnone hlength
    obtain ⟨t, ht⟩ := ofBytes?_of_length hlength
    rw [hnone] at ht
    contradiction
  · intro hlength
    cases h : ofBytes? bs with
    | none => rfl
    | some t => exact absurd (toBytes_of_ofBytes? h ▸ rfl) hlength

theorem decode_eq_ok_iff {bs : List UInt8} {t : Tid} : decode bs = .ok t ↔ t.toBytes = bs := by
  rw [← ofBytes?_eq_some_iff, decode]
  cases ofBytes? bs <;> simp

theorem decode_eq_error_iff {bs : List UInt8} {fault : StorageFault} :
    decode bs = .error fault ↔ bs.length ≠ encodedSize ∧ fault = .tidSize bs.length := by
  rw [← ofBytes?_eq_none_iff, decode]
  cases ofBytes? bs <;> simp [eq_comm]

/-- The encoding is an isomorphism of orders. An identifier is read from the bytes that it is
written as and from no others, every byte string of six bytes is read, any other is refused for its
size, and byte strings order as the identifiers that they encode. -/
theorem encoding_orderIso :
    (∀ t : Tid, decode t.toBytes = .ok t) ∧
      (∀ bytes, (∃ t, decode bytes = .ok t) ↔ bytes.length = encodedSize) ∧
      (∀ bytes t, decode bytes = .ok t ↔ t.toBytes = bytes) ∧
      (∀ bytes fault, decode bytes = .error fault ↔
        bytes.length ≠ encodedSize ∧ fault = .tidSize bytes.length) ∧
      ∀ a b : Tid, compare a b = compare a.toBytes b.toBytes := by
  refine ⟨fun t => decode_eq_ok_iff.mpr rfl, fun bytes => ?_, fun _ _ => decode_eq_ok_iff,
    fun _ _ => decode_eq_error_iff, fun a b => (compare_toBytes a b).symm⟩
  simp only [decode_eq_ok_iff, ← ofBytes?_eq_some_iff]
  constructor
  · rintro ⟨t, ht⟩
    rw [← toBytes_of_ofBytes? ht]
    rfl
  · exact ofBytes?_of_length

-- The first bytes that differ decide: least significant first, they would be 255 and 0.
example : compare (toBytes ⟨255, 1⟩) (toBytes ⟨256, 1⟩) = .lt := by decide

end Tid

end PullQuery
