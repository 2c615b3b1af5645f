import Mathlib.Data.List.Perm.Basic
import PullQuery.Spill.Codec

/-!
# Reading back what was written

A tuple that can be encoded is read back from its bytes, whatever bytes follow it. The
encodings of several tuples, one behind the other, are read back as those tuples.

## Main definitions

* `Value.Storable`, `SpilledTuple.Storable`: what fits the lengths of the encoding
* `SpilledTuple.encodeAll`: the bytes of tuples one behind the other

## Main results

* `SpilledTuple.exists_encode_iff`: the storable tuples are those that can be encoded
* `SpilledTuple.read_encode`, `SpilledTuple.readAll_encodeAll`
-/

namespace PullQuery

/-! ## Numbers and data -/

theorem readBytes_append (xs rest : List UInt8) :
    readBytes xs.length (xs ++ rest) = (.ok xs, rest) := by
  rw [readBytes, takeBytes?_append]

theorem readNat_littleEndian (count : Nat) {n : Nat} (h : n < 1 <<< (8 * count))
    (rest : List UInt8) :
    readNat count (littleEndian count n ++ rest) = (.ok n, rest) := by
  have hbytes := readBytes_append (littleEndian count n) rest
  rw [length_littleEndian] at hbytes
  have hread : ofLittleEndian (littleEndian count n) = n := by
    rw [ofLittleEndian_littleEndian, Nat.mod_eq_of_lt h]
  rw [readNat, hbytes]
  exact congrArg (fun m => ((.ok m : Except StorageFault Nat), rest)) hread

theorem readNat_byte (b : UInt8) (rest : List UInt8) :
    readNat 1 (b :: rest) = (.ok b.toNat, rest) := rfl

theorem readData_encodeData {data bytes : List UInt8} (h : encodeData data = .ok bytes)
    (rest : List UInt8) : readData (bytes ++ rest) = (.ok data, rest) := by
  unfold encodeData at h
  split at h
  · next hsize =>
    obtain rfl := Except.ok.inj h
    rw [readData, List.append_assoc, readNat_littleEndian 4 hsize]
    exact readBytes_append data rest
  · contradiction

theorem exists_encodeData_iff {data : List UInt8} :
    (∃ bytes, encodeData data = .ok bytes) ↔ data.length < 0x100000000 := by
  unfold encodeData
  split <;> simp_all

/-! ## Values -/

/-- Whether the length of a value's contents fits four bytes. -/
def Value.Storable (v : Value) : Prop := v.payloadSize < 0x100000000

instance (v : Value) : Decidable v.Storable := inferInstanceAs (Decidable (_ < _))

/-- The storable values are those that can be encoded. -/
theorem Value.exists_encode_iff {v : Value} : (∃ bytes, v.encode = .ok bytes) ↔ v.Storable := by
  -- A tag before the data makes no difference.
  have hdata (tag : UInt8) (data : List UInt8) :
      (∃ bytes, (encodeData data).map (tag :: ·) = .ok bytes) ↔ data.length < 0x100000000 := by
    rw [← exists_encodeData_iff]
    cases encodeData data <;> simp [Except.map]
  cases v with
  | string s => rw [encode, hdata, length_utf8Bytes, Storable, payloadSize]
  | bytes data => rw [encode, hdata, Storable, payloadSize]
  | _ => simp [encode, Storable, payloadSize]

theorem Value.read_tag (tag : UInt8) (bs : List UInt8) :
    Value.read (tag :: bs) = readTagged tag.toNat bs := by
  rw [Value.read, readNat_byte]

/-- A value is read back from its bytes. -/
theorem Value.read_encode {v : Value} {bytes : List UInt8} (h : v.encode = .ok bytes)
    (rest : List UInt8) : Value.read (bytes ++ rest) = (.ok v, rest) := by
  cases v with
  | null =>
    obtain rfl := Except.ok.inj h
    exact read_tag 0 rest
  | boolean b =>
    obtain rfl := Except.ok.inj h
    cases b <;> rfl
  | int32 i =>
    obtain rfl := Except.ok.inj h
    have hbits := readNat_littleEndian 4 i.toUInt32.toNat_lt rest
    rw [List.cons_append, read_tag]
    simp [readTagged, hbits, Except.map]
  | int64 i =>
    obtain rfl := Except.ok.inj h
    have hbits := readNat_littleEndian 8 i.toUInt64.toNat_lt rest
    rw [List.cons_append, read_tag]
    simp [readTagged, hbits, Except.map]
  | float64 x =>
    obtain rfl := Except.ok.inj h
    have hbits := readNat_littleEndian 8 x.bits.toNat_lt rest
    rw [List.cons_append, read_tag]
    simp [readTagged, hbits, Except.map, Binary64.ofBits_bits]
  | string s =>
    obtain ⟨data, hdata, rfl⟩ := exceptMap_eq_ok_iff.mp h
    have htext : ofUtf8? (utf8Bytes s) = some s := ofUtf8?_eq_some_iff.mpr rfl
    rw [List.cons_append, read_tag]
    simp [readTagged, readData_encodeData hdata, htext]
  | bytes data =>
    obtain ⟨encoded, hdata, rfl⟩ := exceptMap_eq_ok_iff.mp h
    rw [List.cons_append, read_tag]
    simp [readTagged, readData_encodeData hdata, Except.map]

/-! ## Tuples -/

theorem readValues_encodeValues {vs : List Value} {bytes : List UInt8}
    (h : encodeValues vs = .ok bytes) (rest : List UInt8) :
    readValues vs.length (bytes ++ rest) = (.ok vs, rest) := by
  induction vs generalizing bytes with
  | nil =>
    obtain rfl := Except.ok.inj h
    rfl
  | cons v vs ih =>
    rw [encodeValues] at h
    split at h
    · contradiction
    · next front hfront =>
      obtain ⟨back, hback, rfl⟩ := exceptMap_eq_ok_iff.mp h
      rw [List.append_assoc, List.length_cons, readValues, Value.read_encode hfront]
      simp [ih hback, Except.map]

theorem exists_encodeValues_iff {vs : List Value} :
    (∃ bytes, encodeValues vs = .ok bytes) ↔ ∀ v ∈ vs, v.Storable := by
  induction vs with
  | nil => simp [encodeValues]
  | cons v vs ih =>
    rw [List.forall_mem_cons, ← ih, ← Value.exists_encode_iff, encodeValues]
    cases v.encode <;> cases encodeValues vs <;> simp [Except.map]

namespace SpilledTuple

/-- Whether the number of columns fits two bytes and each value can be stored. -/
def Storable (t : SpilledTuple) : Prop :=
  t.row.arity < 0x10000 ∧ ∀ v ∈ t.row.values, v.Storable

instance (t : SpilledTuple) : Decidable t.Storable := inferInstanceAs (Decidable (_ ∧ _))

/-- The storable tuples are those that can be encoded. -/
theorem exists_encode_iff {t : SpilledTuple} : (∃ bytes, t.encode = .ok bytes) ↔ t.Storable := by
  rw [Storable, ← exists_encodeValues_iff, encode]
  split
  · next harity => cases encodeValues t.row.values <;> simp [Except.map, harity]
  · next harity => simp [harity]

/-- A tuple is read back from its bytes. -/
theorem read_encode {t : SpilledTuple} {bytes : List UInt8} (h : t.encode = .ok bytes)
    (rest : List UInt8) : read (bytes ++ rest) = (.ok t, rest) := by
  rw [encode] at h
  split at h
  · next harity =>
    obtain ⟨values, hvalues, rfl⟩ := exceptMap_eq_ok_iff.mp h
    have hcount := readNat_littleEndian 2 harity (values ++ rest)
    have hrow : readValues t.row.arity (values ++ rest) = (.ok t.row.values, rest) :=
      readValues_encodeValues hvalues rest
    rw [List.append_assoc, List.append_assoc, read,
      readNat_littleEndian 4 t.hash.toNat_lt]
    simp [hcount, hrow, Except.map]
  · contradiction

theorem encode_ne_nil {t : SpilledTuple} {bytes : List UInt8} (h : t.encode = .ok bytes) :
    bytes ≠ [] := by
  rw [encode] at h
  split at h
  · obtain ⟨values, -, rfl⟩ := exceptMap_eq_ok_iff.mp h
    exact List.cons_ne_nil _ _
  · contradiction

/-! ## Files of tuples -/

/-- The bytes of tuples one behind the other. -/
def encodeAll : List SpilledTuple → Except StorageFault (List UInt8)
  | [] => .ok []
  | t :: ts =>
    match t.encode with
    | .error e => .error e
    | .ok bytes => (encodeAll ts).map (bytes ++ ·)

theorem encodeAll_cons_eq_ok {t : SpilledTuple} {ts : List SpilledTuple} {bytes : List UInt8} :
    encodeAll (t :: ts) = .ok bytes ↔
      ∃ front back, t.encode = .ok front ∧ encodeAll ts = .ok back ∧ bytes = front ++ back := by
  rw [encodeAll]
  cases t.encode <;> cases encodeAll ts <;> simp [Except.map, eq_comm]

theorem encodeAll_append {ts us : List SpilledTuple} {front back : List UInt8}
    (hts : encodeAll ts = .ok front) (hus : encodeAll us = .ok back) :
    encodeAll (ts ++ us) = .ok (front ++ back) := by
  induction ts generalizing front with
  | nil =>
    obtain rfl := Except.ok.inj hts
    exact hus
  | cons t ts ih =>
    obtain ⟨first, others, hfirst, hothers, rfl⟩ := encodeAll_cons_eq_ok.mp hts
    rw [List.cons_append, List.append_assoc]
    exact encodeAll_cons_eq_ok.mpr ⟨first, others ++ back, hfirst, ih hothers, rfl⟩

theorem storable_of_encodeAll {ts : List SpilledTuple} {bytes : List UInt8}
    (h : encodeAll ts = .ok bytes) : ∀ t ∈ ts, t.Storable := by
  induction ts generalizing bytes with
  | nil => simp
  | cons t ts ih =>
    obtain ⟨front, back, hfront, hback, -⟩ := encodeAll_cons_eq_ok.mp h
    exact List.forall_mem_cons.mpr ⟨exists_encode_iff.mp ⟨front, hfront⟩, ih hback⟩

theorem length_le_of_encodeAll {ts : List SpilledTuple} {bytes : List UInt8}
    (h : encodeAll ts = .ok bytes) : ts.length ≤ bytes.length := by
  induction ts generalizing bytes with
  | nil => simp
  | cons t ts ih =>
    obtain ⟨front, back, hfront, hback, rfl⟩ := encodeAll_cons_eq_ok.mp h
    -- Each encoding takes at least one byte.
    have hpos := List.length_pos_iff.mpr (encode_ne_nil hfront)
    have hrest := ih hback
    simp only [List.length_cons, List.length_append]
    omega

theorem readUpTo_encodeAll {ts : List SpilledTuple} {bytes : List UInt8}
    (h : encodeAll ts = .ok bytes) {limit : Nat} (hlimit : ts.length ≤ limit) :
    readUpTo limit bytes = (ts, none, []) := by
  induction ts generalizing bytes limit with
  | nil =>
    obtain rfl := Except.ok.inj h
    cases limit <;> rfl
  | cons t ts ih =>
    obtain ⟨front, back, hfront, hback, rfl⟩ := encodeAll_cons_eq_ok.mp h
    obtain ⟨limit, rfl⟩ := Nat.exists_eq_add_of_le' (Nat.lt_of_lt_of_le (Nat.succ_pos _) hlimit)
    -- Reading goes on, as there are bytes left and the limit is not reached.
    have hnonempty : (front ++ back).isEmpty = false := by
      simp [encode_ne_nil hfront]
    have hrest := ih hback (Nat.le_of_succ_le_succ hlimit)
    rw [readUpTo, hnonempty, read_encode hfront]
    simp [hrest]

/-- The tuples of a file are read back in order. -/
theorem readAll_encodeAll {ts : List SpilledTuple} {bytes : List UInt8}
    (h : encodeAll ts = .ok bytes) : readAll bytes = (ts, none, []) :=
  readUpTo_encodeAll h (length_le_of_encodeAll h)

end SpilledTuple

end PullQuery
