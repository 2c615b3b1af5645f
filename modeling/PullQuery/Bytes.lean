/-!
# Numbers and text as bytes

Numbers are written with the least significant byte first, text in UTF-8.

## Main definitions

* `littleEndian`, `ofLittleEndian`: numbers of a fixed count of bytes
* `takeBytes?`: the first bytes of a list, if there are enough
* `utf8Bytes`, `ofUtf8?`: text

## Main results

* `ofLittleEndian_littleEndian`, `littleEndian_ofLittleEndian`
* `ofUtf8?_eq_some_iff`: text is read exactly from the bytes it is written as
-/

namespace PullQuery

/-- The lowest `count` bytes of a number, the least significant first. -/
def littleEndian : Nat → Nat → List UInt8
  | 0, _ => []
  | count + 1, n => UInt8.ofNat n :: littleEndian count (n / 256)

/-- The number whose bytes these are, the least significant first. -/
def ofLittleEndian : List UInt8 → Nat
  | [] => 0
  | b :: bs => b.toNat + 256 * ofLittleEndian bs

@[simp]
theorem length_littleEndian (count n : Nat) : (littleEndian count n).length = count := by
  induction count generalizing n with
  | zero => rfl
  | succ count ih => simp [littleEndian, ih]

theorem ofLittleEndian_littleEndian (count n : Nat) :
    ofLittleEndian (littleEndian count n) = n % (1 <<< (8 * count)) := by
  rw [Nat.one_shiftLeft]
  induction count generalizing n with
  | zero => simp [littleEndian, ofLittleEndian, Nat.mod_one]
  | succ count ih =>
    have hfirst : (UInt8.ofNat n).toNat = n % 256 := UInt8.toNat_ofNat'
    have hwidth : 2 ^ (8 * (count + 1)) = 256 * 2 ^ (8 * count) := by
      rw [Nat.mul_succ, Nat.pow_add, Nat.mul_comm]
    rw [littleEndian, ofLittleEndian, ih, hfirst, hwidth, Nat.mod_mul]

theorem littleEndian_ofLittleEndian (bs : List UInt8) :
    littleEndian bs.length (ofLittleEndian bs) = bs := by
  induction bs with
  | nil => rfl
  | cons b bs ih =>
    have hb : b.toNat < 256 := b.toNat_lt
    -- The first byte is the remainder and the number of the other bytes the quotient.
    have hrest : (b.toNat + 256 * ofLittleEndian bs) / 256 = ofLittleEndian bs := by omega
    have hfirst : UInt8.ofNat (b.toNat + 256 * ofLittleEndian bs) = b := by
      apply UInt8.toNat_inj.mp
      rw [UInt8.toNat_ofNat']
      omega
    simp [littleEndian, ofLittleEndian, hrest, hfirst, ih]

theorem ofLittleEndian_lt (bs : List UInt8) : ofLittleEndian bs < 1 <<< (8 * bs.length) := by
  rw [Nat.one_shiftLeft]
  induction bs with
  | nil => simp [ofLittleEndian]
  | cons b bs ih =>
    have hb : b.toNat < 256 := b.toNat_lt
    rw [List.length_cons, Nat.mul_succ, Nat.pow_add, ofLittleEndian]
    omega

/-- The first `n` bytes and the bytes after them, if there are that many. -/
def takeBytes? : Nat → List UInt8 → Option (List UInt8 × List UInt8)
  | 0, bs => some ([], bs)
  | _ + 1, [] => none
  | n + 1, b :: bs => (takeBytes? n bs).map fun (taken, rest) => (b :: taken, rest)

theorem takeBytes?_append (xs rest : List UInt8) :
    takeBytes? xs.length (xs ++ rest) = some (xs, rest) := by
  induction xs with
  | nil => rfl
  | cons x xs ih => simp [takeBytes?, ih]

theorem takeBytes?_eq_some_iff {n : Nat} {bs taken rest : List UInt8} :
    takeBytes? n bs = some (taken, rest) ↔ bs = taken ++ rest ∧ taken.length = n := by
  constructor
  · intro h
    fun_induction takeBytes? n bs generalizing taken with
    | case1 bs => simp_all
    | case2 n => simp at h
    | case3 n b bs ih =>
      obtain ⟨⟨taken', rest'⟩, h', heq⟩ := Option.map_eq_some_iff.mp h
      simp only [Prod.mk.injEq] at heq
      obtain ⟨rfl, rfl⟩ := heq
      obtain ⟨rfl, rfl⟩ := ih h'
      simp
  · rintro ⟨rfl, rfl⟩
    exact takeBytes?_append taken rest

/-- The bytes of a text. -/
def utf8Bytes (s : String) : List UInt8 := s.toByteArray.data.toList

/-- The text with these bytes, if they are the bytes of a text. -/
def ofUtf8? (bs : List UInt8) : Option String := String.fromUTF8? ⟨bs.toArray⟩

theorem ofUtf8?_eq_some_iff {bs : List UInt8} {s : String} :
    ofUtf8? bs = some s ↔ bs = utf8Bytes s := by
  unfold ofUtf8? utf8Bytes String.fromUTF8?
  constructor
  · intro h
    split at h
    · obtain rfl := Option.some.inj h
      simp [String.fromUTF8]
    · simp at h
  · rintro rfl
    exact dif_pos s.isValidUTF8

theorem length_utf8Bytes (s : String) : (utf8Bytes s).length = s.utf8ByteSize := by
  exact Array.length_toList

end PullQuery
