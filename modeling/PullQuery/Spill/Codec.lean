import PullQuery.Bytes
import PullQuery.Row
import PullQuery.Storage.Fault

/-!
# Encoding of spilled tuples

A spilled tuple is written as its hash in four bytes, its number of columns in two, and then
for each column a tag and the contents: one byte for a Boolean, four and eight for integers,
the bit pattern for a float, and a length of four bytes before text and byte strings. All
numbers have the least significant byte first.

## Main definitions

* `SpilledTuple`, `SpilledTuple.encode`
* `SpilledTuple.read`, `SpilledTuple.readAll`: tuples read from the front of a list of bytes
-/

namespace PullQuery

/-- A row of a hash table with the hash of its keys. -/
structure SpilledTuple where
  hash : UInt32
  row : Row
deriving DecidableEq

/-! ## Writing -/

/-- The bytes of text and byte strings: their length and the data. -/
def encodeData (data : List UInt8) : Except StorageFault (List UInt8) :=
  if data.length < 0x100000000 then .ok (littleEndian 4 data.length ++ data)
  else .error .valueTooLarge

/-- The bytes of a value: its tag and its contents. -/
def Value.encode : Value → Except StorageFault (List UInt8)
  | .null => .ok [0]
  | .boolean b => .ok [1, if b then 1 else 0]
  | .int32 i => .ok (2 :: littleEndian 4 i.toUInt32.toNat)
  | .int64 i => .ok (3 :: littleEndian 8 i.toUInt64.toNat)
  | .float64 x => .ok (4 :: littleEndian 8 x.bits.toNat)
  | .string s => (encodeData (utf8Bytes s)).map (5 :: ·)
  | .bytes data => (encodeData data).map (6 :: ·)

/-- The bytes of values one after the other. -/
def encodeValues : List Value → Except StorageFault (List UInt8)
  | [] => .ok []
  | v :: vs =>
    match v.encode with
    | .error e => .error e
    | .ok bytes => (encodeValues vs).map (bytes ++ ·)

namespace SpilledTuple

/-- The bytes of a tuple. -/
def encode (t : SpilledTuple) : Except StorageFault (List UInt8) :=
  if t.row.arity < 0x10000 then
    (encodeValues t.row.values).map fun bytes =>
      littleEndian 4 t.hash.toNat ++ (littleEndian 2 t.row.arity ++ bytes)
  else .error .tooManyColumns

end SpilledTuple

/-! ## Reading -/

/-- A result read from the front of a list of bytes, with the bytes that are left. After an
error these are the bytes behind the last part that could be read. -/
abbrev Read (α : Type) := Except StorageFault α × List UInt8

/-- Reads a fixed number of bytes. -/
def readBytes (n : Nat) (bs : List UInt8) : Read (List UInt8) :=
  match takeBytes? n bs with
  | none => (.error .truncated, bs)
  | some (taken, rest) => (.ok taken, rest)

/-- Reads a number of a fixed count of bytes. -/
def readNat (count : Nat) (bs : List UInt8) : Read Nat :=
  let (taken, rest) := readBytes count bs
  (taken.map ofLittleEndian, rest)

/-- Reads a length and as many bytes. -/
def readData (bs : List UInt8) : Read (List UInt8) :=
  match readNat 4 bs with
  | (.error e, rest) => (.error e, rest)
  | (.ok size, rest) => readBytes size rest

/-- Reads the contents of a value with a given tag. -/
def Value.readTagged (tag : Nat) (bs : List UInt8) : Read Value :=
  match tag with
  | 0 => (.ok .null, bs)
  | 1 =>
    let (n, rest) := readNat 1 bs
    (n.map fun n => .boolean (n != 0), rest)
  | 2 =>
    let (n, rest) := readNat 4 bs
    (n.map fun n => .int32 (UInt32.ofNat n).toInt32, rest)
  | 3 =>
    let (n, rest) := readNat 8 bs
    (n.map fun n => .int64 (UInt64.ofNat n).toInt64, rest)
  | 4 =>
    let (n, rest) := readNat 8 bs
    (n.map fun n => .float64 (.ofBits (UInt64.ofNat n)), rest)
  | 5 =>
    match readData bs with
    | (.error e, rest) => (.error e, rest)
    | (.ok data, rest) =>
      match ofUtf8? data with
      | none => (.error .invalidText, rest)
      | some s => (.ok (.string s), rest)
  | 6 =>
    let (data, rest) := readData bs
    (data.map .bytes, rest)
  | tag => (.error (.unknownTag tag), bs)

/-- Reads a value. -/
def Value.read (bs : List UInt8) : Read Value :=
  match readNat 1 bs with
  | (.error e, rest) => (.error e, rest)
  | (.ok tag, rest) => readTagged tag rest

/-- Reads a fixed number of values. -/
def readValues : Nat → List UInt8 → Read (List Value)
  | 0, bs => (.ok [], bs)
  | count + 1, bs =>
    match Value.read bs with
    | (.error e, rest) => (.error e, rest)
    | (.ok v, rest) =>
      let (vs, rest) := readValues count rest
      (vs.map (v :: ·), rest)

namespace SpilledTuple

/-- Reads a tuple. -/
def read (bs : List UInt8) : Read SpilledTuple :=
  match readNat 4 bs with
  | (.error e, rest) => (.error e, rest)
  | (.ok hash, rest) =>
    match readNat 2 rest with
    | (.error e, rest) => (.error e, rest)
    | (.ok count, rest) =>
      let (vs, rest) := readValues count rest
      (vs.map fun vs => ⟨UInt32.ofNat hash, ⟨vs⟩⟩, rest)

/-- Reads at most `limit` tuples while bytes are left: the tuples before the first error, the
error, and the bytes that are left. -/
def readUpTo : Nat → List UInt8 → List SpilledTuple × Option StorageFault × List UInt8
  | 0, bs => ([], none, bs)
  | limit + 1, bs =>
    if bs.isEmpty then ([], none, bs)
    else
      match read bs with
      | (.error e, rest) => ([], some e, rest)
      | (.ok t, rest) =>
        let (ts, result) := readUpTo limit rest
        (t :: ts, result)

/-- Reads tuples until no bytes are left or an error occurs. Each tuple takes at least one
byte, so that there are no more tuples than bytes. -/
def readAll (bs : List UInt8) : List SpilledTuple × Option StorageFault × List UInt8 :=
  readUpTo bs.length bs

end SpilledTuple

end PullQuery
