import PullQuery.Hash.Digest
import PullQuery.Value

/-!
# Hashes of keys

A key is hashed by what it writes to a hash computation: the rank of its type, and then its
contents. The hash of several keys rotates and combines theirs.

## Main definitions

* `Value.hashWrites`: what a value writes
* `KeyHasher`: how keys are hashed, over any digest
* `KeyHasher.hashValue`: the hash of one key
* `KeyHasher.hashValues?`: the hash of the keys of a row, if it has one
-/

namespace PullQuery

namespace Value

/-- The contents of a value as it writes them. -/
def contentWrites : Value → List HashWrite
  | null => []
  | boolean b => [.byte (if b then 1 else 0)]
  | int32 i => [.half i.toUInt32]
  | int64 i => [.word i.toUInt64]
  | float64 x => [.word x.bits]
  | string text => [.bytes (utf8Bytes text), .byte 0xff]
  | bytes data => [.size data.length, .bytes data]

/-- What a value writes: its type and its contents. -/
def hashWrites (v : Value) : List HashWrite := .size v.typeRank :: v.contentWrites

end Value

/-- How the keys of rows are hashed. -/
structure KeyHasher where
  digest : List HashWrite → UInt64
  /-- Whether rows with a NULL key are kept. -/
  keepNulls : Bool

namespace KeyHasher

/-- The hasher that folds products. -/
def folding (keepNulls : Bool) : KeyHasher := ⟨HashState.digest, keepNulls⟩

/-- The hash of a key. -/
def hashValue (k : KeyHasher) (v : Value) : UInt32 :=
  let h := k.digest v.hashWrites
  (h ^^^ h >>> 32).toUInt32

/-- The contribution of a key to the hash of a row. NULL contributes nothing if it is kept,
and else takes the row out. -/
def contribution? (k : KeyHasher) (v : Value) : Option UInt32 :=
  if v.isNull then (if k.keepNulls then some 0 else none) else some (k.hashValue v)

/-- Combines the keys that follow with a hash. -/
def combine (k : KeyHasher) : UInt32 → List Value → Option UInt32
  | h, [] => some h
  | h, v :: vs =>
    match k.contribution? v with
    | none => none
    | some c => k.combine ((h <<< 1 ||| h >>> 31) ^^^ c) vs

/-- The hash of the keys of a row; none if a NULL takes the row out. -/
def hashValues? (k : KeyHasher) (vs : List Value) : Option UInt32 := k.combine 0 vs

end KeyHasher

/-- The hash of a key by folding products. -/
def Value.keyHash (v : Value) : UInt32 := (KeyHasher.folding false).hashValue v

/-- The hash of the keys of a row by folding products. -/
def combinedHash? (keepNulls : Bool) (vs : List Value) : Option UInt32 :=
  (KeyHasher.folding keepNulls).hashValues? vs

end PullQuery
