import PullQuery.Bytes

/-!
# Digests

A hash computation is given numbers and bytes to write, and digests them to one word. The digest
here absorbs words into a 64-bit state with multiplications whose high and low halves are folded
together.

## Main definitions

* `HashWrite`: what a hash computation is given
* `HashState`, `HashState.absorb`, `HashState.absorbBytes`, `HashState.finish`
* `HashState.digest`
-/

namespace PullQuery

/-- What a hash computation is given: numbers of several widths, or bytes. -/
inductive HashWrite where
  | byte (x : UInt8)
  | half (x : UInt32)
  | word (x : UInt64)
  /-- A length or a rank. -/
  | size (n : Nat)
  | bytes (data : List UInt8)
deriving DecidableEq

/-- The two halves of the product of two words, combined. -/
def foldedProduct (a b : UInt64) : UInt64 :=
  let product := a.toNat * b.toNat
  UInt64.ofNat product ^^^ UInt64.ofNat (product >>> 64)

/-- Rotates a word to the left by the lowest six bits of `n`. -/
def rotateWord (x n : UInt64) : UInt64 := x <<< n ||| x >>> (64 - n)

/-- The word that each absorption multiplies by. -/
def hashMultiplier : UInt64 := 6364136223846793005

/-- The word added to the state before a pair of words and multiplied in at the end. -/
def hashPad : UInt64 := 0x61174b6ebd731ba4

/-- The words that the low and the high word of a pair are combined with. -/
def hashPairSeeds : UInt64 × UInt64 := (0x64a51195e0e3610d, 0x37aa2f2d5909659e)

/-- The state of a hash computation. -/
structure HashState where
  buffer : UInt64 := 0xad4dece137997f28
deriving DecidableEq

namespace HashState

/-- Absorbs a word. -/
def absorb (s : HashState) (x : UInt64) : HashState :=
  ⟨foldedProduct (x ^^^ s.buffer) hashMultiplier⟩

/-- Absorbs a pair of words. -/
def absorbPair (s : HashState) (low high : UInt64) : HashState :=
  let folded := foldedProduct (low ^^^ hashPairSeeds.1) (high ^^^ hashPairSeeds.2)
  ⟨rotateWord ((s.buffer + hashPad) ^^^ folded) 23⟩

/-- The word whose bytes these are. -/
def word (bs : List UInt8) : UInt64 := UInt64.ofNat (ofLittleEndian bs)

/-- Absorbs the first `count` and the last `count` bytes as a pair of words. -/
def absorbEnds (s : HashState) (first last : Nat) (bs : List UInt8) : HashState :=
  s.absorbPair (word (bs.take first)) (word (bs.drop (bs.length - last)))

/-- Absorbs so many blocks of sixteen bytes from the front. -/
def absorbBlocks : Nat → List UInt8 → HashState → HashState
  | 0, _, s => s
  | count + 1, bs, s =>
    absorbBlocks count (bs.drop 16) (s.absorbPair (word (bs.take 8)) (word ((bs.drop 8).take 8)))

/-- Absorbs bytes. More than sixteen are absorbed as their last sixteen and then in blocks from
the front, as long as more than sixteen are left; fewer as two ends, which may overlap. -/
def absorbBytes (s : HashState) (bs : List UInt8) : HashState :=
  let size := bs.length
  let s : HashState := ⟨(s.buffer + UInt64.ofNat size) * hashMultiplier⟩
  if 16 < size then
    absorbBlocks ((size - 1) / 16) bs (s.absorbEnds 8 8 (bs.drop (size - 16)))
  else if 8 < size then s.absorbEnds 8 8 bs
  else if 4 ≤ size then s.absorbEnds 4 4 bs
  else if 2 ≤ size then s.absorbEnds 2 1 bs
  else s.absorbEnds 1 1 bs

/-- The hash of what was absorbed. -/
def finish (s : HashState) : UInt64 := rotateWord (foldedProduct s.buffer hashPad) s.buffer

/-- Absorbs what is written; numbers of any width as words. -/
def write (s : HashState) : HashWrite → HashState
  | .byte x => s.absorb x.toUInt64
  | .half x => s.absorb x.toUInt64
  | .word x => s.absorb x
  | .size n => s.absorb (UInt64.ofNat n)
  | .bytes data => s.absorbBytes data

/-- The hash of what is written in turn. -/
def digest (ws : List HashWrite) : UInt64 := (ws.foldl write {}).finish

end HashState

end PullQuery
