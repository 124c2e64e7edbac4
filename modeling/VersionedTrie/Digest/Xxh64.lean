import VersionedTrie.Bytes.Basic

/-! # XXH64 with seed zero

A checksum of 64 bits. Inputs of at least 32 bytes are cut into stripes of four words, and each of
four lanes takes in one word of every stripe; the lanes are then merged into one word. What is left
behind the last stripe is taken in by words, by at most one half word, and by single bytes, and the
bits of the result are mixed once more.
-/

set_option autoImplicit false

namespace VersionedTrie.Xxh64

def prime1 : UInt64 := 0x9E3779B185EBCA87

def prime2 : UInt64 := 0xC2B2AE3D27D4EB4F

def prime3 : UInt64 := 0x165667B19E3779F9

def prime4 : UInt64 := 0x85EBCA77C2B2AE63

def prime5 : UInt64 := 0x27D4EB2F165667C5

@[inline] def rotateLeft (x : UInt64) (n : UInt64) : UInt64 :=
  (x <<< n) ||| (x >>> (64 - n))

/-! ## Words of the input -/

def halfWord (b : ByteArray) (i : Nat) : UInt64 :=
  (Bytes.at0 b i).toUInt64 ||| ((Bytes.at0 b (i + 1)).toUInt64 <<< 8) |||
    ((Bytes.at0 b (i + 2)).toUInt64 <<< 16) ||| ((Bytes.at0 b (i + 3)).toUInt64 <<< 24)

/-- The word at byte position `i`, least significant byte first. -/
def word (b : ByteArray) (i : Nat) : UInt64 :=
  halfWord b i ||| (halfWord b (i + 4) <<< 32)

/-! ## Stripes -/

structure Lanes where
  l0 : UInt64
  l1 : UInt64
  l2 : UInt64
  l3 : UInt64

def Lanes.initial : Lanes := ⟨prime1 + prime2, prime2, 0, 0 - prime1⟩

/-- A lane after it has taken in a word. -/
@[inline] def absorb (lane x : UInt64) : UInt64 :=
  rotateLeft (lane + x * prime2) 31 * prime1

/-- Takes in `n` stripes from byte position `i` on. -/
def stripes (b : ByteArray) : Nat → Nat → Lanes → Lanes
  | 0, _, s => s
  | n + 1, i, s =>
    stripes b n (i + 32)
      ⟨absorb s.l0 (word b i), absorb s.l1 (word b (i + 8)), absorb s.l2 (word b (i + 16)),
        absorb s.l3 (word b (i + 24))⟩

def mergeLane (h lane : UInt64) : UInt64 :=
  (h ^^^ absorb 0 lane) * prime1 + prime4

def Lanes.merged (s : Lanes) : UInt64 :=
  let h := rotateLeft s.l0 1 + rotateLeft s.l1 7 + rotateLeft s.l2 12 + rotateLeft s.l3 18
  mergeLane (mergeLane (mergeLane (mergeLane h s.l0) s.l1) s.l2) s.l3

/-! ## The rest behind the stripes -/

/-- Takes in `n` words from byte position `i` on. -/
def words (b : ByteArray) : Nat → Nat → UInt64 → UInt64
  | 0, _, h => h
  | n + 1, i, h =>
    words b n (i + 8) (rotateLeft (h ^^^ absorb 0 (word b i)) 27 * prime1 + prime4)

/-- Takes in `n` single bytes from position `i` on. -/
def bytes (b : ByteArray) : Nat → Nat → UInt64 → UInt64
  | 0, _, h => h
  | n + 1, i, h =>
    bytes b n (i + 1) (rotateLeft (h ^^^ ((Bytes.at0 b i).toUInt64 * prime5)) 11 * prime1)

/-- Takes in the last `left` bytes, fewer than a stripe, from position `i` on. -/
def rest (b : ByteArray) (i left : Nat) (h : UInt64) : UInt64 :=
  let h := words b (left / 8) i h
  let i := i + left / 8 * 8
  let left := left % 8
  if left < 4 then bytes b left i h
  else
    bytes b (left - 4) (i + 4)
      (rotateLeft (h ^^^ (halfWord b i * prime1)) 23 * prime2 + prime3)

def mixed (h : UInt64) : UInt64 :=
  let h := (h ^^^ (h >>> 33)) * prime2
  let h := (h ^^^ (h >>> 29)) * prime3
  h ^^^ (h >>> 32)

def checksum (b : ByteArray) : UInt64 :=
  let n := b.size / 32
  let h := if n = 0 then prime5 else (stripes b n 0 .initial).merged
  mixed (rest b (n * 32) (b.size % 32) (h + b.size.toUInt64))

end VersionedTrie.Xxh64
