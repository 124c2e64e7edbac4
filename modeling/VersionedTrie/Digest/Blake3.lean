import VersionedTrie.Bytes.Basic

/-! # BLAKE3 with 32 bytes of output and no key

The input is cut into chunks of 1024 bytes, each chunk into blocks of 64 bytes. Compressing the
blocks of a chunk in order gives its chaining value; a binary tree of parents, whose left part is
always full, joins the chaining values of the chunks. The last compression of all carries the root
flag, and its eight words are the digest. Bytes beyond the end of the input count as zero.
-/

set_option autoImplicit false

namespace VersionedTrie.Blake3

structure Chain where
  w0 : UInt32
  w1 : UInt32
  w2 : UInt32
  w3 : UInt32
  w4 : UInt32
  w5 : UInt32
  w6 : UInt32
  w7 : UInt32

/-- Sixteen words: a message block, or the state of a compression. -/
structure Block where
  w0 : UInt32
  w1 : UInt32
  w2 : UInt32
  w3 : UInt32
  w4 : UInt32
  w5 : UInt32
  w6 : UInt32
  w7 : UInt32
  w8 : UInt32
  w9 : UInt32
  w10 : UInt32
  w11 : UInt32
  w12 : UInt32
  w13 : UInt32
  w14 : UInt32
  w15 : UInt32

/-- The chaining value from which every chunk and every parent starts. -/
def initial : Chain :=
  ⟨0x6A09E667, 0xBB67AE85, 0x3C6EF372, 0xA54FF53A, 0x510E527F, 0x9B05688C, 0x1F83D9AB, 0x5BE0CD19⟩

/-! ## Flags of a compression -/

def chunkStart : UInt32 := 1

def chunkEnd : UInt32 := 2

def parentNode : UInt32 := 4

def rootNode : UInt32 := 8

/-! ## Compression -/

structure Quad where
  a : UInt32
  b : UInt32
  c : UInt32
  d : UInt32

@[inline] def rotateRight (x : UInt32) (n : UInt32) : UInt32 :=
  (x >>> n) ||| (x <<< (32 - n))

/-- Mixes two message words into four words of the state. -/
@[inline] def mix (a b c d x y : UInt32) : Quad :=
  let a := a + b + x
  let d := rotateRight (d ^^^ a) 16
  let c := c + d
  let b := rotateRight (b ^^^ c) 12
  let a := a + b + y
  let d := rotateRight (d ^^^ a) 8
  let c := c + d
  let b := rotateRight (b ^^^ c) 7
  ⟨a, b, c, d⟩

/-- One round: the four columns of the state, then its four diagonals. -/
def round (s m : Block) : Block :=
  let p := mix s.w0 s.w4 s.w8 s.w12 m.w0 m.w1
  let q := mix s.w1 s.w5 s.w9 s.w13 m.w2 m.w3
  let r := mix s.w2 s.w6 s.w10 s.w14 m.w4 m.w5
  let t := mix s.w3 s.w7 s.w11 s.w15 m.w6 m.w7
  let e := mix p.a q.b r.c t.d m.w8 m.w9
  let f := mix q.a r.b t.c p.d m.w10 m.w11
  let g := mix r.a t.b p.c q.d m.w12 m.w13
  let h := mix t.a p.b q.c r.d m.w14 m.w15
  ⟨e.a, f.a, g.a, h.a, h.b, e.b, f.b, g.b, g.c, h.c, e.c, f.c, f.d, g.d, h.d, e.d⟩

/-- The order in which the next round reads the message words. -/
def permute (m : Block) : Block :=
  ⟨m.w2, m.w6, m.w3, m.w10, m.w7, m.w0, m.w4, m.w13, m.w1, m.w11, m.w12, m.w5, m.w9, m.w14, m.w15,
    m.w8⟩

/-- `n` rounds, the message permuted between one and the next. -/
def rounds : Nat → Block → Block → Block
  | 0, s, _ => s
  | n + 1, s, m => rounds n (round s m) (permute m)

def compress (cv : Chain) (m : Block) (counter : UInt64) (len flags : UInt32) : Chain :=
  let s := rounds 7
    ⟨cv.w0, cv.w1, cv.w2, cv.w3, cv.w4, cv.w5, cv.w6, cv.w7, initial.w0, initial.w1, initial.w2,
      initial.w3, counter.toUInt32, (counter >>> 32).toUInt32, len, flags⟩ m
  ⟨s.w0 ^^^ s.w8, s.w1 ^^^ s.w9, s.w2 ^^^ s.w10, s.w3 ^^^ s.w11, s.w4 ^^^ s.w12, s.w5 ^^^ s.w13,
    s.w6 ^^^ s.w14, s.w7 ^^^ s.w15⟩

/-! ## Chunks and the tree over them -/

/-- The word at byte position `i`, least significant byte first. -/
def word (b : ByteArray) (i : Nat) : UInt32 :=
  (Bytes.at0 b i).toUInt32 ||| ((Bytes.at0 b (i + 1)).toUInt32 <<< 8) |||
    ((Bytes.at0 b (i + 2)).toUInt32 <<< 16) ||| ((Bytes.at0 b (i + 3)).toUInt32 <<< 24)

def block (b : ByteArray) (i : Nat) : Block :=
  ⟨word b i, word b (i + 4), word b (i + 8), word b (i + 12), word b (i + 16), word b (i + 20),
    word b (i + 24), word b (i + 28), word b (i + 32), word b (i + 36), word b (i + 40),
    word b (i + 44), word b (i + 48), word b (i + 52), word b (i + 56), word b (i + 60)⟩

/-- Compresses `n` further blocks of a chunk, of which `left` bytes are left at position `i`. -/
def chunkBlocks (b : ByteArray) (counter : UInt64) (last : UInt32) :
    Nat → Nat → Nat → UInt32 → Chain → Chain
  | 0, _, _, _, cv => cv
  | 1, i, left, flags, cv =>
    compress cv (block b i) counter left.toUInt32 (flags ||| chunkEnd ||| last)
  | n + 2, i, left, flags, cv =>
    chunkBlocks b counter last (n + 1) (i + 64) (left - 64) 0
      (compress cv (block b i) counter 64 flags)

/-- The chaining value of the chunk of `len` bytes at position `i`; the last compression carries
the flags `last` too. -/
def chunk (b : ByteArray) (i len : Nat) (counter : UInt64) (last : UInt32) : Chain :=
  chunkBlocks b counter last (max 1 ((len + 63) / 64)) i len chunkStart initial

def parent (l r : Chain) (last : UInt32) : Chain :=
  compress initial
    ⟨l.w0, l.w1, l.w2, l.w3, l.w4, l.w5, l.w6, l.w7, r.w0, r.w1, r.w2, r.w3, r.w4, r.w5, r.w6, r.w7⟩
    0 64 (parentNode ||| last)

/-- The size of the left part of more than one chunk: the largest power of two of chunks that
leaves something for the right part. -/
def leftSize (len : Nat) : Nat :=
  1024 <<< Nat.log2 ((len - 1) / 1024)

/-- The chaining value of the `len` bytes at position `i`, over a tree of at most the given
height. -/
def tree (b : ByteArray) : Nat → Nat → Nat → UInt64 → UInt32 → Chain
  | 0, i, len, counter, last => chunk b i len counter last
  | height + 1, i, len, counter, last =>
    if len ≤ 1024 then chunk b i len counter last
    else
      let n := leftSize len
      let l := tree b height i n counter 0
      let r := tree b height (i + n) (len - n) (counter + (n / 1024).toUInt64) 0
      parent l r last

def Chain.bytes (cv : Chain) : List UInt8 :=
  Bytes.little 4 cv.w0.toNat ++ Bytes.little 4 cv.w1.toNat ++ Bytes.little 4 cv.w2.toNat ++
    Bytes.little 4 cv.w3.toNat ++ Bytes.little 4 cv.w4.toNat ++ Bytes.little 4 cv.w5.toNat ++
    Bytes.little 4 cv.w6.toNat ++ Bytes.little 4 cv.w7.toNat

@[simp] theorem length_chain_bytes (cv : Chain) : cv.bytes.length = 32 := by
  simp [Chain.bytes]

def hash (b : ByteArray) : ByteArray :=
  (tree b (Nat.log2 b.size) 0 b.size 0 rootNode).bytes.toByteArray

@[simp] theorem size_hash (b : ByteArray) : (hash b).size = 32 := by
  simp [hash]

end VersionedTrie.Blake3
