import VersionedTrie.Digest.Blake3

/-! # Hashing one chunk from the front

A byte string of one chunk has the hash that is computed from the list of its bytes, block after
block from the front (`hash_eq_hashOf`). Nothing is counted off from the beginning of the byte
string then, so that single digests can be evaluated in proofs.
-/

set_option autoImplicit false

namespace VersionedTrie.Blake3

/-- The word that begins a list of bytes; bytes that are missing count as zero. -/
def wordOf (l : List UInt8) : UInt32 :=
  (l.getD 0 0).toUInt32 ||| ((l.getD 1 0).toUInt32 <<< 8) ||| ((l.getD 2 0).toUInt32 <<< 16) |||
    ((l.getD 3 0).toUInt32 <<< 24)

/-- The block that begins a list of bytes. -/
def blockOf (l : List UInt8) : Block :=
  ⟨wordOf l, wordOf (l.drop 4), wordOf (l.drop 8), wordOf (l.drop 12), wordOf (l.drop 16),
    wordOf (l.drop 20), wordOf (l.drop 24), wordOf (l.drop 28), wordOf (l.drop 32),
    wordOf (l.drop 36), wordOf (l.drop 40), wordOf (l.drop 44), wordOf (l.drop 48),
    wordOf (l.drop 52), wordOf (l.drop 56), wordOf (l.drop 60)⟩

def chunkBlocksOf (counter : UInt64) (last : UInt32) :
    Nat → List UInt8 → Nat → UInt32 → Chain → Chain
  | 0, _, _, _, cv => cv
  | 1, l, left, flags, cv =>
    compress cv (blockOf l) counter left.toUInt32 (flags ||| chunkEnd ||| last)
  | n + 2, l, left, flags, cv =>
    chunkBlocksOf counter last (n + 1) (l.drop 64) (left - 64) 0
      (compress cv (blockOf l) counter 64 flags)

/-- The hash of a byte string of one chunk, given by its bytes. -/
def hashOf (l : List UInt8) : ByteArray :=
  (chunkBlocksOf 0 rootNode (max 1 ((l.length + 63) / 64)) l l.length chunkStart
    initial).bytes.toByteArray

variable (b : ByteArray)

theorem at0_eq_getD (i : Nat) : Bytes.at0 b i = b.data.toList.getD i 0 := by
  rw [Bytes.at0, List.getD_eq_getElem?_getD]
  split
  · next h =>
    rw [List.getElem?_eq_getElem (by simpa using h)]
    rfl
  · next h =>
    rw [List.getElem?_eq_none (by simpa using h)]
    rfl

theorem word_eq_wordOf (i : Nat) : word b i = wordOf (b.data.toList.drop i) := by
  simp only [word, wordOf, at0_eq_getD, List.getD_eq_getElem?_getD, List.getElem?_drop, Nat.add_zero]

theorem block_eq_blockOf (i : Nat) : block b i = blockOf (b.data.toList.drop i) := by
  simp only [block, blockOf, word_eq_wordOf, List.drop_drop]

theorem chunkBlocks_eq_chunkBlocksOf (counter : UInt64) (last : UInt32) (n i left : Nat)
    (flags : UInt32) (cv : Chain) :
    chunkBlocks b counter last n i left flags cv =
      chunkBlocksOf counter last n (b.data.toList.drop i) left flags cv := by
  induction n generalizing i left flags cv with
  | zero => rfl
  | succ n ih =>
    cases n with
    | zero => rw [chunkBlocks, chunkBlocksOf, block_eq_blockOf]
    | succ n => rw [chunkBlocks, chunkBlocksOf, block_eq_blockOf, ih, List.drop_drop]

theorem hash_eq_hashOf (h : b.size ≤ 1024) : hash b = hashOf b.data.toList := by
  have hchunk : tree b (Nat.log2 b.size) 0 b.size 0 rootNode = chunk b 0 b.size 0 rootNode := by
    cases Nat.log2 b.size with
    | zero => rfl
    | succ height => rw [tree, if_pos h]
  rw [hash, hchunk, chunk, chunkBlocks_eq_chunkBlocksOf, List.drop_zero]
  rfl

end VersionedTrie.Blake3
