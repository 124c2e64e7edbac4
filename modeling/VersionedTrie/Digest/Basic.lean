import VersionedTrie.Bytes.Order
import VersionedTrie.Bytes.Hex
import VersionedTrie.Digest.Blake3

/-! # Digests

A digest is a byte string of 32 bytes. Nodes are digested by BLAKE3; two digests stand apart: the
placeholder, which is the root of a trie without entries and the digest of an absent child, and the
zero digest, which fills the digest field of a leaf while the leaf itself is being digested.
-/

set_option autoImplicit false

namespace VersionedTrie

structure Digest where
  bytes : ByteArray
  size_bytes : bytes.size = 32
  deriving DecidableEq

namespace Digest

theorem ext {a b : Digest} (h : a.bytes = b.bytes) : a = b := by
  cases a
  cases b
  cases h
  rfl

def of (b : ByteArray) : Digest := ⟨Blake3.hash b, Blake3.size_hash b⟩

def ofBytes? (b : ByteArray) : Option Digest :=
  if h : b.size = 32 then some ⟨b, h⟩ else none

theorem ofBytes?_bytes (d : Digest) : ofBytes? d.bytes = some d := by
  simp [ofBytes?, d.size_bytes]

theorem ofBytes?_eq_some {b : ByteArray} {d : Digest} (h : ofBytes? b = some d) : d.bytes = b := by
  unfold ofBytes? at h
  split at h
  · cases h
    rfl
  · simp at h

/-- The root of a trie without entries, and the digest of an absent child. -/
def placeholder : Digest := ⟨"SPARSE_MERKLE_PLACEHOLDER_HASH__".toUTF8, by decide⟩

def zero : Digest := ⟨(List.replicate 32 (0 : UInt8)).toByteArray, by simp⟩

instance : Inhabited Digest := ⟨placeholder⟩

instance : Ord Digest := ⟨fun a b => compare a.bytes b.bytes⟩

def hex (d : Digest) : String := Hex.encode d.bytes

def short (d : Digest) : String := Hex.encode (d.bytes.extract 0 4)

/-- The form in which a digest is shown inside other text. -/
def display (d : Digest) : String := "Hash(" ++ d.short ++ ")"

def ofHex (text : String) : Except HexError Digest := do
  let b ← Hex.decode text
  match ofBytes? b with
  | some d => pure d
  | none => .error .wrongLength

end Digest

end VersionedTrie
