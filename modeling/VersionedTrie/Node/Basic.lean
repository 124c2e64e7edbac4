import VersionedTrie.Error

/-! # Nodes

A node is a branch with sixteen slots, one per nibble, or a leaf with a whole key and its value; a
run of shared nibbles is a chain of branches with one child each. Digests depend on logical content
alone: a leaf digests its key and value, a branch the digests of its children, an absent child
counting as the placeholder. Neither the version nor the position of a node is digested, so equal
contents have equal digests wherever and whenever they were written.
-/

set_option autoImplicit false

namespace VersionedTrie

/-- What a branch records of a child: the digest of the subtree, the version the child was written
at, and whether it is a leaf. -/
structure Child where
  digest : Digest
  version : Version
  leaf : Bool
  deriving DecidableEq

structure Branch where
  slots : Vector (Option Child) 16
  deriving DecidableEq

namespace Branch

def empty : Branch := ⟨Vector.replicate 16 none⟩

def child? (b : Branch) (n : Nibble) : Option Child := b.slots[n]

def set (b : Branch) (n : Nibble) (c : Child) : Branch := ⟨b.slots.set n (some c)⟩

def remove (b : Branch) (n : Nibble) : Branch := ⟨b.slots.set n none⟩

/-- The children with their nibbles, in the order of the nibbles. -/
def children (b : Branch) : List (Nibble × Child) :=
  (List.finRange 16).filterMap fun n => (b.child? n).map (n, ·)

/-- The only child, if there is exactly one and it is a leaf. -/
def onlyLeaf? (b : Branch) : Option (Nibble × Child) :=
  match b.children with
  | [(n, c)] => if c.leaf then some (n, c) else none
  | _ => none

theorem child?_set (b : Branch) (n m : Nibble) (c : Child) :
    (b.set n c).child? m = if n = m then some c else b.child? m := by
  simp only [child?, set, Fin.getElem_fin, Vector.getElem_set, Fin.val_inj]

theorem child?_remove (b : Branch) (n m : Nibble) :
    (b.remove n).child? m = if n = m then none else b.child? m := by
  simp only [child?, remove, Fin.getElem_fin, Vector.getElem_set, Fin.val_inj]

theorem child?_empty (n : Nibble) : empty.child? n = none := by
  simp [child?, empty]

theorem mem_children {b : Branch} {n : Nibble} {c : Child} :
    (n, c) ∈ b.children ↔ b.child? n = some c := by
  simp only [children, List.mem_filterMap, List.mem_finRange, true_and, Option.map_eq_some_iff,
    Prod.mk.injEq]
  constructor
  · rintro ⟨m, d, hd, rfl, rfl⟩
    exact hd
  · intro h
    exact ⟨n, c, h, rfl, rfl⟩

def preimage (b : Branch) : ByteArray :=
  b.slots.toList.foldl
    (fun out slot => out ++ (slot.elim Digest.placeholder (·.digest)).bytes)
    "JMT::InternalNode".toUTF8

def digest (b : Branch) : Digest := Digest.of b.preimage

end Branch

/-! ## Leaves -/

/-- The stored fields of a leaf: the key's length and nibbles, the value's length and bytes, and the
digest. -/
def leafFields (key : Path) (value : ByteArray) (digest : Digest) : ByteArray :=
  Bytes.littleBytes 8 key.length ++ key.bytes ++ Bytes.littleBytes 8 value.size ++ value ++
    digest.bytes

/-- The byte string that a leaf digests: its fields with a zero digest. -/
def leafPreimage (key : Path) (value : ByteArray) : ByteArray :=
  "JMT::LeafNode".toUTF8 ++ leafFields key value Digest.zero

def leafDigest (key : Path) (value : ByteArray) : Digest := Digest.of (leafPreimage key value)

/-- A leaf carries the digest of its key and value. -/
structure Leaf where
  key : Path
  value : ByteArray
  digest : Digest
  digest_eq : digest = leafDigest key value

namespace Leaf

def make (key : Path) (value : ByteArray) : Leaf := ⟨key, value, leafDigest key value, rfl⟩

theorem ext {a b : Leaf} (hk : a.key = b.key) (hv : a.value = b.value) : a = b := by
  obtain ⟨_, _, _, ha⟩ := a
  obtain ⟨_, _, _, hb⟩ := b
  simp only at hk hv
  subst hk hv ha hb
  rfl

instance : DecidableEq Leaf := fun a b =>
  if h : a.key = b.key ∧ a.value = b.value then isTrue (ext h.1 h.2)
  else isFalse fun e => h (e ▸ ⟨rfl, rfl⟩)

end Leaf

/-! ## Nodes -/

inductive Node where
  | branch (b : Branch)
  | leaf (l : Leaf)
  deriving DecidableEq

namespace Node

instance : Inhabited Node := ⟨.branch Branch.empty⟩

def digest : Node → Digest
  | .branch b => b.digest
  | .leaf l => l.digest

def isLeaf : Node → Bool
  | .branch _ => false
  | .leaf _ => true

/-- What a branch records of this node as a child written at the given version. -/
def asChild (n : Node) (version : Version) : Child := ⟨n.digest, version, n.isLeaf⟩

end Node

end VersionedTrie
