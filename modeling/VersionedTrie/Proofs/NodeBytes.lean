import VersionedTrie.Proofs.Entries
import VersionedTrie.Proofs.NodeLayout

/-! # Which byte strings are nodes

A byte string is a node if it has the layout of a node's fields and the fields are `Sound`: a branch
has a child, and a leaf has nibbles for its key and the digest of its key and value. Such fields
belong to one node (`Node.decode_bytes_eq_ok`), so that a node has one byte string and a byte string
at most one node (`Node.codec_bijective`). Reading has no limit of its own but the eight bytes of
each size; the leaves that updates make stay twelve bytes below `maxNodeSize` at least
(`Node.size_encode_le`).
-/

set_option autoImplicit false

namespace VersionedTrie

namespace Layout

/-- The fields of a leaf as they are stored, whatever bytes stand for its key. -/
def leafBytes (key value : ByteArray) (d : Digest) : ByteArray :=
  Bytes.littleBytes 8 key.size ++ key ++ Bytes.littleBytes 8 value.size ++ value ++ d.bytes

namespace Fields

/-- What fields must be to be those of a node: a branch has a child; a leaf has nibbles for its key,
and its digest is that of its fields with the zero digest. -/
def Sound : Fields → Prop
  | .branch b => ∃ n c, b.child? n = some c
  | .leaf key value d =>
    (∀ u ∈ key.data.toList, u.toNat < 16) ∧
      d = Digest.of ("JMT::LeafNode".toUTF8 ++ leafBytes key value Digest.zero)

theorem bytes_inj {f g : Fields} (hf : f.Fits) (hg : g.Fits) (h : f.bytes = g.bytes) : f = g := by
  have hread : fields (f.bytes ++ ByteArray.empty) = .ok (f, ByteArray.empty) :=
    fields_eq_ok.mpr ⟨rfl, hf⟩
  rw [h, fields_eq_ok.mpr ⟨rfl, hg⟩, Except.ok.injEq, Prod.mk.injEq] at hread
  exact hread.1.symm

end Fields

end Layout

theorem leafDigest_eq (key : Path) (value : ByteArray) :
    leafDigest key value =
      Digest.of ("JMT::LeafNode".toUTF8 ++ Layout.leafBytes key.bytes value Digest.zero) := by
  rw [leafDigest, leafPreimage, leafFields, Layout.leafBytes, Path.size_bytes]

namespace Node

open Layout (Fields)

/-! ## Fields and their nodes -/

theorem storable_iff {x : Node} : x.Storable ↔ x.fields.Fits ∧ x.fields.Sound := by
  cases x with
  | branch b => exact Branch.isEmpty_children_eq_false.trans (and_iff_right trivial).symm
  | leaf l =>
    have hsound : (Node.leaf l).fields.Sound :=
      ⟨Path.exists_bytes_eq.mp ⟨l.key, rfl⟩, l.digest_eq.trans (leafDigest_eq l.key l.value)⟩
    rw [and_iff_left hsound, Storable, fields, Fields.Fits, Path.size_bytes]

theorem exists_fields_eq {f : Fields} (h : f.Sound) : ∃ x : Node, x.fields = f := by
  cases f with
  | branch b => exact ⟨.branch b, rfl⟩
  | leaf key value d =>
    obtain ⟨hnibbles, rfl⟩ := h
    obtain ⟨path, rfl⟩ := Path.exists_bytes_eq.mpr hnibbles
    refine ⟨.leaf (Leaf.make path value), ?_⟩
    rw [← leafDigest_eq]
    rfl

theorem decode_bytes_eq_ok {f : Fields} (hf : f.Fits) {x : Node} :
    decode f.bytes = .ok x ↔ f.Sound ∧ x.fields = f := by
  rw [decode_eq_ok, storable_iff, ← bytes_fields]
  constructor
  · rintro ⟨hbytes, hfits, hsound⟩
    obtain rfl := Fields.bytes_inj hf hfits hbytes
    exact ⟨hsound, rfl⟩
  · rintro ⟨hsound, rfl⟩
    exact ⟨rfl, hf, hsound⟩

theorem exists_decode_bytes {f : Fields} (hf : f.Fits) :
    (∃ x, decode f.bytes = .ok x) ↔ f.Sound := by
  simp only [decode_bytes_eq_ok hf]
  constructor
  · rintro ⟨x, hsound, -⟩
    exact hsound
  · intro hsound
    obtain ⟨x, hx⟩ := exists_fields_eq hsound
    exact ⟨x, hsound, hx⟩

/-! ## Sizes of leaves -/

theorem size_encode_leaf (key : Path) (value : ByteArray) :
    (encode (.leaf (.make key value))).size = 52 + key.length + value.size := by
  have := (leafDigest key value).size_bytes
  simp only [encode, leafFields, Leaf.make, ByteArray.size_append, Bytes.size_littleBytes,
    Path.size_bytes]
  omega

theorem decode_encode_leaf {key : Path} {value : ByteArray}
    (h : (encode (.leaf (.make key value))).size ≤ maxNodeSize) :
    decode (encode (.leaf (.make key value))) = .ok (.leaf (.make key value)) := by
  rw [size_encode_leaf] at h
  have hspan : maxNodeSize < Bytes.span 8 := by decide
  have hkey : key.length < Bytes.span 8 := by omega
  have hvalue : value.size < Bytes.span 8 := by omega
  exact decode_encode ⟨hkey, hvalue⟩

theorem size_encode_le {key value : ByteArray} (hkey : key.size ≤ maxKeySize)
    (hvalue : value.size ≤ maxValueSize) :
    (encode (.leaf (.make (Path.ofKey key) value))).size + 12 ≤ maxNodeSize := by
  have hlimits : 52 + 2 * maxKeySize + maxValueSize + 12 = maxNodeSize := by decide
  rw [size_encode_leaf, Path.length_ofKey]
  omega

/-! ## The codec -/

/-- Reading undoes writing for every branch with a child and every leaf up to `maxNodeSize`, as those
of updates are. Of the byte strings that have the layout of a node, those with sound fields are read
and no others; no other byte strings are read either, and what is read is written again as it was. So
one node comes of one byte string, and one key and value of one. -/
theorem codec_bijective :
    (∀ b : Branch, (∃ n c, b.child? n = some c) →
      decode (encode (.branch b)) = .ok (.branch b)) ∧
    (∀ (key : Path) (value : ByteArray),
      (encode (.leaf (.make key value))).size ≤ maxNodeSize →
        decode (encode (.leaf (.make key value))) = .ok (.leaf (.make key value))) ∧
    (∀ key value : ByteArray, key.size ≤ maxKeySize → value.size ≤ maxValueSize →
      let x := Node.leaf (.make (Path.ofKey key) value)
      x.encode.size ≤ maxNodeSize ∧ decode x.encode = .ok x) ∧
    (∀ f : Fields, f.Fits → ((∃ x, decode f.bytes = .ok x) ↔ f.Sound)) ∧
    ∀ (b : ByteArray) (x : Node), decode b = .ok x →
      x.encode = b ∧ (x.fields.Fits ∧ x.fields.bytes = b ∧ x.fields.Sound) ∧
      (∀ b', decode b' = .ok x → b' = b) ∧
      ∀ l b' l', x = .leaf l → decode b' = .ok (.leaf l') → l'.key = l.key → l'.value = l.value →
        b' = b := by
  refine ⟨fun b hb => decode_encode (Branch.isEmpty_children_eq_false.mpr hb),
    fun key value => decode_encode_leaf, fun key value hkey hvalue => ?_,
    fun f hf => exists_decode_bytes hf, fun b x hx => ?_⟩
  · have hsize := Nat.le_of_add_right_le (size_encode_le hkey hvalue)
    exact ⟨hsize, decode_encode_leaf hsize⟩
  · obtain ⟨rfl, hstorable⟩ := decode_eq_ok.mp hx
    obtain ⟨hfits, hsound⟩ := storable_iff.mp hstorable
    refine ⟨rfl, ⟨hfits, bytes_fields x, hsound⟩, fun b' hb' => (decode_eq_ok.mp hb').1, ?_⟩
    rintro l b' l' rfl hb' hkey hvalue
    rw [(decode_eq_ok.mp hb').1, Leaf.ext hkey hvalue]

/-- The largest leaf that an update makes is read back, and no leaf is whose key has a byte that is
no nibble, whatever digest it claims. -/
theorem codec_bijective_largest :
    ∃ key value : ByteArray, key.size = maxKeySize ∧ value.size = maxValueSize ∧
      (let x := Node.leaf (.make (Path.ofKey key) value)
       x.encode.size ≤ maxNodeSize ∧ decode x.encode = .ok x) ∧
      ∀ d, ¬∃ x, decode (Fields.leaf [16].toByteArray value d).bytes = .ok x := by
  obtain ⟨-, -, hupdates, hexact, -⟩ := codec_bijective
  obtain ⟨key, hkey⟩ : ∃ key : ByteArray, key.size = maxKeySize :=
    ⟨⟨Array.replicate maxKeySize 0xab⟩, Array.size_replicate⟩
  obtain ⟨value, hvalue⟩ : ∃ value : ByteArray, value.size = maxValueSize :=
    ⟨⟨Array.replicate maxValueSize 7⟩, Array.size_replicate⟩
  refine ⟨key, value, hkey, hvalue,
    hupdates key value (Nat.le_of_eq hkey) (Nat.le_of_eq hvalue), fun d => ?_⟩
  have hspan : 1 < Bytes.span 8 ∧ maxValueSize < Bytes.span 8 := by decide
  have hfits : (Fields.leaf [16].toByteArray value d).Fits := ⟨hspan.1, hvalue ▸ hspan.2⟩
  rw [hexact _ hfits]
  rintro ⟨hnibbles, -⟩
  exact absurd (hnibbles 16 (by simp)) (by decide)

end Node

end VersionedTrie
