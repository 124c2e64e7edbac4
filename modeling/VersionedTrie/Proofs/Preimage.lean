import VersionedTrie.Proofs.NodeLayout
import Mathlib.Data.List.OfFn

/-! # What nodes digest

The byte string that a node digests tells what the node says of its contents: the preimage of a
branch tells the digest in each of its slots, the preimage of a leaf its key and its value, and
neither is ever the other, since they begin with different words. Equal digests of different
contents are therefore a collision (`Collides`).
-/

set_option autoImplicit false

namespace VersionedTrie

theorem Bytes.append_inj {a a' b b' : ByteArray} (h : a ++ b = a' ++ b') (hs : a.size = a'.size) :
    a = a' ∧ b = b' := by
  obtain rfl := ByteArray.append_inj_left h hs
  exact ⟨rfl, (ByteArray.append_right_inj a).mp h⟩

/-! ## Branches -/

namespace Branch

/-- The digest that stands for a slot. -/
def digestAt (b : Branch) (n : Nibble) : Digest := (b.child? n).elim Digest.placeholder (·.digest)

theorem foldl_bytes_inj {l l' : List Digest} (h : l.length = l'.length) {out out' : ByteArray}
    (hs : out.size = out'.size)
    (he : l.foldl (fun out d => out ++ d.bytes) out = l'.foldl (fun out d => out ++ d.bytes) out') :
    out = out' ∧ l = l' := by
  induction l generalizing l' out out' with
  | nil =>
    obtain rfl := List.length_eq_zero_iff.mp h.symm
    exact ⟨he, rfl⟩
  | cons d l ih =>
    cases l' with
    | nil => cases h
    | cons d' l' =>
      obtain ⟨hout, rfl⟩ := ih (Nat.succ.inj h)
        (by rw [ByteArray.size_append, ByteArray.size_append, hs, d.size_bytes, d'.size_bytes]) he
      obtain ⟨rfl, hd⟩ := Bytes.append_inj hout hs
      rw [Digest.ext hd]
      exact ⟨rfl, rfl⟩

theorem preimage_eq (b : Branch) :
    b.preimage = (List.ofFn b.digestAt).foldl (fun out d => out ++ d.bytes)
      "JMT::InternalNode".toUTF8 := by
  have hmap : List.ofFn b.digestAt =
      b.slots.toList.map fun slot => slot.elim Digest.placeholder (·.digest) := by
    refine List.ext_getElem (by simp) fun i hi _ => ?_
    simp only [List.getElem_ofFn, List.getElem_map, Vector.getElem_toList]
    rfl
  rw [hmap, List.foldl_map, preimage]

theorem preimage_inj {a b : Branch} : a.preimage = b.preimage ↔ a.digestAt = b.digestAt := by
  rw [preimage_eq, preimage_eq]
  constructor
  · intro h
    exact List.ofFn_injective (foldl_bytes_inj (by simp) rfl h).2
  · intro h
    rw [h]

end Branch

/-! ## Leaves -/

/-- The key is read back from its length if the length fits its field; so is the value then, since
the sizes add up to the same. -/
theorem leafPreimage_inj {key key' : Path} {value value' : ByteArray}
    (hk : key.length < Bytes.span 8) (hv : value.size < Bytes.span 8)
    (h : leafPreimage key value = leafPreimage key' value') : key = key' ∧ value = value' := by
  have hfields := (ByteArray.append_right_inj _).mp h
  have hsize := congrArg ByteArray.size hfields
  simp only [leafFields, ByteArray.size_append, Bytes.size_littleBytes, Path.size_bytes] at hsize
  simp only [leafFields, ByteArray.append_assoc] at hfields
  obtain ⟨hnumber, hrest⟩ := Bytes.append_inj hfields (by simp)
  have hlength : key.length = key'.length := by
    have hmod : key.length % Bytes.span 8 = key'.length % Bytes.span 8 := by
      rw [← Bytes.ofLittle_little_mod, ← Bytes.ofLittle_little_mod,
        List.toByteArray_inj.mp hnumber]
    rw [show Bytes.span 8 = 18446744073709551616 from rfl] at hk hv hmod
    omega
  obtain ⟨hpath, hrest⟩ := Bytes.append_inj hrest (by rw [Path.size_bytes, Path.size_bytes, hlength])
  obtain ⟨_, hrest⟩ := Bytes.append_inj hrest (by simp)
  refine ⟨?_, (Bytes.append_inj hrest (by omega)).1⟩
  have hkey := Path.ofBytes?_bytes key
  rw [hpath, Path.ofBytes?_bytes] at hkey
  exact (Option.some.inj hkey).symm

/-- Under one key no bound is needed: the values have one size, since the fields have. -/
theorem leafPreimage_value_inj {key : Path} {value value' : ByteArray}
    (h : leafPreimage key value = leafPreimage key value') : value = value' := by
  have hfields := (ByteArray.append_right_inj _).mp h
  have hsize := congrArg ByteArray.size hfields
  simp only [leafFields, ByteArray.size_append, Bytes.size_littleBytes, Path.size_bytes] at hsize
  simp only [leafFields, ByteArray.append_assoc] at hfields
  have hrest := (Bytes.append_inj (Bytes.append_inj hfields rfl).2 rfl).2
  exact (Bytes.append_inj (Bytes.append_inj hrest (by simp)).2 (by omega)).1

theorem preimage_ne_leafPreimage (b : Branch) (key : Path) (value : ByteArray) :
    b.preimage ≠ leafPreimage key value := by
  intro h
  have hword : ∀ (l : List Digest) (out : ByteArray), 6 ≤ out.size →
      (l.foldl (fun out d => out ++ d.bytes) out).data.toList.take 6 = out.data.toList.take 6 := by
    intro l
    induction l with
    | nil => exact fun _ _ => rfl
    | cons d l ih =>
      intro out hout
      rw [List.foldl_cons, ih _ (by rw [ByteArray.size_append]; omega), ByteArray.data_append,
        Array.toList_append, List.take_append_of_le_length (by simpa using hout)]
  have htake : b.preimage.data.toList.take 6 = (leafPreimage key value).data.toList.take 6 := by
    rw [h]
  rw [b.preimage_eq, hword _ _ (by decide), leafPreimage, ByteArray.data_append,
    Array.toList_append, List.take_append_of_le_length (by decide)] at htake
  exact absurd htake (by decide)

/-! ## Nodes -/

namespace Node

def preimage : Node → ByteArray
  | .branch b => b.preimage
  | .leaf l => leafPreimage l.key l.value

theorem digest_eq_of (x : Node) : x.digest = Digest.of x.preimage := by
  cases x with
  | branch b => rfl
  | leaf l => exact l.digest_eq

end Node

/-! ## Collisions -/

/-- Two of the inputs have one digest, or one of them has the placeholder as its digest. -/
def Collides (inputs : ByteArray → Prop) : Prop :=
  (∃ a b, inputs a ∧ inputs b ∧ a ≠ b ∧ Digest.of a = Digest.of b) ∨
    ∃ a, inputs a ∧ Digest.of a = Digest.placeholder

theorem Collides.mono {inputs inputs' : ByteArray → Prop} (h : Collides inputs)
    (hi : ∀ b, inputs b → inputs' b) : Collides inputs' := by
  obtain ⟨a, b, ha, hb, hne, hd⟩ | ⟨a, ha, hd⟩ := h
  · exact .inl ⟨a, b, hi a ha, hi b hb, hne, hd⟩
  · exact .inr ⟨a, hi a ha, hd⟩

theorem eq_or_collides {inputs : ByteArray → Prop} {a b : ByteArray} (ha : inputs a) (hb : inputs b)
    (h : Digest.of a = Digest.of b) : a = b ∨ Collides inputs := by
  by_cases e : a = b
  · exact .inl e
  · exact .inr (.inl ⟨a, b, ha, hb, e, h⟩)

end VersionedTrie
