import VersionedTrie.Error

/-! # Store keys of nodes

The store key of a node is its node key written out: the version in eight bytes, most significant
first, the length of the prefix in one byte, the prefix, and one byte for each nibble of the path.
Reading undoes writing (`decode_encode`), and only written node keys are read (`encode_of_decode`).
-/

set_option autoImplicit false

namespace VersionedTrie.NodeKey

def encode (k : NodeKey) : ByteArray :=
  Bytes.bigBytes 8 k.version.toNat ++
    (Bytes.littleBytes 1 k.tree.bytes.size ++ (k.tree.bytes ++ k.stored.bytes))

def decode (b : ByteArray) : Except NodeDefect NodeKey :=
  match Bytes.split? b 8 with
  | none => .error (.keyTooShort b.size)
  | some (version, r) =>
    match Bytes.split? r 1 with
    | none => .error (.keyTooShort b.size)
    | some (size, r) =>
      let length := Bytes.ofLittleBytes size
      match Bytes.split? r length with
      | none => .error (.prefixOverruns length r.size)
      | some (tree, path) =>
        match TreePrefix.ofBytes? tree, Path.ofBytes? path with
        | some tree, some path => .ok (ofPath (Bytes.ofBigBytes version).toUInt64 tree path)
        | none, _ => .error (.prefixOverruns length r.size)
        | _, none => .error .keyNotNibbles

theorem decode_encode (k : NodeKey) : decode k.encode = .ok k := by
  obtain ⟨version, ⟨tree, ht⟩, stored⟩ := k
  have h8 : (Bytes.bigBytes 8 version.toNat).size = 8 := Bytes.size_bigBytes ..
  have h1 : (Bytes.littleBytes 1 tree.size).size = 1 := Bytes.size_littleBytes ..
  have hs : Bytes.ofLittleBytes (Bytes.littleBytes 1 tree.size) = tree.size :=
    Bytes.ofLittleBytes_littleBytes (Nat.lt_succ_of_le ht)
  have hv : Bytes.ofBigBytes (Bytes.bigBytes 8 version.toNat) = version.toNat :=
    Bytes.ofBigBytes_bigBytes version.toNat_lt
  have e8 := Bytes.split?_append (Bytes.bigBytes 8 version.toNat)
    (Bytes.littleBytes 1 tree.size ++ (tree ++ stored.bytes))
  have e1 := Bytes.split?_append (Bytes.littleBytes 1 tree.size) (tree ++ stored.bytes)
  rw [h8] at e8
  rw [h1] at e1
  have hp : Path.ofBytes? stored.bytes = some stored.toPath := by
    rw [← stored.bytes_toPath, Path.ofBytes?_bytes]
  simp only [encode, decode, e8, e1, hs, Bytes.split?_append, hv, TreePrefix.ofBytes?, ht, dif_pos,
    hp, UInt64.ofNat_toNat, Nat.toUInt64_eq, ofPath, StoredPath.ofPath_toPath]

theorem encode_of_decode {b : ByteArray} {k : NodeKey} (h : decode b = .ok k) : k.encode = b := by
  unfold decode at h
  split at h
  · simp at h
  rename_i version r hv
  split at h
  · simp at h
  rename_i size r' hs
  simp only at h
  split at h
  · simp at h
  rename_i tree path ht
  split at h
  · rename_i t p htree hpath
    cases h
    obtain ⟨rfl, h8⟩ := Bytes.split?_eq_some hv
    obtain ⟨rfl, h1⟩ := Bytes.split?_eq_some hs
    obtain ⟨rfl, hn⟩ := Bytes.split?_eq_some ht
    have hbytes : t.bytes = tree := TreePrefix.bytes_of_ofBytes? htree
    have hlt := Bytes.ofBigBytes_lt version
    rw [h8] at hlt
    have hnat : (Bytes.ofBigBytes version).toUInt64.toNat = Bytes.ofBigBytes version :=
      UInt64.toNat_ofNat_of_lt' hlt
    have e8 := Bytes.bigBytes_ofBigBytes version
    have e1 := Bytes.littleBytes_ofLittleBytes size
    rw [h8] at e8
    rw [h1] at e1
    rw [encode]
    simp only [ofPath, StoredPath.ofPath, hnat, e8, hbytes, hn, e1, Path.bytes_of_ofBytes? hpath]
  · simp at h
  · simp at h

end VersionedTrie.NodeKey
