import VersionedTrie.NodeKey.Layout

/-! # Store keys in order

Byte by byte, store keys are ordered as their node keys are (`compare_encode`): the version begins
with its most significant byte, the size of the prefix comes before the prefix, and the path runs to
the end, so two fields of different sizes meet only where the order is settled already. A byte string
is a store key exactly if it is `Legible`, and reading one never looks beyond its end
(`decodeIndexed_eq`).
-/

set_option autoImplicit false

namespace VersionedTrie

/-! ## Comparing byte by byte -/

namespace Bytes

theorem compare_div_mod (m n : Nat) :
    (Ord.compare (m / 256) (n / 256)).then (Ord.compare (m % 256) (n % 256)) =
      Ord.compare m n := by
  rcases Nat.lt_trichotomy (m / 256) (n / 256) with h | h | h
  · have hlt : m < n := by omega
    rw [Nat.compare_eq_lt.mpr h, Nat.compare_eq_lt.mpr hlt]
    rfl
  · rw [Nat.compare_eq_eq.mpr h, Ordering.eq_then]
    rcases Nat.lt_trichotomy (m % 256) (n % 256) with h' | h' | h'
    · have hlt : m < n := by omega
      rw [Nat.compare_eq_lt.mpr h', Nat.compare_eq_lt.mpr hlt]
    · have heq : m = n := by omega
      rw [Nat.compare_eq_eq.mpr h', Nat.compare_eq_eq.mpr heq]
    · have hgt : n < m := by omega
      rw [Nat.compare_eq_gt.mpr h', Nat.compare_eq_gt.mpr hgt]
  · have hgt : n < m := by omega
    rw [Nat.compare_eq_gt.mpr h, Nat.compare_eq_gt.mpr hgt]
    rfl

/-- Numbers written with their most significant byte first are ordered as numbers. -/
theorem compare_reverse_little {width m n : Nat} (hm : m < span width) (hn : n < span width) :
    Ord.compare (little width m).reverse (little width n).reverse = Ord.compare m n := by
  induction width generalizing m n with
  | zero =>
    rw [Nat.lt_one_iff.mp hm, Nat.lt_one_iff.mp hn]
    rfl
  | succ width ih =>
    have hlength : (little width (m / 256)).reverse.length =
        (little width (n / 256)).reverse.length := by
      simp
    have hlast : Ord.compare [m.toUInt8] [n.toUInt8] = Ord.compare (m % 256) (n % 256) := by
      rw [List.compare_cons_cons, ← compare_toNat]
      exact Ordering.then_eq
    rw [little, little, List.reverse_cons, List.reverse_cons, compare_append hlength,
      ih (Nat.div_lt_of_lt_mul hm) (Nat.div_lt_of_lt_mul hn), hlast, compare_div_mod]

end Bytes

namespace NodeKey

theorem toList_encode (k : NodeKey) :
    k.encode.data.toList = (Bytes.little 8 k.version.toNat).reverse ++
      ((Bytes.little 1 k.tree.bytes.size).reverse ++
        (k.tree.bytes.data.toList ++ k.stored.bytes.data.toList)) := by
  simp [encode, Bytes.bigBytes, Bytes.littleBytes, Bytes.little]

theorem compare_encode (a b : NodeKey) :
    compare a.encode.data.toList b.encode.data.toList = compare a b := by
  have hversion : compare a.version b.version = compare a.version.toNat b.version.toNat := by
    simp only [compare, compareOfLessAndEq, UInt64.lt_iff_toNat_lt, ← UInt64.toNat_inj]
  have hsize (k : NodeKey) : k.tree.bytes.size < Bytes.span 1 := Nat.lt_succ_of_le k.tree.size_le
  have horder : compare a b = (compare a.version b.version).then
      ((compare a.tree.bytes.size b.tree.bytes.size).then
        ((compare a.tree.bytes b.tree.bytes).then (compare a.stored.bytes b.stored.bytes))) := rfl
  rw [toList_encode, toList_encode, Bytes.compare_append (by simp),
    Bytes.compare_append (by simp),
    Bytes.compare_reverse_little a.version.toNat_lt b.version.toNat_lt,
    Bytes.compare_reverse_little (hsize a) (hsize b), horder, hversion, Bytes.ord_compare_eq,
    Bytes.ord_compare_eq]
  congr 1
  -- the prefixes are compared only if their sizes are equal, so the paths begin at one place
  cases hc : compare a.tree.bytes.size b.tree.bytes.size with
  | lt => rfl
  | gt => rfl
  | eq =>
    rw [Ordering.eq_then, Ordering.eq_then, Bytes.compare_append]
    exact Nat.compare_eq_eq.mp hc

/-! ## What is read -/

/-- What a byte string must be to be a store key: it has at least nine bytes, the ninth announces no
more bytes of a prefix than follow, and those after the prefix are nibbles. -/
def Legible (x : ByteArray) : Prop :=
  ∃ h : 8 < x.size, 9 + x[8].toNat ≤ x.size ∧
    ∀ u ∈ x.data.toList.drop (9 + x[8].toNat), u.toNat < 16

/-- Reading with every cut and every index on its own: `none` as soon as one of them lies beyond the
end of what it is applied to. -/
def decodeIndexed (x : ByteArray) : Option (Except NodeDefect NodeKey) :=
  if x.size < 9 then some (.error (.keyTooShort x.size))
  else do
    let (version, rest) ← Bytes.split? x 8
    let length ← rest.data[0]?
    let (_, rest) ← Bytes.split? rest 1
    if rest.size < length.toNat then
      some (.error (.prefixOverruns length.toNat rest.size))
    else
      let (tree, path) ← Bytes.split? rest length.toNat
      let tree ← TreePrefix.ofBytes? tree
      match Path.ofBytes? path with
      | none => some (.error .keyNotNibbles)
      | some path => some (.ok (ofPath (Bytes.ofBigBytes version).toUInt64 tree path))

theorem decode_short {x : ByteArray} (h : x.size < 9) :
    decode x = .error (.keyTooShort x.size) := by
  unfold decode
  split
  · rfl
  · next version rest hcut =>
    obtain ⟨rfl, hversion⟩ := Bytes.split?_eq_some hcut
    have hrest : ¬ 1 ≤ rest.size := by
      rw [ByteArray.size_append] at h
      omega
    have hnone : Bytes.split? rest 1 = none := if_neg hrest
    rw [hnone]

theorem exists_fields {x : ByteArray} (h : 8 < x.size) :
    ∃ version rest, x = version ++ ([x[8]].toByteArray ++ rest) ∧ version.size = 8 := by
  have hat : Bytes.at0 x 8 = x[8] := dif_pos h
  refine ⟨(x.data.toList.take 8).toByteArray, (x.data.toList.drop 9).toByteArray,
    ByteArray.ext (Array.toList_inj.mp ?_), ?_⟩
  · simp [← hat, ← Bytes.drop_eq_cons x h]
  · simp
    omega

/-- No cut and no index misses, and no prefix that is read is longer than prefixes may be. -/
theorem decodeIndexed_eq (x : ByteArray) : decodeIndexed x = some (decode x) := by
  unfold decodeIndexed
  split
  · next hshort => rw [decode_short hshort]
  · next hlong =>
    obtain ⟨version, rest, hx, hversion⟩ := exists_fields (x := x) (by omega)
    generalize x[8] = u at hx
    subst hx
    have h8 := Bytes.split?_append version ([u].toByteArray ++ rest)
    rw [hversion] at h8
    have h1 : Bytes.split? ([u].toByteArray ++ rest) 1 = some ([u].toByteArray, rest) :=
      Bytes.split?_append [u].toByteArray rest
    have hfirst : ([u].toByteArray ++ rest).data[0]? = some u := by
      rw [ByteArray.data_append, Array.getElem?_append_left (by simp)]
      simp
    have hlength : Bytes.ofLittleBytes [u].toByteArray = u.toNat := by
      simp [Bytes.ofLittleBytes, Bytes.ofLittle]
    simp only [decode, h8, h1, hfirst, hlength, Option.bind_eq_bind, Option.bind_some]
    by_cases hover : rest.size < u.toNat
    · have hcut : Bytes.split? rest u.toNat = none := if_neg (by omega)
      rw [if_pos hover, hcut]
    · have hcut : Bytes.split? rest u.toNat =
          some (rest.extract 0 u.toNat, rest.extract u.toNat rest.size) := if_pos (by omega)
      have hu := u.toNat_lt
      have htree : TreePrefix.ofBytes? (rest.extract 0 u.toNat) =
          some ⟨rest.extract 0 u.toNat, by simp; omega⟩ := dif_pos _
      simp only [if_neg hover, hcut, htree, Option.bind_some]
      cases Path.ofBytes? (rest.extract u.toNat rest.size) <;> rfl

section Fields

variable {version tree path : ByteArray} {u : UInt8}

theorem exists_encode_eq (hversion : version.size = 8) (htree : tree.size = u.toNat)
    (hpath : ∃ p : Path, p.bytes = path) :
    ∃ k : NodeKey, k.encode = version ++ ([u].toByteArray ++ (tree ++ path)) := by
  have hlt := Bytes.ofBigBytes_lt version
  rw [hversion] at hlt
  have hnat : (Bytes.ofBigBytes version).toUInt64.toNat = Bytes.ofBigBytes version :=
    UInt64.toNat_ofNat_of_lt' hlt
  have hbig := Bytes.bigBytes_ofBigBytes version
  rw [hversion] at hbig
  have hsize : Bytes.littleBytes 1 tree.size = [u].toByteArray := by
    rw [htree, Bytes.littleBytes, Bytes.little, Bytes.little]
    simp
  have hle : tree.size ≤ 255 := by
    have := u.toNat_lt
    omega
  refine ⟨⟨(Bytes.ofBigBytes version).toUInt64, ⟨tree, hle⟩, ⟨path, hpath⟩⟩, ?_⟩
  rw [encode, hnat, hbig, hsize]

theorem drop_fields (hversion : version.size = 8) (htree : tree.size = u.toNat) :
    (version ++ ([u].toByteArray ++ (tree ++ path))).data.toList.drop (9 + u.toNat) =
      path.data.toList := by
  have hlist : (version ++ ([u].toByteArray ++ (tree ++ path))).data.toList =
      (version.data.toList ++ u :: tree.data.toList) ++ path.data.toList := by simp
  rw [hlist, List.drop_left']
  simp [hversion, htree]
  omega

theorem legible_iff {x : ByteArray} : Legible x ↔ ∃ k : NodeKey, k.encode = x := by
  constructor
  · rintro ⟨h, hprefix, hpath⟩
    obtain ⟨version, rest, hx, hversion⟩ := exists_fields h
    generalize x[8] = u at hx hprefix hpath
    subst hx
    have hrest : u.toNat ≤ rest.size := by
      simp only [ByteArray.size_append, List.size_toByteArray, List.length_singleton, hversion]
        at hprefix
      omega
    obtain ⟨hcut, htree⟩ := Bytes.split?_eq_some (if_pos hrest)
    rw [hcut] at hpath ⊢
    rw [drop_fields hversion htree] at hpath
    exact exists_encode_eq hversion htree (Path.exists_bytes_eq.mpr hpath)
  · rintro ⟨k, rfl⟩
    have hversion : (Bytes.bigBytes 8 k.version.toNat).size = 8 := Bytes.size_bigBytes ..
    have hu : k.tree.bytes.size.toUInt8.toNat = k.tree.bytes.size :=
      UInt8.toNat_ofNat_of_lt' (Nat.lt_succ_of_le k.tree.size_le)
    have hencode : k.encode = Bytes.bigBytes 8 k.version.toNat ++
        ([k.tree.bytes.size.toUInt8].toByteArray ++ (k.tree.bytes ++ k.stored.bytes)) := rfl
    have hsize : k.encode.size = 9 + k.tree.bytes.size + k.stored.bytes.size := by
      simp only [hencode, ByteArray.size_append, List.size_toByteArray, List.length_singleton,
        hversion]
      omega
    have hlong : 8 < k.encode.size := by omega
    have hninth : k.encode[8] = k.tree.bytes.size.toUInt8 := by
      have hat : Bytes.at0 k.encode 8 = k.encode[8] := dif_pos hlong
      rw [← hat]
      exact Bytes.at0_of_eq (by rw [hencode, ByteArray.append_assoc]) hversion
    refine ⟨hlong, ?_, ?_⟩
    · rw [hninth, hu]
      omega
    · rw [hninth, hencode, drop_fields hversion hu.symm]
      exact Path.exists_bytes_eq.mp k.stored.isStored

end Fields

/-- Writing node keys is an isomorphism of orders onto the legible byte strings: node keys compare as
what is written of them does byte by byte, and that totally; reading gives back what was written,
only what was written is read, and nothing is looked for beyond the end. -/
theorem encode_orderIso :
    (∀ a b : NodeKey,
      compare a.encode.data.toList b.encode.data.toList = compare a b ∧
      (a.encode = b.encode → a = b) ∧ (compare a b = .eq ↔ a = b) ∧
      compare b a = (compare a b).swap ∧
      ∀ c, (compare a b).isLE → (compare b c).isLE → (compare a c).isLE) ∧
    (∀ k : NodeKey, decode k.encode = .ok k) ∧
    ∀ x : ByteArray,
      (∀ k, decode x = .ok k → k.encode = x) ∧ ((∃ k, decode x = .ok k) ↔ Legible x) ∧
      decodeIndexed x = some (decode x) := by
  refine ⟨fun a b => ⟨compare_encode a b, fun h => ?_, order_eq_iff, Std.OrientedCmp.eq_swap,
    fun c => Std.TransCmp.isLE_trans⟩, decode_encode, fun x => ⟨fun k => encode_of_decode, ?_,
    decodeIndexed_eq x⟩⟩
  · have hread := decode_encode a
    rw [h, decode_encode] at hread
    exact (Except.ok.inj hread).symm
  · rw [legible_iff]
    constructor
    · rintro ⟨k, hk⟩
      exact ⟨k, encode_of_decode hk⟩
    · rintro ⟨k, rfl⟩
      exact ⟨k, decode_encode k⟩

/-- In the first store key the path begins where the second one still has its prefix, and with a
greater byte; the third byte string announces a prefix of four bytes and has one. -/
theorem encode_orderIso_overlapping :
    let a := ofPath 1 ⟨[7].toByteArray, by decide⟩ [15, 0]
    let b := ofPath 1 ⟨[7, 1].toByteArray, by decide⟩ [0]
    let overrun := [0, 0, 0, 0, 0, 0, 0, 0, 4, 1].toByteArray
    compare a.encode.data.toList b.encode.data.toList = .lt ∧ decode b.encode = .ok b ∧
      ¬ Legible overrun ∧ ¬ ∃ k, decode overrun = .ok k := by
  obtain ⟨hcompare, hread, hexact⟩ := encode_orderIso
  have hoverrun : ¬ Legible [0, 0, 0, 0, 0, 0, 0, 0, 4, 1].toByteArray := by
    rintro ⟨_, hprefix, -⟩
    change 9 + 4 ≤ 10 at hprefix
    omega
  exact ⟨(hcompare _ _).1.trans (by decide +kernel), hread _, hoverrun,
    (not_congr (hexact _).2.1).mpr hoverrun⟩

end NodeKey

end VersionedTrie
