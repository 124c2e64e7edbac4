/-! # Byte strings

Keys, values, encodings and file contents are `ByteArray`s, read through the list of their bytes.
This module holds what the rest of the library needs of them: cutting off a first part
(`Bytes.split?`), a byte at a position with zeros beyond the end, and fixed-width
numbers in both byte orders. The main statements are that `split?` undoes appending
(`split?_append`) and that a number below `span width` is read back from its bytes
(`ofLittle_little`).
-/

set_option autoImplicit false

namespace VersionedTrie

/-- Equality of byte strings is decided byte by byte. -/
instance instDecidableEqBytes : DecidableEq ByteArray := ByteArray.decEq

namespace Bytes

/-! ## Parts -/

def split? (b : ByteArray) (n : Nat) : Option (ByteArray × ByteArray) :=
  if n ≤ b.size then some (b.extract 0 n, b.extract n b.size) else none

theorem split?_append (a r : ByteArray) : split? (a ++ r) a.size = some (a, r) := by
  have hl : (a ++ r).extract 0 a.size = a := ByteArray.extract_append_eq_left rfl
  have hr : (a ++ r).extract a.size (a ++ r).size = r :=
    ByteArray.extract_append_eq_right rfl (by simp)
  have hs : a.size ≤ (a ++ r).size := by simp
  rw [split?, if_pos hs, hl, hr]

theorem split?_eq_some {b a r : ByteArray} {n : Nat} (h : split? b n = some (a, r)) :
    b = a ++ r ∧ a.size = n := by
  unfold split? at h
  split at h
  · rename_i hn
    simp only [Option.some.injEq, Prod.mk.injEq] at h
    obtain ⟨rfl, rfl⟩ := h
    refine ⟨?_, by simp; omega⟩
    have h0 : b.extract 0 b.size = b := ByteArray.extract_zero_size
    rw [← ByteArray.extract_eq_extract_append_extract n (Nat.zero_le n) hn, h0]
  · simp at h

theorem extract_of_eq {b a x c : ByteArray} {i j : Nat} (h : b = a ++ x ++ c) (hi : a.size = i)
    (hj : i + x.size = j) : b.extract i j = x := by
  subst h hi hj
  have hx : (a ++ x ++ c).extract (a.size + 0) (a.size + x.size) = (x ++ c).extract 0 x.size := by
    rw [ByteArray.append_assoc, ByteArray.extract_append_size_add]
  rw [Nat.add_zero] at hx
  rw [hx, ByteArray.extract_append_eq_left rfl]

theorem extract_append_of_le {a c : ByteArray} {i j : Nat} (h : j ≤ a.size) :
    (a ++ c).extract i j = a.extract i j := by
  have hc : c.extract (i - a.size) 0 = ByteArray.empty :=
    ByteArray.extract_eq_empty_iff.mpr (by omega)
  rw [ByteArray.extract_append, Nat.sub_eq_zero_of_le h, hc, ByteArray.append_empty]

theorem extract_append_of_ge {a c : ByteArray} {j : Nat} (h : a.size ≤ j) :
    (a ++ c).extract 0 j = a ++ c.extract 0 (j - a.size) := by
  have ha : a.extract 0 (max j a.size) = a := ByteArray.extract_zero_max_size
  rw [Nat.max_eq_left h] at ha
  rw [ByteArray.extract_append, ha, Nat.zero_sub]

/-- The byte at position `i`, or zero beyond the end. -/
@[inline] def at0 (b : ByteArray) (i : Nat) : UInt8 :=
  if h : i < b.size then b[i] else 0

theorem at0_of_eq {b a c : ByteArray} {u : UInt8} {i : Nat}
    (h : b = a ++ [u].toByteArray ++ c) (hi : a.size = i) : at0 b i = u := by
  subst h hi
  have hu : a.size < (a ++ [u].toByteArray ++ c).size := by simp; omega
  rw [at0, dif_pos hu, ByteArray.getElem_append_left (by simp),
    ByteArray.getElem_append_right (by simp)]
  simp

theorem drop_eq_cons (b : ByteArray) {i : Nat} (h : i < b.size) :
    b.data.toList.drop i = at0 b i :: b.data.toList.drop (i + 1) := by
  have hi : i < b.data.toList.length := by simpa using h
  rw [List.drop_eq_getElem_cons hi]
  simp [at0, h, ByteArray.getElem_eq_getElem_data]

theorem take_eq_append (b : ByteArray) {i : Nat} (h : i < b.size) :
    b.data.toList.take (i + 1) = b.data.toList.take i ++ [at0 b i] := by
  have hi : i < b.data.toList.length := by simpa using h
  rw [List.take_add_one, List.getElem?_eq_getElem hi]
  simp [at0, h, ByteArray.getElem_eq_getElem_data]

/-! ## Numbers of a fixed width -/

/-- The `width` lowest bytes of `n`, least significant first. -/
def little : Nat → Nat → List UInt8
  | 0, _ => []
  | width + 1, n => n.toUInt8 :: little width (n / 256)

/-- The number of byte strings of a width. -/
def span : Nat → Nat
  | 0 => 1
  | width + 1 => 256 * span width

/-- The number whose bytes are given, least significant first. -/
def ofLittle : List UInt8 → Nat
  | [] => 0
  | b :: r => b.toNat + 256 * ofLittle r

@[simp] theorem length_little (width n : Nat) : (little width n).length = width := by
  induction width generalizing n with
  | zero => rfl
  | succ width ih => simp [little, ih]

theorem ofLittle_little_mod (width n : Nat) : ofLittle (little width n) = n % span width := by
  induction width generalizing n with
  | zero => simp [little, ofLittle, span, Nat.mod_one]
  | succ width ih =>
    have hb : n.toUInt8.toNat = n % 256 := rfl
    simp only [little, ofLittle, ih, hb]
    rw [span, Nat.mod_mul]

theorem ofLittle_little {width n : Nat} (h : n < span width) :
    ofLittle (little width n) = n := by
  rw [ofLittle_little_mod, Nat.mod_eq_of_lt h]

theorem ofLittle_lt (bs : List UInt8) : ofLittle bs < span bs.length := by
  induction bs with
  | nil => simp [ofLittle, span]
  | cons b r ih =>
    have hb := b.toNat_lt
    simp only [ofLittle, List.length_cons, span]
    omega

theorem little_ofLittle (bs : List UInt8) : little bs.length (ofLittle bs) = bs := by
  induction bs with
  | nil => rfl
  | cons b r ih =>
    have hb := b.toNat_lt
    have hd : (b.toNat + 256 * ofLittle r) / 256 = ofLittle r := by omega
    have hm : (b.toNat + 256 * ofLittle r).toUInt8 = b := by
      apply UInt8.toNat_inj.mp
      change (b.toNat + 256 * ofLittle r) % 256 = b.toNat
      omega
    simp only [List.length_cons, ofLittle, little, hd, hm, ih]

def littleBytes (width n : Nat) : ByteArray :=
  (little width n).toByteArray

def bigBytes (width n : Nat) : ByteArray :=
  (little width n).reverse.toByteArray

def ofLittleBytes (b : ByteArray) : Nat :=
  ofLittle b.data.toList

def ofBigBytes (b : ByteArray) : Nat :=
  ofLittle b.data.toList.reverse

@[simp] theorem size_littleBytes (width n : Nat) : (littleBytes width n).size = width := by
  simp [littleBytes]

@[simp] theorem size_bigBytes (width n : Nat) : (bigBytes width n).size = width := by
  simp [bigBytes]

theorem ofLittleBytes_littleBytes_mod (width n : Nat) :
    ofLittleBytes (littleBytes width n) = n % span width := by
  simp [ofLittleBytes, littleBytes, ofLittle_little_mod]

theorem ofLittleBytes_littleBytes {width n : Nat} (h : n < span width) :
    ofLittleBytes (littleBytes width n) = n := by
  rw [ofLittleBytes_littleBytes_mod, Nat.mod_eq_of_lt h]

theorem ofBigBytes_bigBytes {width n : Nat} (h : n < span width) :
    ofBigBytes (bigBytes width n) = n := by
  simp [ofBigBytes, bigBytes, ofLittle_little h]

theorem ofLittleBytes_lt (b : ByteArray) : ofLittleBytes b < span b.size := by
  simpa [ofLittleBytes] using ofLittle_lt b.data.toList

theorem ofBigBytes_lt (b : ByteArray) : ofBigBytes b < span b.size := by
  simpa [ofBigBytes] using ofLittle_lt b.data.toList.reverse

theorem littleBytes_ofLittleBytes (b : ByteArray) : littleBytes b.size (ofLittleBytes b) = b := by
  have h := little_ofLittle b.data.toList
  simp only [Array.length_toList, ByteArray.size_data] at h
  exact ByteArray.ext (by simp [littleBytes, ofLittleBytes, h])

theorem bigBytes_ofBigBytes (b : ByteArray) : bigBytes b.size (ofBigBytes b) = b := by
  have h := little_ofLittle b.data.toList.reverse
  simp only [List.length_reverse, Array.length_toList, ByteArray.size_data] at h
  exact ByteArray.ext (by simp [bigBytes, ofBigBytes, h])

end Bytes

end VersionedTrie
