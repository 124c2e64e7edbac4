import VersionedTrie.Bytes.Basic
import Std.Data.ExtTreeMap

/-! # The order of byte strings

Byte strings are ordered by their first differing byte, and a proper first part comes before the
whole. The comparison goes byte by byte at first, then over equal blocks of ever smaller size, so
that long common parts cost little. `compare_eq` says that it is the
lexicographic order of the lists of bytes, from which the laws needed of a map's keys follow.
-/

set_option autoImplicit false

namespace VersionedTrie

namespace Bytes

/-- The first of the next `n` positions from `i` on at which the strings differ, or the position
after them. -/
def passBytes (a b : ByteArray) : Nat → Nat → Nat
  | 0, i => i
  | n + 1, i => if at0 a i = at0 b i then passBytes a b n (i + 1) else i

/-- A position from `i` on up to which the strings agree, found by passing equal blocks whose sizes
are falling powers of two. -/
def passBlocks (a b : ByteArray) : Nat → Nat → Nat
  | 0, i => i
  | k + 1, i =>
    let j := i + 1 <<< k
    if j ≤ min a.size b.size ∧ a.extract i j = b.extract i j then passBlocks a b k j
    else passBlocks a b k i

/-- Compares the next `n` bytes from position `i`, then the sizes. -/
def compareFrom (a b : ByteArray) : Nat → Nat → Ordering
  | 0, _ => Ord.compare a.size b.size
  | n + 1, i =>
    match Ord.compare (at0 a i) (at0 b i) with
    | .eq => compareFrom a b n (i + 1)
    | o => o

/-- A position from `i` on up to which the strings agree: the end of the shorter one, if there is
nothing else to tell them apart. -/
def passRest (a b : ByteArray) (i : Nat) : Nat :=
  let n := min a.size b.size
  if i ≤ n ∧ a.extract i n = b.extract i n then n else passBlocks a b (Nat.log2 n + 1) i

/-- How many bytes are compared one by one before longer parts are. -/
def singly : Nat := 32

def compare (a b : ByteArray) : Ordering :=
  let n := min a.size b.size
  let i := passBytes a b (min n singly) 0
  let i := if i < singly then i else passRest a b i
  compareFrom a b (n - i) i

theorem compare_toNat (a b : UInt8) : Ord.compare a.toNat b.toNat = Ord.compare a b := by
  simp only [Ord.compare, compareOfLessAndEq, UInt8.lt_iff_toNat_lt, ← UInt8.toNat_inj]

private theorem drop_size (a : ByteArray) {i : Nat} (h : a.size ≤ i) :
    a.data.toList.drop i = [] :=
  List.drop_eq_nil_of_le (by simpa using h)

private theorem compareFrom_eq (a b : ByteArray) (n i : Nat) (h : n + i = min a.size b.size) :
    compareFrom a b n i = Ord.compare (a.data.toList.drop i) (b.data.toList.drop i) := by
  induction n generalizing i with
  | zero =>
    rcases Nat.lt_trichotomy a.size b.size with hlt | heq | hgt
    · rw [drop_size a (by omega), drop_eq_cons b (by omega), List.compare_nil_cons]
      exact Nat.compare_eq_lt.mpr hlt
    · rw [drop_size a (by omega), drop_size b (by omega), List.compare_nil_nil]
      exact Nat.compare_eq_eq.mpr heq
    · rw [drop_eq_cons a (by omega), drop_size b (by omega), List.compare_cons_nil]
      exact Nat.compare_eq_gt.mpr hgt
  | succ n ih =>
    rw [compareFrom, drop_eq_cons a (by omega), drop_eq_cons b (by omega), List.compare_cons_cons,
      ih (i + 1) (by omega)]
    cases Ord.compare (at0 a i) (at0 b i) <;> rfl

/-- Two positions of which the second is reached from the first over equal bytes. -/
private structure Agree (a b : ByteArray) (i j : Nat) : Prop where
  le : i ≤ j
  inside : i ≤ min a.size b.size → j ≤ min a.size b.size
  compare_drop : i ≤ min a.size b.size →
    Ord.compare (a.data.toList.drop j) (b.data.toList.drop j) =
      Ord.compare (a.data.toList.drop i) (b.data.toList.drop i)

private theorem Agree.refl (a b : ByteArray) (i : Nat) : Agree a b i i :=
  ⟨Nat.le_refl i, id, fun _ => rfl⟩

private theorem Agree.trans {a b : ByteArray} {i j k : Nat} (h : Agree a b i j)
    (h' : Agree a b j k) : Agree a b i k :=
  ⟨Nat.le_trans h.le h'.le, fun hi => h'.inside (h.inside hi),
    fun hi => (h'.compare_drop (h.inside hi)).trans (h.compare_drop hi)⟩

/-- Where the first parts have one length, the second parts count only if the first are equal. -/
theorem compare_append {x y u v : List UInt8} (h : x.length = y.length) :
    Ord.compare (x ++ u) (y ++ v) = (Ord.compare x y).then (Ord.compare u v) := by
  induction x generalizing y with
  | nil =>
    obtain rfl := List.length_eq_zero_iff.mp h.symm
    rfl
  | cons c x ih =>
    cases y with
    | nil => cases h
    | cons d y =>
      rw [List.cons_append, List.cons_append, List.compare_cons_cons, List.compare_cons_cons,
        ih (Nat.succ.inj h), Ordering.then_assoc]

private theorem compare_append_left (x u v : List UInt8) :
    Ord.compare (x ++ u) (x ++ v) = Ord.compare u v := by
  have hx : Ord.compare x x = .eq := Std.ReflCmp.compare_self
  rw [compare_append rfl, hx, Ordering.eq_then]

private theorem drop_eq_extract_append (a : ByteArray) {i j : Nat} (hij : i ≤ j) :
    a.data.toList.drop i = (a.extract i j).data.toList ++ a.data.toList.drop j := by
  have hx : (a.extract i j).data.toList = (a.data.toList.drop i).take (j - i) := by
    simp [ByteArray.data_extract, Array.toList_extract, List.extract_eq_take_drop]
  have hd : (a.data.toList.drop i).drop (j - i) = a.data.toList.drop j := by
    rw [List.drop_drop]
    congr 1
    omega
  rw [hx, ← hd, List.take_append_drop]

private theorem agree_passBytes (a b : ByteArray) (n i : Nat) (h : n + i ≤ min a.size b.size) :
    Agree a b i (passBytes a b n i) := by
  induction n generalizing i with
  | zero => exact .refl a b i
  | succ n ih =>
    rw [passBytes]
    split
    · next heq =>
      refine Agree.trans ⟨Nat.le_succ i, fun _ => by omega, fun _ => ?_⟩ (ih (i + 1) (by omega))
      have hc : Ord.compare (at0 b i) (at0 b i) = .eq := Std.ReflCmp.compare_self
      rw [drop_eq_cons a (by omega : i < a.size), drop_eq_cons b (by omega : i < b.size), heq,
        List.compare_cons_cons, hc]
      rfl
    · exact .refl a b i

private theorem agree_passBlocks (a b : ByteArray) (k i : Nat) :
    Agree a b i (passBlocks a b k i) := by
  induction k generalizing i with
  | zero => exact .refl a b i
  | succ k ih =>
    rw [passBlocks]
    split
    · next h =>
      refine Agree.trans ⟨Nat.le_add_right i _, fun _ => h.1, fun _ => ?_⟩ (ih (i + 1 <<< k))
      rw [drop_eq_extract_append a (Nat.le_add_right i (1 <<< k)),
        drop_eq_extract_append b (Nat.le_add_right i (1 <<< k)), h.2, compare_append_left]
    · exact ih i

private theorem agree_passRest (a b : ByteArray) (i : Nat) : Agree a b i (passRest a b i) := by
  unfold passRest
  simp only
  split
  · next h =>
    refine ⟨h.1, fun _ => Nat.le_refl _, fun _ => ?_⟩
    rw [drop_eq_extract_append a h.1, drop_eq_extract_append b h.1, h.2, compare_append_left]
  · exact agree_passBlocks a b _ i

theorem compare_eq (a b : ByteArray) :
    compare a b = Ord.compare a.data.toList b.data.toList := by
  have key : ∀ i, Agree a b 0 i →
      compareFrom a b (min a.size b.size - i) i = Ord.compare a.data.toList b.data.toList := by
    intro i h
    have hi := h.inside (Nat.zero_le _)
    rw [compareFrom_eq a b _ i (by omega), h.compare_drop (Nat.zero_le _), List.drop_zero,
      List.drop_zero]
  have hb := agree_passBytes a b (min (min a.size b.size) singly) 0 (by omega)
  unfold compare
  simp only
  split
  · exact key _ hb
  · exact key _ (hb.trans (agree_passRest a b _))

end Bytes

instance instOrdBytes : Ord ByteArray := ⟨Bytes.compare⟩

theorem Bytes.ord_compare_eq (a b : ByteArray) :
    Ord.compare a b = Ord.compare a.data.toList b.data.toList :=
  Bytes.compare_eq a b

instance instTransOrdBytes : Std.TransOrd ByteArray where
  eq_swap {a b} := by
    rw [Bytes.ord_compare_eq, Bytes.ord_compare_eq]
    exact Std.OrientedCmp.eq_swap
  isLE_trans {a b c} hab hbc := by
    rw [Bytes.ord_compare_eq] at *
    exact Std.TransCmp.isLE_trans hab hbc

instance instLawfulEqOrdBytes : Std.LawfulEqOrd ByteArray where
  compare_self {a} := by
    rw [Bytes.ord_compare_eq]
    exact Std.ReflCmp.compare_self
  eq_of_compare {a b} h := by
    rw [Bytes.ord_compare_eq] at h
    exact ByteArray.ext (Array.toList_inj.mp (Std.LawfulEqCmp.eq_of_compare h))

abbrev ByteMap (α : Type) := Std.ExtTreeMap ByteArray α

end VersionedTrie
