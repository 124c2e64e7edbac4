import VersionedTrie.Bytes.Order

/-! # Nibble paths

A trie branches on half bytes, so a key is walked as the path of its nibbles, high half of each byte
first. Stored form has one byte per nibble. The main statements: packing a key's path gives the key
back (`toKey?_ofKey`), the stored form reads back (`ofBytes?_bytes`), is read from nothing else
(`bytes_of_ofBytes?`) and is any byte string of nibbles (`exists_bytes_eq`), and the common first
part of two paths is where they agree (`take_commonLength`).
-/

set_option autoImplicit false

namespace VersionedTrie

abbrev Nibble := Fin 16

abbrev Path := List Nibble

namespace Nibble

/-- The nibble with the number of a byte, if that is below sixteen. -/
def ofByte? (b : UInt8) : Option Nibble :=
  if h : b.toNat < 16 then some ⟨b.toNat, h⟩ else none

def byte (n : Nibble) : UInt8 := n.val.toUInt8

def high (b : UInt8) : Nibble := ⟨b.toNat / 16, by have := b.toNat_lt; omega⟩

def low (b : UInt8) : Nibble := ⟨b.toNat % 16, by omega⟩

def join (h l : Nibble) : UInt8 := (16 * h.val + l.val).toUInt8

def digit (n : Nibble) : Char := Nat.digitChar n.val

theorem toNat_byte (n : Nibble) : n.byte.toNat = n.val := by
  change n.val % 256 = n.val
  omega

@[simp] theorem ofByte?_byte (n : Nibble) : ofByte? n.byte = some n := by
  have h : n.byte.toNat < 16 := by rw [toNat_byte]; exact n.isLt
  simp only [ofByte?, h, dif_pos, Option.some.injEq]
  exact Fin.ext (toNat_byte n)

theorem byte_of_ofByte? {b : UInt8} {n : Nibble} (h : ofByte? b = some n) : n.byte = b := by
  unfold ofByte? at h
  split at h
  · cases h
    apply UInt8.toNat_inj.mp
    rw [toNat_byte]
  · simp at h

theorem join_high_low (b : UInt8) : join (high b) (low b) = b := by
  have := b.toNat_lt
  apply UInt8.toNat_inj.mp
  change (16 * (b.toNat / 16) + b.toNat % 16) % 256 = b.toNat
  omega

end Nibble

namespace Path

/-! ## Keys as paths -/

def ofKey (key : ByteArray) : Path :=
  key.data.toList.flatMap fun b => [Nibble.high b, Nibble.low b]

/-- Joins the nibbles in pairs, if none is left over. -/
def pack? : Path → Option (List UInt8)
  | [] => some []
  | [_] => none
  | h :: l :: r => (pack? r).map (Nibble.join h l :: ·)

def toKey? (p : Path) : Option ByteArray :=
  (pack? p).map List.toByteArray

theorem toKey?_ofKey (key : ByteArray) : toKey? (ofKey key) = some key := by
  have h : ∀ bs : List UInt8,
      pack? (bs.flatMap fun b => [Nibble.high b, Nibble.low b]) = some bs := by
    intro bs
    induction bs with
    | nil => rfl
    | cons b r ih =>
      simp only [List.flatMap_cons, List.cons_append, List.nil_append, pack?, ih, Option.map_some,
        Nibble.join_high_low]
  simp only [toKey?, ofKey, h, Option.map_some, Option.some.injEq]
  exact ByteArray.ext (by simp)

theorem ofKey_injective {a b : ByteArray} (h : ofKey a = ofKey b) : a = b := by
  have := toKey?_ofKey a
  rw [h, toKey?_ofKey b] at this
  exact (Option.some.inj this).symm

/-! ## Stored form -/

def bytes (p : Path) : ByteArray :=
  (p.map Nibble.byte).toByteArray

/-- Reads the first `n` bytes, from the last to the first, in front of what is read already. -/
def readBack? (b : ByteArray) : Nat → Path → Option Path
  | 0, p => some p
  | n + 1, p =>
    match Nibble.ofByte? (Bytes.at0 b n) with
    | some x => readBack? b n (x :: p)
    | none => none

def ofBytes? (b : ByteArray) : Option Path := readBack? b b.size []

private theorem readBack?_eq (b : ByteArray) (n : Nat) (p : Path) (h : n ≤ b.size) :
    readBack? b n p = ((b.data.toList.take n).mapM Nibble.ofByte?).map (· ++ p) := by
  induction n generalizing p with
  | zero => simp [readBack?]
  | succ n ih =>
    rw [readBack?, Bytes.take_eq_append b h, List.mapM_append]
    cases hx : Nibble.ofByte? (Bytes.at0 b n) with
    | none => cases (b.data.toList.take n).mapM Nibble.ofByte? <;> simp [hx]
    | some x =>
      simp only
      rw [ih (x :: p) (by omega)]
      cases (b.data.toList.take n).mapM Nibble.ofByte? <;> simp [hx]

/-- A path is read exactly where every byte is a nibble. -/
theorem ofBytes?_eq_mapM (b : ByteArray) : ofBytes? b = b.data.toList.mapM Nibble.ofByte? := by
  have ht : b.data.toList.take b.size = b.data.toList := List.take_of_length_le (by simp)
  rw [ofBytes?, readBack?_eq b b.size [] (by omega), ht]
  simp

@[simp] theorem size_bytes (p : Path) : p.bytes.size = p.length := by
  simp [bytes]

theorem ofBytes?_bytes (p : Path) : ofBytes? p.bytes = some p := by
  simp only [ofBytes?_eq_mapM, bytes, List.data_toByteArray]
  induction p with
  | nil => rfl
  | cons n r ih => simp_all [List.mapM_cons]

theorem bytes_of_ofBytes? {b : ByteArray} {p : Path} (h : ofBytes? b = some p) : p.bytes = b := by
  have key : ∀ (bs : List UInt8) (p : Path),
      bs.mapM Nibble.ofByte? = some p → p.map Nibble.byte = bs := by
    intro bs
    induction bs with
    | nil => intro p hp; simp at hp; subst hp; rfl
    | cons b r ih =>
      intro p hp
      rw [List.mapM_cons] at hp
      obtain ⟨n, hn, hp⟩ := Option.bind_eq_some_iff.mp hp
      obtain ⟨q, hq, hp⟩ := Option.bind_eq_some_iff.mp hp
      cases hp
      simp [Nibble.byte_of_ofByte? hn, ih q hq]
  rw [ofBytes?_eq_mapM] at h
  apply ByteArray.ext
  simp [bytes, key _ _ h]

/-- The stored forms of paths are the byte strings whose bytes are all below sixteen. -/
theorem exists_bytes_eq {b : ByteArray} :
    (∃ p : Path, p.bytes = b) ↔ ∀ x ∈ b.data.toList, x.toNat < 16 := by
  constructor
  · rintro ⟨p, rfl⟩ x hx
    obtain ⟨n, -, rfl⟩ : ∃ n ∈ p, n.byte = x := by simpa [bytes] using hx
    rw [Nibble.toNat_byte]
    exact n.isLt
  · intro h
    refine ⟨b.data.toList.map fun x => Fin.ofNat 16 x.toNat, ByteArray.ext ?_⟩
    have hbyte : ∀ x ∈ b.data.toList, Nibble.byte (Fin.ofNat 16 x.toNat) = x := fun x hx => by
      apply UInt8.toNat_inj.mp
      rw [Nibble.toNat_byte]
      exact Nat.mod_eq_of_lt (h x hx)
    have hbytes : b.data.toList.map (fun x => Nibble.byte (Fin.ofNat 16 x.toNat)) =
        b.data.toList := (List.map_congr_left hbyte).trans (List.map_id _)
    rw [bytes, List.map_map]
    exact (congrArg (fun l : List UInt8 => l.toByteArray.data) hbytes).trans (by simp)

/-! ## Common first part -/

def commonLength : Path → Path → Nat
  | a :: p, b :: q => if a = b then commonLength p q + 1 else 0
  | _, _ => 0

theorem take_commonLength (p q : Path) :
    p.take (commonLength p q) = q.take (commonLength p q) := by
  induction p generalizing q with
  | nil => cases q <;> simp [commonLength]
  | cons a p ih =>
    cases q with
    | nil => simp [commonLength]
    | cons b q =>
      by_cases h : a = b
      · simp [commonLength, h, ih q]
      · simp [commonLength, h]

/-! ## Order and text -/

/-- The order of paths: by the first differing nibble, a proper first part before the whole. -/
def order : Path → Path → Ordering
  | [], [] => .eq
  | [], _ :: _ => .lt
  | _ :: _, [] => .gt
  | a :: p, b :: q => if a < b then .lt else if b < a then .gt else order p q

theorem order_eq (p q : Path) : order p q = compare p q := by
  induction p generalizing q with
  | nil => cases q <;> rfl
  | cons a p ih =>
    cases q with
    | nil => rfl
    | cons b q =>
      rw [order, List.compare_cons_cons, ih q]
      rcases Nat.lt_trichotomy a.val b.val with h | h | h
      · have hc : compare a b = .lt := Nat.compare_eq_lt.mpr h
        simp [Fin.lt_def, h, hc]
      · have hc : compare a b = .eq := Nat.compare_eq_eq.mpr h
        simp [Fin.lt_def, h, hc]
      · have hc : compare a b = .gt := Nat.compare_eq_gt.mpr h
        have hn : ¬ a.val < b.val := by omega
        simp [Fin.lt_def, h, hc, hn]

instance : Std.TransCmp order where
  eq_swap {a b} := by
    rw [order_eq, order_eq]
    exact Std.OrientedCmp.eq_swap
  isLE_trans {a b c} hab hbc := by
    rw [order_eq] at *
    exact Std.TransCmp.isLE_trans hab hbc

instance : Std.LawfulEqCmp order where
  compare_self {a} := by
    rw [order_eq]
    exact Std.ReflCmp.compare_self
  eq_of_compare {a b} h := by
    rw [order_eq] at h
    exact Std.LawfulEqCmp.eq_of_compare h

def digits (p : Path) : String :=
  String.ofList (p.map Nibble.digit)

/-- The form in which a path is shown inside other text. -/
def display (p : Path) : String := "Nibbles(" ++ p.digits ++ ")"

end Path

end VersionedTrie
