import VersionedTrie.Bytes.Basic

/-! # Hexadecimal text

A byte is written as two lower-case digits, high half first; both cases are read. Text of odd length
is refused before any digit is looked at, and otherwise the first byte of the text that is no digit
is reported with its position. The main statement is `decode_encode`: written text reads back.
-/

set_option autoImplicit false

namespace VersionedTrie

/-- Why a text is not the hexadecimal form of a byte string of the wanted length. -/
inductive HexError where
  | oddLength
  | badDigit (byte : UInt8) (position : Nat)
  | wrongLength
  deriving DecidableEq, Repr

namespace Hex

def digits (b : UInt8) : List Char :=
  [Nat.digitChar (b.toNat / 16), Nat.digitChar (b.toNat % 16)]

/-- Writes the digits of the next `n` bytes from position `i` on. -/
def write (b : ByteArray) : Nat → Nat → String → String
  | 0, _, out => out
  | n + 1, i, out =>
    let c := (Bytes.at0 b i).toNat
    write b n (i + 1) ((out.push (Nat.digitChar (c / 16))).push (Nat.digitChar (c % 16)))

def encode (b : ByteArray) : String := write b b.size 0 ""

/-- The value of a digit given as a byte of text. -/
def value? (c : UInt8) : Option Nat :=
  let n := c.toNat
  if 48 ≤ n ∧ n ≤ 57 then some (n - 48)
  else if 97 ≤ n ∧ n ≤ 102 then some (n - 87)
  else if 65 ≤ n ∧ n ≤ 70 then some (n - 55)
  else none

/-- Reads pairs of digits; `i` is the position of the first byte of the given text. -/
def decodePairs : Nat → ByteArray → List UInt8 → Except HexError ByteArray
  | i, acc, hi :: lo :: r =>
    match value? hi, value? lo with
    | some h, some l => decodePairs (i + 2) (acc.push (16 * h + l).toUInt8) r
    | none, _ => .error (.badDigit hi i)
    | some _, none => .error (.badDigit lo (i + 1))
  | _, acc, _ => .ok acc

def decode (text : String) : Except HexError ByteArray :=
  let bytes := text.toUTF8
  if bytes.size % 2 = 1 then .error .oddLength
  else decodePairs 0 ByteArray.empty bytes.data.toList

/-! ## Messages -/

/-- Whether a code point below 256 is shown as itself. -/
def shown (n : Nat) : Bool :=
  (32 ≤ n && n ≤ 126) || (161 ≤ n && n ≠ 173)

/-- A byte between single quotes, as the character with its number. -/
def quoted (b : UInt8) : String :=
  let n := b.toNat
  let body :=
    if n = 0 then "\\0"
    else if n = 9 then "\\t"
    else if n = 10 then "\\n"
    else if n = 13 then "\\r"
    else if n = 39 then "\\'"
    else if n = 92 then "\\\\"
    else if shown n then String.singleton (Char.ofNat n)
    else "\\u\x7b" ++ String.ofList (Nat.toDigits 16 n) ++ "\x7d"
  "'" ++ body ++ "'"

end Hex

def HexError.message : HexError → String
  | .oddLength => "Odd number of digits"
  | .badDigit byte position =>
    "Invalid character " ++ Hex.quoted byte ++ " at position " ++ toString position
  | .wrongLength => "Invalid string length"

namespace Hex

/-! ## Reading what was written -/

private theorem utf8Encode_digit : ∀ n : Fin 16,
    String.utf8EncodeChar (Nat.digitChar n.val) = [(Nat.digitChar n.val).toUInt8] := by
  decide

private theorem value?_digit : ∀ n : Fin 16,
    value? (Nat.digitChar n.val).toUInt8 = some n.val := by
  decide

private theorem halves (b : UInt8) : (16 * (b.toNat / 16) + b.toNat % 16).toUInt8 = b := by
  apply UInt8.toNat_inj.mp
  change (16 * (b.toNat / 16) + b.toNat % 16) % 256 = b.toNat
  have := b.toNat_lt
  omega

def digitBytes (b : UInt8) : List UInt8 :=
  [(Nat.digitChar (b.toNat / 16)).toUInt8, (Nat.digitChar (b.toNat % 16)).toUInt8]

private theorem utf8Encode_digits (b : UInt8) :
    (digits b).flatMap String.utf8EncodeChar = digitBytes b := by
  have hb := b.toNat_lt
  have h1 := utf8Encode_digit ⟨b.toNat / 16, by omega⟩
  have h2 := utf8Encode_digit ⟨b.toNat % 16, by omega⟩
  simp only at h1 h2
  simp [digits, digitBytes, h1, h2]

private theorem write_eq (b : ByteArray) (n i : Nat) (out : String) (h : n + i = b.size) :
    write b n i out = out ++ String.ofList ((b.data.toList.drop i).flatMap digits) := by
  induction n generalizing i out with
  | zero =>
    have hd : b.data.toList.drop i = [] := List.drop_eq_nil_of_le (by simp; omega)
    simp [write, hd]
  | succ n ih =>
    have hi : i < b.size := by omega
    rw [write, ih (i + 1) _ (by omega), Bytes.drop_eq_cons b hi, List.flatMap_cons,
      String.ofList_append]
    apply String.toList_inj.mp
    simp [digits]

/-- The text of a byte string is the text of its bytes in order. -/
theorem encode_eq (b : ByteArray) : encode b = String.ofList (b.data.toList.flatMap digits) := by
  rw [encode, write_eq b b.size 0 "" (by omega), List.drop_zero, String.empty_append]

private theorem toUTF8_encode (b : ByteArray) :
    (encode b).toUTF8 = (b.data.toList.flatMap digitBytes).toByteArray := by
  rw [encode_eq, String.toUTF8_eq_toByteArray, String.toByteArray_ofList, List.utf8Encode,
    List.flatMap_assoc]
  simp only [utf8Encode_digits]

private theorem decodePairs_digitBytes (bs : List UInt8) (i : Nat) (acc : ByteArray) :
    decodePairs i acc (bs.flatMap digitBytes) = .ok (acc ++ bs.toByteArray) := by
  induction bs generalizing i acc with
  | nil => simp [decodePairs]
  | cons b r ih =>
    have hb := b.toNat_lt
    have h1 := value?_digit ⟨b.toNat / 16, by omega⟩
    have h2 := value?_digit ⟨b.toNat % 16, by omega⟩
    simp only at h1 h2
    have hd : (b :: r).flatMap digitBytes =
        (Nat.digitChar (b.toNat / 16)).toUInt8 :: (Nat.digitChar (b.toNat % 16)).toUInt8 ::
          r.flatMap digitBytes := by simp [digitBytes]
    have hp : acc.push b = acc ++ [b].toByteArray := by
      rw [ByteArray.append_toByteArray_singleton]
    rw [hd, decodePairs, h1, h2]
    simp only [halves]
    rw [ih, hp, ByteArray.append_assoc, ← List.toByteArray_append, List.singleton_append]

private theorem length_flatMap_digitBytes (bs : List UInt8) :
    (bs.flatMap digitBytes).length = 2 * bs.length := by
  induction bs with
  | nil => rfl
  | cons b r ih =>
    simp only [List.flatMap_cons, List.length_append, ih, List.length_cons, digitBytes,
      List.length_nil]
    omega

theorem decode_encode (b : ByteArray) : decode (encode b) = .ok b := by
  have hn : ¬ (2 * b.data.toList.length) % 2 = 1 := by omega
  have hl : (b.data.toList.flatMap digitBytes).toByteArray.data.toList =
      b.data.toList.flatMap digitBytes := by simp
  unfold decode
  simp only [toUTF8_encode, List.size_toByteArray, length_flatMap_digitBytes, hn, if_false, hl,
    decodePairs_digitBytes, ByteArray.empty_append]
  congr 1
  exact ByteArray.ext (by simp)

end Hex

end VersionedTrie
