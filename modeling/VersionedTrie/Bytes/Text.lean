import VersionedTrie.Bytes.Basic

/-! # Bytes shown as text

Bytes that should be UTF-8 are shown character by character; the longest first part of a character
that the bytes break off or leave becomes one replacement character, and so does a byte that begins
no character.
-/

set_option autoImplicit false

namespace VersionedTrie.Bytes

/-- A character that is being read: how many bytes are missing, its number so far, and the bounds of
the next byte. -/
structure Partial where
  missing : Nat
  number : Nat
  low : Nat
  high : Nat

def begin? (b : Nat) : Option Partial :=
  if b < 0xc2 then none
  else if b < 0xe0 then some ⟨1, b - 0xc0, 0x80, 0xbf⟩
  else if b = 0xe0 then some ⟨2, 0, 0xa0, 0xbf⟩
  else if b = 0xed then some ⟨2, 0xd, 0x80, 0x9f⟩
  else if b < 0xf0 then some ⟨2, b - 0xe0, 0x80, 0xbf⟩
  else if b = 0xf0 then some ⟨3, 0, 0x90, 0xbf⟩
  else if b < 0xf4 then some ⟨3, b - 0xf0, 0x80, 0xbf⟩
  else if b = 0xf4 then some ⟨3, 4, 0x80, 0x8f⟩
  else none

def replacement : Char := '\ufffd'

/-- What a byte outside any character yields, and the character it begins. -/
def fresh (b : Nat) : List Char × Option Partial :=
  if b < 0x80 then ([Char.ofNat b], none)
  else
    match begin? b with
    | some p => ([], some p)
    | none => ([replacement], none)

def next (b : Nat) : Option Partial → List Char × Option Partial
  | none => fresh b
  | some p =>
    if p.low ≤ b ∧ b ≤ p.high then
      let number := p.number * 64 + b % 64
      if p.missing = 1 then ([Char.ofNat number], none)
      else ([], some ⟨p.missing - 1, number, 0x80, 0xbf⟩)
    else
      let (shown, p) := fresh b
      (replacement :: shown, p)

def showFrom : Option Partial → List Char → List UInt8 → List Char
  | none, shown, [] => shown.reverse
  | some _, shown, [] => (replacement :: shown).reverse
  | p, shown, b :: r =>
    let (cs, p) := next b.toNat p
    showFrom p (cs.reverse ++ shown) r

def showText (b : ByteArray) : String := String.ofList (showFrom none [] b.data.toList)

end VersionedTrie.Bytes
