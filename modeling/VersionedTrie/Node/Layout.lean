import VersionedTrie.Node.Basic

/-! # Stored form of nodes

A stored node begins with a tag of four bytes, zero for a branch and one for a leaf. A branch goes
on with its sixteen slots: a zero byte for an absent child, otherwise a one followed by the digest,
the version in eight bytes and the leaf flag. A leaf goes on with `leafFields`. Numbers have their
least significant byte first. Reading goes from front to back and stops at the first defect, and
what is left of the input after the node is a defect too. A well-formed input must then hold a
branch with a child, or a leaf whose key has only nibbles and whose digest is that of its key and
value.
-/

set_option autoImplicit false

namespace VersionedTrie

namespace Node

/-! ## Writing -/

def slotBytes : Option Child → ByteArray
  | none => [0].toByteArray
  | some c =>
    [1].toByteArray ++ c.digest.bytes ++ Bytes.littleBytes 8 c.version.toNat ++
      [if c.leaf then 1 else 0].toByteArray

def encode : Node → ByteArray
  | .branch b => b.slots.toList.foldl (fun out slot => out ++ slotBytes slot) (Bytes.littleBytes 4 0)
  | .leaf l => Bytes.littleBytes 4 1 ++ leafFields l.key l.value l.digest

end Node

/-! ## Reading -/

namespace Layout

/-- Reads from what is left of the input. -/
abbrev Reader := StateT ByteArray (Except LayoutDefect)

def piece (n : Nat) : Reader ByteArray := fun rest =>
  match Bytes.split? rest n with
  | some found => .ok found
  | none => .error .endOfInput

def number (width : Nat) : Reader Nat := do
  let b ← piece width
  pure (Bytes.ofLittleBytes b)

def digest : Reader Digest := do
  let b ← piece 32
  match Digest.ofBytes? b with
  | some d => pure d
  | none => throw .endOfInput

def slot : Reader (Option Child) := do
  let present ← number 1
  if present = 0 then pure none
  else if present = 1 then
    let d ← digest
    let version ← number 8
    let flag ← number 1
    if flag ≤ 1 then pure (some ⟨d, version.toUInt64, flag = 1⟩)
    else throw (.badFlag flag.toUInt8)
  else throw (.badPresence present.toUInt8)

def slots : (n : Nat) → Reader (Vector (Option Child) n)
  | 0 => pure #v[]
  | n + 1 => do
    let front ← slots n
    let last ← slot
    pure (front.push last)

/-- The fields of a node before they are looked at together. -/
inductive Fields where
  | branch (b : Branch)
  | leaf (key value : ByteArray) (digest : Digest)

def fields : Reader Fields := do
  let tag ← number 4
  if tag = 0 then
    let s ← slots 16
    pure (.branch ⟨s⟩)
  else if tag = 1 then
    let keySize ← number 8
    let key ← piece keySize
    let valueSize ← number 8
    let value ← piece valueSize
    let d ← digest
    pure (.leaf key value d)
  else throw (.badVariant tag)

def all {α : Type} (reader : Reader α) (b : ByteArray) : Except LayoutDefect α := do
  let (a, rest) ← reader b
  if rest.size = 0 then pure a else throw .trailingBytes

end Layout

namespace Node

/-- Looks at the fields of a stored node together. -/
def ofFields : Layout.Fields → Except NodeDefect Node
  | .branch b => if b.children.isEmpty then .error .noChildren else .ok (.branch b)
  | .leaf key value d =>
    match Path.ofBytes? key with
    | none => .error .leafNotNibbles
    | some path =>
      let l := Leaf.make path value
      if l.digest = d then .ok (.leaf l) else .error (.leafDigest path)

def decode (b : ByteArray) : Except NodeDefect Node :=
  match Layout.all Layout.fields b with
  | .error defect => .error (.layout defect)
  | .ok f => ofFields f

end Node

end VersionedTrie
