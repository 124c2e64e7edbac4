import VersionedTrie.Bytes.Basic
import VersionedTrie.Json.Reader

/-! # Records in JSON

A record is an object whose members are its fields; members of other names do not count, but no
field may stand twice. It may also be given as the array of its fields in their order. A record with
defaults may lack any field, and its array may break off anywhere.
-/

set_option autoImplicit false

namespace VersionedTrie.Json.Value

/-! ## Fields -/

def field? (members : List (Text × Value)) (name : String) : Option (Option Value) :=
  match members.filter (·.1 = some name) with
  | [] => some none
  | [(_, v)] => some (some v)
  | _ => none

def fieldsOfMembers? (names : List String) (members : List (Text × Value)) :
    Option (List (Option Value)) :=
  if members.any (·.1.isNone) then none else names.mapM (field? members)

/-- The values of the named fields of a record without defaults. -/
def fields? (names : List String) : Value → Option (List (Option Value))
  | .object members => fieldsOfMembers? names members
  | .array items => if items.length = names.length then some (items.map some) else none
  | _ => none

/-- The values of the named fields of a record with defaults. -/
def givenFields? (names : List String) : Value → Option (List (Option Value))
  | .object members => fieldsOfMembers? names members
  | .array items =>
    if items.length ≤ names.length then
      some (items.map some ++ List.replicate (names.length - items.length) none)
    else none
  | _ => none

/-! ## Values of fields -/

def bool? : Value → Option Bool
  | .bool b => some b
  | _ => none

def word? : Value → Option UInt64
  | .natural n => if n < UInt64.size then some n.toUInt64 else none
  | _ => none

def byte? : Value → Option UInt8
  | .natural n => if n < UInt8.size then some n.toUInt8 else none
  | _ => none

def text? : Value → Option String
  | .text t => t
  | _ => none

def items? : Value → Option (List Value)
  | .array items => some items
  | _ => none

def bytes? (v : Value) : Option ByteArray := do
  let items ← v.items?
  let bytes ← items.mapM byte?
  pure bytes.toByteArray

def listOf? {α : Type} (read : Value → Option α) (v : Value) : Option (List α) := do
  let items ← v.items?
  items.mapM read

/-- Reads `null` as nothing. -/
def nullable? {α : Type} (read : Value → Option α) : Value → Option (Option α)
  | .null => some none
  | v => (read v).map some

/-- A field that may be missing, in which case it is nothing. -/
def optional? {α : Type} (read : Value → Option α) : Option Value → Option (Option α)
  | none => some none
  | some v => nullable? read v

def orDefault? {α : Type} (default : α) (read : Value → Option α) : Option Value → Option α
  | none => some default
  | some v => read v

/-! ## Writing -/

def ofText (s : String) : Value := .text (some s)

def ofBytes (b : ByteArray) : Value :=
  .array (b.data.toList.map fun x => .natural x.toNat)

def ofOption {α : Type} (write : α → Value) : Option α → Value
  | none => .null
  | some a => write a

def record (fields : List (String × Value)) : Value :=
  .object (fields.map fun (name, v) => (some name, v))

end VersionedTrie.Json.Value
