import VersionedTrie.Inclusion
import VersionedTrie.Journal
import VersionedTrie.Json.Record

/-! # Documents

Node keys, batches and journals are kept as JSON with their bytes as arrays of numbers; a proof is
handed on as JSON with its bytes in hexadecimal. A node key that is read has a prefix of at most 255
bytes and a path of nibbles, or is refused.
-/

set_option autoImplicit false

namespace VersionedTrie

open Json (Value)

/-! ## Node keys -/

def Digest.ofJson? (v : Value) : Option Digest := do
  let b ← v.bytes?
  Digest.ofBytes? b

namespace NodeKey

def toJson (k : NodeKey) : Value :=
  .record
    [("version", .natural k.version.toNat),
     ("prefix", .ofBytes k.tree.bytes),
     ("path", .ofBytes k.stored.bytes)]

def ofJson? (v : Value) : Option NodeKey := do
  match ← v.fields? ["version", "prefix", "path"] with
  | [some version, some tree, some path] =>
    let version ← version.word?
    let tree ← TreePrefix.ofBytes? (← tree.bytes?)
    let path ← Path.ofBytes? (← path.bytes?)
    pure (.ofPath version tree path)
  | _ => none

end NodeKey

/-! ## Batches -/

namespace WriteOp

def toJson : WriteOp → Value
  | .put key value =>
    .record [("Put", .record [("key", .ofBytes key), ("value", .ofBytes value)])]
  | .delete key => .record [("Delete", .record [("key", .ofBytes key)])]

def ofJson? : Value → Option WriteOp
  | .object [(some "Put", v)] => do
    match ← v.fields? ["key", "value"] with
    | [some key, some value] => pure (.put (← key.bytes?) (← value.bytes?))
    | _ => none
  | .object [(some "Delete", v)] => do
    match ← v.fields? ["key"] with
    | [some key] => pure (.delete (← key.bytes?))
    | _ => none
  | _ => none

end WriteOp

namespace WriteBatch

def toJson (batch : WriteBatch) : Value :=
  .record [("ops", .array (batch.map WriteOp.toJson))]

def ofJson? (v : Value) : Option WriteBatch := do
  match ← v.fields? ["ops"] with
  | [some ops] => ops.listOf? WriteOp.ofJson?
  | _ => none

end WriteBatch

/-! ## Journals -/

namespace Journal

def entryOfJson? : Value → Option (NodeKey × ByteArray)
  | .array [key, b] => do pure (← NodeKey.ofJson? key, ← b.bytes?)
  | _ => none

def toJson (j : Journal) : Value :=
  .record
    [("root_hash", .ofBytes j.root.bytes),
     ("root_key", .ofOption NodeKey.toJson j.rootKey),
     ("dirty", .array (j.written.map fun (key, b) => .array [key.toJson, .ofBytes b])),
     ("prune", .array (j.superseded.toList.map NodeKey.toJson))]

def ofJson? (v : Value) : Option Journal := do
  match ← v.fields? ["root_hash", "root_key", "dirty", "prune"] with
  | [some root, rootKey, some written, some superseded] =>
    let root ← Digest.ofJson? root
    let rootKey ← Value.optional? NodeKey.ofJson? rootKey
    let written ← written.listOf? entryOfJson?
    let superseded ← superseded.listOf? NodeKey.ofJson?
    pure ⟨root, rootKey, written, Std.ExtTreeSet.ofList superseded⟩
  | _ => none

end Journal

/-! ## Proofs -/

/-- A proof with its bytes in hexadecimal. -/
structure ProofText where
  key : Option String
  value : Option String
  nodes : List String

namespace ProofText

def ofInclusion (p : Inclusion) : ProofText where
  key := p.key.map Hex.encode
  value := p.value.map Hex.encode
  nodes := p.nodes.map Hex.encode

def inclusion (p : ProofText) : Except HexError Inclusion := do
  let key ← p.key.mapM Hex.decode
  let value ← p.value.mapM Hex.decode
  let nodes ← p.nodes.mapM Hex.decode
  pure ⟨key, value, nodes⟩

def ofJson? (v : Value) : Option ProofText := do
  match ← v.fields? ["key", "value", "nodes"] with
  | [key, value, some nodes] =>
    let key ← Value.optional? Value.text? key
    let value ← Value.optional? Value.text? value
    let nodes ← nodes.listOf? Value.text?
    pure ⟨key, value, nodes⟩
  | _ => none

end ProofText

end VersionedTrie
