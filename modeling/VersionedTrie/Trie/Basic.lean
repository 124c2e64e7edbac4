import VersionedTrie.Node.Layout
import VersionedTrie.NodeKey.Layout
import VersionedTrie.Store.Basic

/-! # Tries

A trie is a handle on one tree in a store. Between commits it holds the nodes written since the last
commit, the committed nodes it has read while updating, and the keys of the committed nodes that its
updates have superseded. Node keys are never reused for other nodes within a version's lifetime, so
every committed root stays readable; the anchor of a root, stored under the root's digest, holds the
root's node key. A handle ends with its commit.
-/

set_option autoImplicit false

namespace VersionedTrie

structure Trie where
  tree : TreePrefix
  root : Option NodeKey
  dirty : NodeMap Node
  /-- Committed nodes read while updating. -/
  seen : NodeMap Node
  /-- Committed nodes that updates have taken out of the trie. -/
  superseded : NodeSet
  committed : Bool

/-! ## Stored nodes -/

def readNode (key : NodeKey) : AccessM Node := do
  match ← Access.read key.encode with
  | none => throw (.nodeMissing key)
  | some b =>
    match Node.decode b with
    | .ok node => pure node
    | .error defect => throw (.corruptNode defect)

def readAnchor (root : Digest) : AccessM NodeKey := do
  match ← Access.read root.bytes with
  | none => throw (.anchorMissing root)
  | some b =>
    match NodeKey.decode b with
    | .ok key => pure key
    | .error defect => throw (.corruptNode defect)

/-- The node under a node key: from the cache if it is there, else from the store. -/
def readThroughCache (key : NodeKey) : AccessM Node := do
  match ← Access.cached key with
  | some node => pure node
  | none => readNode key

namespace Trie

def empty : Trie := ⟨TreePrefix.empty, none, ∅, ∅, ∅, false⟩

instance : Inhabited Trie := ⟨empty⟩

def load (root : Digest) : AccessM Trie := do
  if root = Digest.placeholder then pure empty
  else
    let key ← readAnchor root
    let node ← readNode key
    if node.digest = root then pure { empty with tree := key.tree, root := some key }
    else throw (.corruption (.anchorMismatch root node.digest))

/-- The trie with another prefix; one that has a root keeps its own. -/
def withPrefix (t : Trie) (b : ByteArray) : Except Error Trie :=
  match TreePrefix.ofBytes? b with
  | none => .error (.invalidKey (.prefixTooLong b.size))
  | some tree =>
    if t.root.isSome && tree ≠ t.tree then .error (.invalidKey .prefixFixed)
    else .ok { t with tree }

def fetch (t : Trie) (key : NodeKey) : AccessM Node :=
  match t.dirty[key]? with
  | some node => pure node
  | none =>
    match t.seen[key]? with
    | some node => pure node
    | none => readThroughCache key

def ensureLive (t : Trie) : AccessM Unit :=
  if t.committed then throw .staleHandle else pure ()

def rootDigest (t : Trie) : AccessM Digest := do
  t.ensureLive
  match t.root with
  | none => pure Digest.placeholder
  | some key => do
    let node ← t.fetch key
    pure node.digest

end Trie

end VersionedTrie
