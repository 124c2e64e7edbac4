import VersionedTrie.Trie.Update

/-! # Commits and their journals

A commit writes the dirty nodes and the anchor of the root in one batch and ends the handle. Its
journal keeps what was written and which node keys were superseded. Superseded nodes stay in the
store until the journal's deletes are applied, which is for the caller to decide. Node keys carry
their version, so a journal's batches write the same bytes under the same keys however often they
are applied.
-/

set_option autoImplicit false

namespace VersionedTrie

structure Journal where
  root : Digest
  /-- The node key of the root; `none` for a trie without entries. -/
  rootKey : Option NodeKey
  /-- The stored forms of the nodes written, in the order of their keys. -/
  written : List (NodeKey × ByteArray)
  superseded : NodeSet

namespace Journal

def nodePuts (j : Journal) : WriteBatch :=
  j.written.map fun (key, b) => .put key.encode b

def anchorPut (j : Journal) : WriteBatch :=
  match j.rootKey with
  | some key => [.put j.root.bytes key.encode]
  | none => []

def deletes (j : Journal) : WriteBatch :=
  j.superseded.toList.map fun key => .delete key.encode

/-- What the commit writes: its nodes, then the anchor; on request the deletes come first. -/
def batch (j : Journal) (withDeletes : Bool) : WriteBatch :=
  (if withDeletes then j.deletes else []) ++ (j.nodePuts ++ j.anchorPut)

def prune (j : Journal) : AccessM Nat := do
  let count := j.superseded.size
  if 0 < count then Access.write j.deletes
  pure count

end Journal

/-- Forgets superseded nodes, then remembers written ones, each under its own version. -/
def NodeCache.renew (c : NodeCache) (written : List (NodeKey × Node))
    (superseded : List NodeKey) : NodeCache :=
  let c := superseded.foldl (fun c key => c.erase (key.version, key)) c
  written.foldl (fun c (key, node) => c.put (key.version, key) node) c

namespace Trie

def pending (t : Trie) : Nat × Nat := (t.dirty.size, t.superseded.size)

/-- The journal of a commit of the trie as it stands. -/
def journal (t : Trie) (root : Digest) : Journal where
  root
  rootKey := t.root
  written := t.dirty.toList.map fun (key, node) => (key, node.encode)
  superseded := t.superseded

def ended (t : Trie) : Trie :=
  { t with root := none, dirty := ∅, seen := ∅, superseded := ∅, committed := true }

/-- Writes the trie to the store; if that fails, the handle is as before. -/
def commit (t : Trie) : AccessM (Journal × Trie) := do
  let root ← t.rootDigest
  let j := t.journal root
  Access.write (j.batch false)
  modify fun a =>
    { a with cache := a.cache.map fun c => c.renew t.dirty.toList t.superseded.toList }
  pure (j, t.ended)

end Trie

end VersionedTrie
