import VersionedTrie.Trie.Descent

/-! # Changes

An update first works out its changes and then makes them, so that one that fails leaves the trie as
it was. Changes are the nodes to write and the node keys to retire; a node both written and retired
within one update never existed. Retiring a committed node supersedes it, and writing under a
superseded key takes that back.
-/

set_option autoImplicit false

namespace VersionedTrie

structure Changes where
  written : NodeMap Node
  retired : List NodeKey

namespace Changes

def empty : Changes := ⟨∅, []⟩

def write (c : Changes) (key : NodeKey) (node : Node) : Changes :=
  { c with written := c.written.insert key node }

def retire (c : Changes) (key : NodeKey) : Changes :=
  if c.written.contains key then { c with written := c.written.erase key }
  else { c with retired := key :: c.retired }

end Changes

namespace Trie

def drop (t : Trie) (key : NodeKey) : Trie :=
  if t.dirty.contains key then { t with dirty := t.dirty.erase key }
  else { t with seen := t.seen.erase key, superseded := t.superseded.insert key }

def add (t : Trie) (key : NodeKey) (node : Node) : Trie :=
  { t with dirty := t.dirty.insert key node, superseded := t.superseded.erase key }

def apply (t : Trie) (c : Changes) : Trie :=
  let t := c.retired.foldr (fun key t => t.drop key) t
  c.written.foldl (fun t key node => t.add key node) t

end Trie

/-! ## Working out changes -/

/-- What an update reads through: the access, and the committed nodes seen so far. -/
structure Draft where
  access : Access
  seen : NodeMap Node

/-- Actions of an update; what was read before a failure stays read. -/
abbrev DraftM := ExceptT Error (StateM Draft)

def AccessM.draft {α : Type} (x : AccessM α) : DraftM α := fun d =>
  let (r, access) := x d.access
  (r, { d with access })

/-- The node under a node key; a committed one is remembered. -/
def Trie.recall (t : Trie) (key : NodeKey) : DraftM Node := do
  match t.dirty[key]? with
  | some node => pure node
  | none =>
    match (← getThe Draft).seen[key]? with
    | some node => pure node
    | none => do
      let node ← (readThroughCache key).draft
      modify fun d => { d with seen := d.seen.insert key node }
      pure node

end VersionedTrie
