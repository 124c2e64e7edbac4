import VersionedTrie.Trie.Insert

/-! # Removal

Removing a leaf empties its slot. On the way up, a branch left without children goes too, and a
branch left with nothing but one leaf is replaced by that leaf, so that every leaf stands at the
shortest path that tells it from the others. All other branches passed are written anew.
-/

set_option autoImplicit false

namespace VersionedTrie

/-- The only child of a branch, once it is known to be a leaf: either the node that has just come
to stand there, or one still to be read. -/
def loneLeaf (t : Trie) (s : Site) (step : Step) (below : Option Node) (n : Nibble) (c : Child) :
    DraftM (NodeKey × Node) := do
  let stored : DraftM (NodeKey × Node) := do
    let key := step.key.child c.version n
    let node ← t.recall key
    pure (key, node)
  match below with
  | some node => if n = step.nibble then pure (step.key.child s.version n, node) else stored
  | none => stored

/-- Goes up along the branches passed with the node that now stands below them, if any. -/
def withdraw (t : Trie) (s : Site) :
    List Step → Changes → Option Node → DraftM (Changes × Option Node)
  | [], c, below => pure (c, below)
  | step :: above, c, below => do
    let b :=
      match below with
      | none => step.branch.remove step.nibble
      | some node => step.branch.set step.nibble (s.child node)
    let c := c.retire step.key
    let here := s.at_ above.length
    if b.children.isEmpty then withdraw t s above c none
    else
      match b.onlyLeaf? with
      | some (n, child) => do
        let (key, leaf) ← loneLeaf t s step below n child
        if leaf.isLeaf then
          withdraw t s above ((c.retire key).write here leaf) (some leaf)
        else throw (.corruptNode (.flaggedAsLeaf key))
      | none => withdraw t s above (c.write here (.branch b)) (some (.branch b))

/-- The changes that remove a key, and whether a root is left; `none` if the key is not there. -/
def remove (t : Trie) (s : Site) (path : Path) (d : Descent) : DraftM (Option (Changes × Bool)) := do
  match d.landing with
  | .leaf key l =>
    if l.key = path then do
      let (c, root) ← withdraw t s d.steps (Changes.empty.retire key) none
      pure (some (c, root.isSome))
    else pure none
  | _ => pure none

end VersionedTrie
