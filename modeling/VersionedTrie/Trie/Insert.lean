import VersionedTrie.Trie.Changes

/-! # Insertion

A new leaf takes the vacant slot at which the walk landed, or replaces the leaf of its own key. A
leaf of another key is split from it: one branch for each nibble that the two keys share below the
landing, the last of them forking into the two leaves. All branches passed are then written anew,
from the deepest up to the root.
-/

set_option autoImplicit false

namespace VersionedTrie

/-- Where an update writes: its version, its tree and the path of its key. -/
structure Site where
  version : Version
  tree : TreePrefix
  path : StoredPath

namespace Site

/-- The node key at the given depth of the site's own path. -/
def at_ (s : Site) (depth : Nat) : NodeKey := ⟨s.version, s.tree, s.path.take depth⟩

/-- What a branch written here records of a child written here. -/
def child (s : Site) (node : Node) : Child := node.asChild s.version

/-- Writes a chain of branches with one child each above a node: one for every nibble of the list,
whose element is the nibble with its depth. -/
def chain (s : Site) (levels : List (Nibble × Nat)) (c : Changes) (node : Node) :
    Changes × Node :=
  levels.foldr
    (fun (n, depth) (c, node) =>
      let branch := Node.branch (Branch.empty.set n (s.child node))
      (c.write (s.at_ depth) branch, branch))
    (c, node)

/-- Pushes two leaves apart below the given depth; gives the node at that depth. -/
def split (s : Site) (c : Changes) (stored given : Leaf) (depth : Nat) :
    Except Error (Changes × Node) :=
  let fork := Path.commonLength stored.key given.key
  match stored.key[fork]?, given.key[fork]? with
  | some a, some b =>
    let c := c.write (.ofPath s.version s.tree (stored.key.take (fork + 1))) (.leaf stored)
    let c := c.write (s.at_ (fork + 1)) (.leaf given)
    let both := (Branch.empty.set a (s.child (.leaf stored))).set b (s.child (.leaf given))
    let node := Node.branch both
    let c := c.write (s.at_ fork) node
    .ok (s.chain ((given.key.take fork).zipIdx.drop depth) c node)
  | _, _ => .error (.invalidKey (.nested stored.key given.key))

/-- Puts a leaf where a walk landed; gives the node that now stands there. -/
def plant (s : Site) (leaf : Leaf) (d : Descent) : Except Error (Changes × Node) :=
  let depth := d.steps.length
  let here := s.at_ depth
  match d.landing with
  | .vacant => .ok (Changes.empty.write here (.leaf leaf), .leaf leaf)
  | .leaf key stored =>
    let c := Changes.empty.retire key
    if stored.key = leaf.key then .ok (c.write here (.leaf leaf), .leaf leaf)
    else s.split c stored leaf depth
  | .exhausted _ _ => .error (.invalidKey (.endsInside leaf.key))

/-- Writes the branches passed anew above a node that has changed; gives the root. -/
def rise (s : Site) : List Step → Changes → Node → Changes × Node
  | [], c, node => (c, node)
  | step :: above, c, node =>
    let branch := Node.branch (step.branch.set step.nibble (s.child node))
    let c := (c.retire step.key).write (s.at_ above.length) branch
    rise s above c branch

def insert (s : Site) (leaf : Leaf) (d : Descent) : Except Error Changes := do
  let (c, node) ← s.plant leaf d
  pure (s.rise d.steps c node).1

end Site

end VersionedTrie
