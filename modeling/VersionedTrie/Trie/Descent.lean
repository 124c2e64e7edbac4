import VersionedTrie.Trie.Basic

/-! # Descents

Looking for a key walks from the root along the key's path. The walk is kept as a value: the
branches passed, each with the nibble by which it was left, and where the walk landed. Reading a
value, proving it, inserting and removing all begin with the same walk.
-/

set_option autoImplicit false

namespace VersionedTrie

structure Step where
  key : NodeKey
  branch : Branch
  nibble : Nibble

inductive Landing where
  /-- At a slot without a child, or above the root of an empty trie. -/
  | vacant
  | leaf (key : NodeKey) (l : Leaf)
  /-- At a branch when the path has no further nibble. -/
  | exhausted (key : NodeKey) (b : Branch)

/-- The branches passed, the deepest first, and the landing. -/
structure Descent where
  steps : List Step
  landing : Landing

/-- Walks from a node key, if there is one, along the rest of a path. -/
def descend {m : Type → Type} [Monad m] (load : NodeKey → m Node) :
    Option NodeKey → Path → List Step → m Descent
  | none, _, steps => pure ⟨steps, .vacant⟩
  | some key, rest, steps => do
    match ← load key with
    | .leaf l => pure ⟨steps, .leaf key l⟩
    | .branch b =>
      match rest with
      | [] => pure ⟨steps, .exhausted key b⟩
      | n :: rest =>
        descend load ((b.child? n).map fun c => key.child c.version n) rest (⟨key, b, n⟩ :: steps)

namespace Trie

def get (t : Trie) (key : ByteArray) : AccessM (Option ByteArray) := do
  t.ensureLive
  if key.size = 0 then pure none
  else
    let path := Path.ofKey key
    let d ← descend t.fetch t.root path []
    match d.landing with
    | .leaf _ l => pure (if l.key = path then some l.value else none)
    | _ => pure none

end Trie

end VersionedTrie
