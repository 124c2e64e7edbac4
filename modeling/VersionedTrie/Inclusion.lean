import VersionedTrie.Trie.Descent

/-! # Inclusion proofs

The proof that a trie holds a key is the list of stored nodes from the root to the key's leaf.
Checking it needs only the digest of the root: every branch must have the digest that its parent
records, and the leaf made anew from the proof's own key and value must have the digest that the
last branch records. A proof without key or value proves nothing, nor does it prove absence.
-/

set_option autoImplicit false

namespace VersionedTrie

structure Inclusion where
  key : Option ByteArray
  value : Option ByteArray
  /-- Stored nodes, the root first. -/
  nodes : List ByteArray
  deriving DecidableEq

namespace Inclusion

def empty : Inclusion := ⟨none, none, []⟩

def isConclusive (p : Inclusion) : Bool := p.key.isSome && p.value.isSome

/-- Follows the entries along a path, from a digest that the first one must have; the leaf at the
end must have the digest `leaf`. -/
def follows (leaf : Digest) : Path → Digest → List ByteArray → Bool
  | _, _, [] => false
  | path, expected, entry :: entries =>
    match Node.decode entry with
    | .error _ => false
    | .ok (.leaf _) => entries.isEmpty && leaf = expected
    | .ok (.branch b) =>
      b.digest = expected &&
        match path with
        | [] => false
        | n :: path =>
          match b.child? n with
          | none => false
          | some c => follows leaf path c.digest entries

def verify (root : Digest) (p : Option Inclusion) : Except Error Bool :=
  match p with
  | none => .error (.badProof .absent)
  | some p =>
    match p.key with
    | none => .error (.badProof .noKey)
    | some key =>
      if key.size = 0 then .error (.badProof .noKey)
      else
        match p.value with
        | none => .error (.badProof .noValue)
        | some value =>
          let path := Path.ofKey key
          .ok (follows (leafDigest path value) path root p.nodes)

end Inclusion

namespace Descent

/-- The nodes met on a walk, the root first. -/
def nodes (d : Descent) : List Node :=
  let passed := d.steps.reverse.map fun step => Node.branch step.branch
  match d.landing with
  | .vacant => passed
  | .leaf _ l => passed ++ [.leaf l]
  | .exhausted _ b => passed ++ [.branch b]

end Descent

/-- The proof of a key; without key and value if the key is not there. -/
def Trie.prove (t : Trie) (key : ByteArray) : AccessM Inclusion := do
  t.ensureLive
  let path := Path.ofKey key
  let d ← descend t.fetch t.root path []
  let nodes := d.nodes.map Node.encode
  match d.landing with
  | .leaf _ l =>
    if key.size ≠ 0 ∧ l.key = path then pure ⟨some key, some l.value, nodes⟩
    else pure ⟨none, none, nodes⟩
  | _ => pure ⟨none, none, nodes⟩

end VersionedTrie
