import VersionedTrie.Trie.Remove

/-! # Updates

An update sets a key to a value at a version; the empty value removes the key. A refused or failed
update changes nothing of the trie but the committed nodes it has seen.
-/

set_option autoImplicit false

namespace VersionedTrie.Trie

def refusal (key value : ByteArray) : Option Error :=
  if key.size = 0 then some (.invalidKey .empty)
  else if maxKeySize < key.size then some (.invalidKey (.tooLong key.size))
  else if maxValueSize < value.size then some (.valueTooLong value.size)
  else none

/-- The changes of an update and whether a root is left; `none` if nothing changes. -/
def plan (t : Trie) (version : Version) (key value : ByteArray) :
    DraftM (Option (Changes × Bool)) := do
  let path := Path.ofKey key
  let s : Site := ⟨version, t.tree, .ofPath path⟩
  let d ← descend t.recall t.root path []
  if value.size = 0 then remove t s path d
  else
    match s.insert (Leaf.make path value) d with
    | .ok c => pure (some (c, true))
    | .error e => throw e

def update (t : Trie) (version : Version) (key value : ByteArray) :
    StateM Access (Except Error Unit × Trie) := fun access =>
  if t.committed then ((.error .staleHandle, t), access)
  else
    match refusal key value with
    | some e => ((.error e, t), access)
    | none =>
      let (r, draft) := t.plan version key value ⟨access, t.seen⟩
      let t := { t with seen := draft.seen }
      let answer : Except Error Unit × Trie :=
        match r with
        | .error e => (.error e, t)
        | .ok none => (.ok (), t)
        | .ok (some (c, rooted)) =>
          let root := if rooted then some (.ofPath version t.tree []) else none
          (.ok (), { t.apply c with root })
      (answer, draft.access)

end VersionedTrie.Trie
