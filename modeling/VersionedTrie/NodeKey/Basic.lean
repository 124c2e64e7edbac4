import VersionedTrie.Bytes.Hex
import VersionedTrie.StoredPath
import Std.Data.ExtTreeSet

/-! # Node keys

A node is stored under the version it was written at, the prefix of its tree and its path from the
root; these three determine the node key (`ext_path`). Node keys are ordered by version, then by the
length of the prefix, then by the prefix, then by the path (`order_eq_path`); finite maps and sets
of node keys list their elements in this order.
-/

set_option autoImplicit false

namespace VersionedTrie

abbrev Version := UInt64

/-- The bytes that set the node keys of one tree apart from those of other trees in the same
store: at most 255. -/
structure TreePrefix where
  bytes : ByteArray
  size_le : bytes.size ≤ 255
  deriving DecidableEq

namespace TreePrefix

def empty : TreePrefix := ⟨ByteArray.empty, by simp⟩

instance : Inhabited TreePrefix := ⟨empty⟩

def ofBytes? (b : ByteArray) : Option TreePrefix :=
  if h : b.size ≤ 255 then some ⟨b, h⟩ else none

theorem bytes_of_ofBytes? {b : ByteArray} {tree : TreePrefix}
    (h : ofBytes? b = some tree) : tree.bytes = b := by
  rw [ofBytes?] at h
  split at h
  · cases h
    rfl
  · cases h

theorem ext {a b : TreePrefix} (h : a.bytes = b.bytes) : a = b := by
  cases a
  cases b
  cases h
  rfl

end TreePrefix

structure NodeKey where
  version : Version
  tree : TreePrefix
  stored : StoredPath
  deriving DecidableEq

namespace NodeKey

def path (k : NodeKey) : Path := k.stored.toPath

def ofPath (version : Version) (tree : TreePrefix) (path : Path) : NodeKey :=
  ⟨version, tree, .ofPath path⟩

instance : Inhabited NodeKey := ⟨ofPath 0 TreePrefix.empty []⟩

def sibling (k : NodeKey) (version : Version) (path : Path) : NodeKey :=
  ofPath version k.tree path

/-- The key of the child below `n`, written at the given version. -/
def child (k : NodeKey) (version : Version) (n : Nibble) : NodeKey :=
  { k with version, stored := k.stored.push n }

@[simp] theorem path_ofPath (version : Version) (tree : TreePrefix) (path : Path) :
    (ofPath version tree path).path = path :=
  StoredPath.toPath_ofPath path

@[simp] theorem ofPath_path (k : NodeKey) : ofPath k.version k.tree k.path = k := by
  simp [ofPath, path]

@[simp] theorem path_child (k : NodeKey) (version : Version) (n : Nibble) :
    (k.child version n).path = k.path ++ [n] :=
  StoredPath.toPath_push k.stored n

theorem ext_path {a b : NodeKey} (hv : a.version = b.version) (ht : a.tree = b.tree)
    (hp : a.path = b.path) : a = b := by
  rw [← ofPath_path a, ← ofPath_path b, hv, ht, hp]

/-! ## Order -/

def order : NodeKey → NodeKey → Ordering :=
  compareLex (compareOn (·.version)) <|
  compareLex (compareOn (·.tree.bytes.size)) <|
  compareLex (compareOn (·.tree.bytes)) <|
  compareOn (·.stored.bytes)

instance instOrdNodeKey : Ord NodeKey := ⟨order⟩

instance : Std.TransOrd NodeKey := inferInstanceAs (Std.TransCmp (compareLex _ _))

theorem order_eq_path (a b : NodeKey) :
    order a b =
      compareLex (compareOn (·.version))
        (compareLex (compareOn (·.tree.bytes.size))
          (compareLex (compareOn (·.tree.bytes)) fun a b => Path.order a.path b.path)) a b := by
  simp only [order, compareLex, compareOn, StoredPath.compare_bytes, path]

theorem order_eq_iff {a b : NodeKey} : order a b = .eq ↔ a = b := by
  constructor
  · intro h
    rw [order_eq_path] at h
    simp only [compareLex_eq_eq, compareOn] at h
    obtain ⟨hv, _, ht, hp⟩ := h
    exact ext_path (Std.LawfulEqCmp.eq_of_compare hv)
      (TreePrefix.ext (Std.LawfulEqCmp.eq_of_compare ht)) (Std.LawfulEqCmp.eq_of_compare hp)
  · rintro rfl
    simp only [order, compareLex_eq_eq, compareOn]
    exact ⟨Std.ReflCmp.compare_self, Std.ReflCmp.compare_self, Std.ReflCmp.compare_self,
      Std.ReflCmp.compare_self⟩

instance : Std.LawfulEqOrd NodeKey where
  compare_self := order_eq_iff.mpr rfl
  eq_of_compare h := order_eq_iff.mp h

/-- The form in which a node key is shown inside other text. -/
def display (k : NodeKey) : String :=
  "NodeKey(v" ++ toString k.version ++ ", " ++ Hex.encode k.tree.bytes ++ ", " ++ k.path.display ++
    ")"

end NodeKey

/-- Finite maps from node keys. -/
abbrev NodeMap (α : Type) := Std.ExtTreeMap NodeKey α

/-- Finite sets of node keys. -/
abbrev NodeSet := Std.ExtTreeSet NodeKey

end VersionedTrie
