import VersionedTrie.Path

/-! # Paths in stored form

Node keys hold their paths in stored form, one byte for each nibble, because a descent makes one
node key after another: extending, cutting and comparing bytes needs no list. A stored path is known
by the path it stands for: `toPath_push` and `toPath_take` say what the operations do to that path,
`ext` that it determines the stored path, and `compare_bytes` that the bytes are ordered as the paths
are.
-/

set_option autoImplicit false

namespace VersionedTrie

structure StoredPath where
  bytes : ByteArray
  isStored : ∃ p : Path, p.bytes = bytes

namespace StoredPath

def ofPath (p : Path) : StoredPath := ⟨p.bytes, p, rfl⟩

def toPath (s : StoredPath) : Path := (Path.ofBytes? s.bytes).getD []

def push (s : StoredPath) (n : Nibble) : StoredPath where
  bytes := s.bytes.push n.byte
  isStored := by
    obtain ⟨p, hp⟩ := s.isStored
    exact ⟨p ++ [n], ByteArray.ext (by simp [← hp, Path.bytes])⟩

/-- The first `depth` nibbles. -/
def take (s : StoredPath) (depth : Nat) : StoredPath where
  bytes := s.bytes.extract 0 depth
  isStored := by
    obtain ⟨p, hp⟩ := s.isStored
    refine ⟨p.take depth, ByteArray.ext (Array.toList_inj.mp ?_)⟩
    simp [← hp, Path.bytes, ByteArray.data_extract, List.extract_eq_take_drop]

instance : DecidableEq StoredPath := fun a b =>
  if h : a.bytes = b.bytes then
    isTrue (by
      cases a
      cases b
      cases h
      rfl)
  else isFalse fun e => h (e ▸ rfl)

/-! ## The path of a stored path -/

@[simp] theorem toPath_ofPath (p : Path) : (ofPath p).toPath = p := by
  simp [toPath, ofPath, Path.ofBytes?_bytes]

@[simp] theorem bytes_toPath (s : StoredPath) : s.toPath.bytes = s.bytes := by
  obtain ⟨p, hp⟩ := s.isStored
  rw [toPath, ← hp, Path.ofBytes?_bytes, Option.getD_some]

theorem ext {a b : StoredPath} (h : a.toPath = b.toPath) : a = b := by
  have hb : a.bytes = b.bytes := by rw [← bytes_toPath a, ← bytes_toPath b, h]
  cases a
  cases b
  cases hb
  rfl

@[simp] theorem ofPath_toPath (s : StoredPath) : ofPath s.toPath = s := ext (toPath_ofPath _)

theorem toPath_eq_of_bytes {s : StoredPath} {p : Path} (h : s.bytes = p.bytes) : s.toPath = p := by
  rw [toPath, h, Path.ofBytes?_bytes, Option.getD_some]

@[simp] theorem toPath_push (s : StoredPath) (n : Nibble) : (s.push n).toPath = s.toPath ++ [n] := by
  apply toPath_eq_of_bytes
  have hb := bytes_toPath s
  exact ByteArray.ext (by simp [push, ← hb, Path.bytes])

@[simp] theorem toPath_take (s : StoredPath) (depth : Nat) :
    (s.take depth).toPath = s.toPath.take depth := by
  apply toPath_eq_of_bytes
  have hb := bytes_toPath s
  apply ByteArray.ext
  apply Array.toList_inj.mp
  simp [take, ← hb, Path.bytes, ByteArray.data_extract, List.extract_eq_take_drop]

/-! ## Order -/

private theorem compare_map_byte (p q : Path) :
    compare (p.map Nibble.byte) (q.map Nibble.byte) = Path.order p q := by
  induction p generalizing q with
  | nil => cases q <;> rfl
  | cons a p ih =>
    cases q with
    | nil => rfl
    | cons b q =>
      have hc : compare a.byte b.byte = compare a.val b.val := by
        rw [← Bytes.compare_toNat, Nibble.toNat_byte, Nibble.toNat_byte]
      rw [List.map_cons, List.map_cons, List.compare_cons_cons, hc, ih, Path.order]
      rcases Nat.lt_trichotomy a.val b.val with h | h | h
      · simp [Fin.lt_def, h, Nat.compare_eq_lt.mpr h]
      · simp [Fin.lt_def, h]
      · have hn : ¬ a.val < b.val := by omega
        simp [Fin.lt_def, h, hn, Nat.compare_eq_gt.mpr h]

theorem compare_bytes (a b : StoredPath) :
    compare a.bytes b.bytes = Path.order a.toPath b.toPath := by
  rw [← bytes_toPath a, ← bytes_toPath b, Bytes.ord_compare_eq, ← compare_map_byte]
  simp [Path.bytes]

end StoredPath

end VersionedTrie
