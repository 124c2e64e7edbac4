import VersionedTrie.Proofs.Tree.Basic
import VersionedTrie.Error

/-! # The entries of a trie

What a trie is for is a finite map from byte strings to byte strings. `Entries.update` says what an
update does to such a map and which updates it refuses: a key or a value of a wrong size, and a key
that is nested with another key of the map, which is the one thing that a trie cannot hold. A tree
holds a map if its leaves are the entries (`Tree.Holds`).
-/

set_option autoImplicit false

namespace VersionedTrie

namespace Bytes

/-- One byte string is a proper first part of the other. -/
def Nested (a b : ByteArray) : Prop :=
  a ≠ b ∧ (a.data.toList <+: b.data.toList ∨ b.data.toList <+: a.data.toList)

instance (a b : ByteArray) : Decidable (Nested a b) := inferInstanceAs (Decidable (_ ∧ _))

end Bytes

namespace Path

theorem ofKey_prefix {a b : ByteArray} :
    ofKey a <+: ofKey b ↔ a.data.toList <+: b.data.toList := by
  rw [ofKey, ofKey]
  generalize a.data.toList = p
  generalize b.data.toList = q
  induction p generalizing q with
  | nil => simp
  | cons x p ih =>
    cases q with
    | nil => simp
    | cons y q =>
      have hbyte : Nibble.high x = Nibble.high y ∧ Nibble.low x = Nibble.low y ↔ x = y := by
        constructor
        · rintro ⟨hh, hl⟩
          rw [← Nibble.join_high_low x, hh, hl, Nibble.join_high_low]
        · rintro rfl
          exact ⟨rfl, rfl⟩
      simp only [List.flatMap_cons, List.cons_append, List.nil_append, List.cons_prefix_cons, ih]
      rw [← and_assoc, hbyte]

theorem nested_ofKey {a b : ByteArray} : Nested (ofKey a) (ofKey b) ↔ Bytes.Nested a b := by
  have hne : ofKey a ≠ ofKey b ↔ a ≠ b := by
    refine not_congr ⟨ofKey_injective, ?_⟩
    rintro rfl
    rfl
  rw [Nested, Bytes.Nested, hne, ofKey_prefix, ofKey_prefix]

theorem length_ofKey (key : ByteArray) : (ofKey key).length = 2 * key.size := by
  rw [ofKey, List.length_flatMap]
  simp only [List.length_cons, List.length_nil, List.map_const', List.sum_replicate_nat,
    Array.length_toList, ByteArray.size_data]
  omega

end Path

/-! ## Maps -/

abbrev Entries := ByteMap ByteArray

/-- What is wrong with an update that is refused. -/
inductive Refusal where
  | key
  | value
  deriving DecidableEq

/-- The refusal that an error reports. -/
def Error.refusal? : Error → Option Refusal
  | .invalidKey _ => some .key
  | .valueTooLong _ => some .value
  | _ => none

namespace Entries

/-- The map after an update; the empty value removes the key. -/
def update (m : Entries) (key value : ByteArray) : Except Refusal Entries :=
  if key.size = 0 ∨ maxKeySize < key.size then .error .key
  else if maxValueSize < value.size then .error .value
  else if value.size = 0 then .ok (m.erase key)
  else if m.keys.any fun stored => Bytes.Nested stored key then .error .key
  else .ok (m.insert key value)

/-- The map after an update for which the outcome was reported. -/
def reported (m : Entries) (key value : ByteArray) : Except Error Unit → Entries
  | .ok _ =>
    match m.update key value with
    | .ok m' => m'
    | .error _ => m
  | .error _ => m

def Bounded (m : Entries) : Prop :=
  ∀ key value : ByteArray, m[key]? = some value →
    (0 < key.size ∧ key.size ≤ maxKeySize) ∧ 0 < value.size ∧ value.size ≤ maxValueSize

variable {m : Entries} {key value : ByteArray}

theorem any_nested :
    (m.keys.any fun stored => Bytes.Nested stored key) = true ↔
      ∃ stored v, m[stored]? = some v ∧ Bytes.Nested stored key := by
  simp only [List.any_eq_true, Std.ExtTreeMap.mem_keys, decide_eq_true_eq,
    Std.ExtTreeMap.mem_iff_isSome_getElem?, Option.isSome_iff_exists]
  constructor
  · rintro ⟨stored, ⟨v, hv⟩, hn⟩
    exact ⟨stored, v, hv, hn⟩
  · rintro ⟨stored, v, hv, hn⟩
    exact ⟨stored, ⟨v, hv⟩, hn⟩

theorem getElem?_update {m' : Entries} (h : m.update key value = .ok m') (k : ByteArray) :
    m'[k]? = if key = k then (if value.size = 0 then none else some value) else m[k]? := by
  unfold update at h
  split at h
  · cases h
  · split at h
    · cases h
    · split at h
      · next hz =>
        cases h
        simp only [Std.ExtTreeMap.getElem?_erase, Std.LawfulEqCmp.compare_eq_iff_eq, if_pos hz]
      · next hz =>
        split at h
        · cases h
        · cases h
          simp only [Std.ExtTreeMap.getElem?_insert, Std.LawfulEqCmp.compare_eq_iff_eq, if_neg hz]

theorem bounded_empty : Bounded ∅ := by
  intro key value h
  rw [Std.ExtTreeMap.getElem?_empty] at h
  cases h

theorem Bounded.update {m' : Entries} (h : m.Bounded) (hu : m.update key value = .ok m') :
    m'.Bounded := by
  intro k v hkv
  rw [getElem?_update hu] at hkv
  split at hkv
  · next e =>
    subst e
    split at hkv
    · cases hkv
    · next hz =>
      cases hkv
      unfold Entries.update at hu
      split at hu
      · cases hu
      · split at hu
        · cases hu
        · omega
  · exact h k v hkv

end Entries

namespace Tree

/-- The leaves of a tree are the entries of a map. -/
def Holds (T : Tree) (m : Entries) : Prop :=
  ∀ l, T.Has l ↔ ∃ key value, m[key]? = some value ∧ l = Leaf.make (Path.ofKey key) value

variable {T T' : Tree} {m : Entries} {key value : ByteArray}

theorem holds_vacant : Holds .vacant ∅ := by
  intro l
  simp [not_has_vacant]

theorem Holds.has (h : T.Holds m) (hm : m[key]? = some value) :
    T.Has (Leaf.make (Path.ofKey key) value) :=
  (h _).mpr ⟨key, value, hm, rfl⟩

theorem Holds.eq_empty (h : Holds .vacant m) : m = ∅ := by
  refine Std.ExtTreeMap.ext_getElem? fun key => ?_
  rw [Std.ExtTreeMap.getElem?_empty]
  cases hm : m[key]? with
  | none => rfl
  | some value => exact absurd (h.has hm) not_has_vacant

theorem Holds.eq_vacant (h : T.Holds ∅) {p : Path} (hT : T.Compact p) : T = .vacant := by
  by_contra hne
  obtain ⟨l, hl⟩ := hT.exists_has hne
  obtain ⟨key, value, hm, _⟩ := (h l).mp hl
  rw [Std.ExtTreeMap.getElem?_empty] at hm
  cases hm

theorem Holds.getElem? (h : T.Holds m) {l : Leaf} (hl : T.Has l) (hk : l.key = Path.ofKey key) :
    m[key]? = some l.value := by
  obtain ⟨k, v, hm, rfl⟩ := (h l).mp hl
  rw [← Path.ofKey_injective (show Path.ofKey k = Path.ofKey key from hk)]
  exact hm

theorem Holds.nested (h : T.Holds m) :
    (∃ l, T.Has l ∧ Path.Nested l.key (Path.ofKey key)) ↔
      ∃ stored v, m[stored]? = some v ∧ Bytes.Nested stored key := by
  constructor
  · rintro ⟨l, hl, hn⟩
    obtain ⟨k, v, hm, rfl⟩ := (h l).mp hl
    exact ⟨k, v, hm, Path.nested_ofKey.mp hn⟩
  · rintro ⟨k, v, hm, hn⟩
    exact ⟨_, h.has hm, Path.nested_ofKey.mpr hn⟩

theorem Holds.set {m' : Entries} (h : T.Holds m)
    (hm' : ∀ k : ByteArray, m'[k]? =
      if key = k then (if value.size = 0 then none else some value) else m[k]?)
    (hT : ∀ l, T'.Has l ↔ (value.size ≠ 0 ∧ l = Leaf.make (Path.ofKey key) value) ∨
      (T.Has l ∧ l.key ≠ Path.ofKey key)) :
    T'.Holds m' := by
  intro l
  rw [hT, h]
  constructor
  · rintro (⟨hv, rfl⟩ | ⟨⟨k, v, hm, rfl⟩, hne⟩)
    · exact ⟨key, value, by rw [hm', if_pos rfl, if_neg hv], rfl⟩
    · have hk : key ≠ k := by
        rintro rfl
        exact hne rfl
      exact ⟨k, v, by rw [hm', if_neg hk]; exact hm, rfl⟩
  · rintro ⟨k, v, hm, rfl⟩
    rw [hm'] at hm
    by_cases e : key = k
    · subst e
      rw [if_pos rfl] at hm
      split at hm
      · cases hm
      · next hv =>
        cases hm
        exact .inl ⟨hv, rfl⟩
    · rw [if_neg e] at hm
      exact .inr ⟨⟨k, v, hm, rfl⟩, fun e' => e (Path.ofKey_injective e').symm⟩

end Tree

end VersionedTrie
