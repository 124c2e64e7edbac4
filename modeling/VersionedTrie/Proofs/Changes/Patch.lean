import VersionedTrie.Proofs.Walk
import VersionedTrie.Trie.Insert

/-! # Changes as patches

The changes of an update lead from one tree to another. `Patches p S T` says that changes do so
below a path `p`: what they write is owned by the new tree, what they retire was owned by the old
one, and every node that only one of the two trees has is accounted for. Going up one level on the
way back to the root turns a patch of a child into a patch of its parent, in three ways: the parent
is written anew (`Patches.raise`), it is dropped because nothing is left below it
(`Patches.vacate`), or it is replaced by the only leaf below it (`Patches.compact`).
-/

set_option autoImplicit false

namespace VersionedTrie

open VersionedTrie.Tree

theorem NodeKey.ofPath_inj {v w : Version} {tree : TreePrefix} {p q : Path} :
    ofPath v tree p = ofPath w tree q ↔ v = w ∧ p = q := by
  constructor
  · intro h
    exact ⟨congrArg NodeKey.version h, by simpa using congrArg NodeKey.path h⟩
  · rintro ⟨rfl, rfl⟩
    rfl

namespace Site

theorem at_eq (s : Site) (depth : Nat) :
    s.at_ depth = .ofPath s.version s.tree (s.path.toPath.take depth) :=
  NodeKey.ext_path rfl rfl (by rw [NodeKey.path_ofPath]; exact StoredPath.toPath_take ..)

theorem at_length (s : Site) {p q : Path} (h : s.path.toPath = p ++ q) :
    s.at_ p.length = .ofPath s.version s.tree p := by
  rw [at_eq, h, List.take_left]

end Site

/-! ## Writing and retiring -/

namespace Changes

@[simp] theorem written_empty (k : NodeKey) : Changes.empty.written[k]? = none := by
  simp [Changes.empty]

@[simp] theorem retired_empty : Changes.empty.retired = [] := rfl

theorem written_write (c : Changes) (k : NodeKey) (x : Node) (j : NodeKey) :
    (c.write k x).written[j]? = if k = j then some x else c.written[j]? := by
  simp [write, Std.ExtTreeMap.getElem?_insert]

theorem written_write_self (c : Changes) (k : NodeKey) (x : Node) :
    (c.write k x).written[k]? = some x := by
  simp [written_write]

theorem written_write_ne (c : Changes) {k j : NodeKey} (x : Node) (h : j ≠ k) :
    (c.write k x).written[j]? = c.written[j]? := by
  simp [written_write, Ne.symm h]

@[simp] theorem retired_write (c : Changes) (k : NodeKey) (x : Node) :
    (c.write k x).retired = c.retired := rfl

theorem retire_eq_cons {c : Changes} {k : NodeKey} (h : c.written[k]? = none) :
    c.retire k = { c with retired := k :: c.retired } := by
  simp [retire, Std.ExtTreeMap.contains_eq_isSome_getElem?, h]

theorem retire_eq_erase {c : Changes} {k : NodeKey} {x : Node} (h : c.written[k]? = some x) :
    c.retire k = { c with written := c.written.erase k } := by
  simp [retire, Std.ExtTreeMap.contains_eq_isSome_getElem?, h]

@[simp] theorem written_retire_empty (k j : NodeKey) :
    (Changes.empty.retire k).written[j]? = none := by
  rw [retire_eq_cons (written_empty k)]
  exact written_empty j

@[simp] theorem retired_retire_empty (k : NodeKey) : (Changes.empty.retire k).retired = [k] := by
  rw [retire_eq_cons (written_empty k), retired_empty]

def Stamped (version : Version) (c : Changes) : Prop :=
  ∀ (k : NodeKey) x, c.written[k]? = some x → k.version = version

section Stamped

variable {version : Version} {c : Changes}

theorem stamped_empty : Changes.empty.Stamped version := by
  intro k x h
  rw [written_empty] at h
  cases h

theorem Stamped.write (h : c.Stamped version) {k : NodeKey} (hk : k.version = version) (x : Node) :
    (c.write k x).Stamped version := by
  intro j y hj
  rw [written_write] at hj
  split at hj
  · next e => rw [← e, hk]
  · exact h j y hj

theorem Stamped.retire (h : c.Stamped version) (k : NodeKey) : (c.retire k).Stamped version := by
  cases hk : c.written[k]? with
  | none =>
    rw [retire_eq_cons hk]
    exact h
  | some x =>
    rw [retire_eq_erase hk]
    intro j y hj
    rw [Std.ExtTreeMap.getElem?_erase] at hj
    split at hj
    · cases hj
    · exact h j y hj

end Stamped

/-- Changes lead from the tree `S` to the tree `T`, both at the path `p`. -/
structure Patches (tree : TreePrefix) (p : Path) (S T : Tree) (c : Changes) : Prop where
  written : ∀ k x, c.written[k]? = some x → Owns tree p T k x
  retired : ∀ k, k ∈ c.retired → ∃ x, Owns tree p S k x
  nodup : c.retired.Nodup
  fresh : ∀ k x, Owns tree p T k x →
    c.written[k]? = some x ∨ (c.written[k]? = none ∧ k ∉ c.retired ∧ Owns tree p S k x)
  stale : ∀ k x, Owns tree p S k x →
    k ∈ c.retired ∨ (c.written[k]? = none ∧ Owns tree p T k x)

/-! ## Going up one level -/

section Level

variable {tree : TreePrefix} {p : Path} {f : Frame} {S T : Tree} {c : Changes}

theorem owns_fill {v : Version} {k : NodeKey} {x : Node} :
    Owns tree p (.branch v (f.fill T)) k x ↔
      (k = .ofPath v tree p ∧ x = .branch (joining (f.fill T))) ∨
        Owns tree (p ++ [f.nibble]) T k x ∨
          ∃ n, n ≠ f.nibble ∧ Owns tree (p ++ [n]) (f.below n) k x := by
  rw [owns_branch]
  refine or_congr Iff.rfl ?_
  constructor
  · rintro ⟨n, h⟩
    by_cases hn : n = f.nibble
    · subst hn
      rw [Frame.fill, Function.update_self] at h
      exact .inl h
    · rw [Frame.fill, Function.update_of_ne hn] at h
      exact .inr ⟨n, hn, h⟩
  · rintro (h | ⟨n, hn, h⟩)
    · exact ⟨f.nibble, by rwa [Frame.fill, Function.update_self]⟩
    · exact ⟨n, by rwa [Frame.fill, Function.update_of_ne hn]⟩

/-- Changes below a nibble say nothing about node keys elsewhere. -/
theorem Patches.untouched {n : Nibble} (h : c.Patches tree (p ++ [n]) S T) {k : NodeKey}
    (hk : ¬ p ++ [n] <+: k.path) : c.written[k]? = none ∧ k ∉ c.retired := by
  constructor
  · cases hw : c.written[k]? with
    | none => rfl
    | some x => exact absurd (h.written k x hw).prefix_path hk
  · intro hr
    obtain ⟨x, hx⟩ := h.retired k hr
    exact hk hx.prefix_path

theorem not_prefix_ofPath (v : Version) (n : Nibble) :
    ¬ p ++ [n] <+: (NodeKey.ofPath v tree p).path :=
  fun h => ne_ofPath h v rfl

theorem not_prefix_of_owns {n m : Nibble} (hnm : m ≠ n) {T : Tree} {k : NodeKey} {x : Node}
    (h : Owns tree (p ++ [m]) T k x) : ¬ p ++ [n] <+: k.path :=
  fun hn => hnm (Path.nibble_eq h.prefix_path hn)

/-- The parent is retired, and nothing is known of its place yet. -/
theorem Patches.retire_parent (h : c.Patches tree (p ++ [f.nibble]) S T) (v : Version) :
    c.retire (.ofPath v tree p) = { c with retired := .ofPath v tree p :: c.retired } :=
  retire_eq_cons (h.untouched (not_prefix_ofPath v _)).1

theorem Patches.retire_written (h : c.Patches tree (p ++ [f.nibble]) S T) (v w : Version) :
    (c.retire (.ofPath v tree p)).written[NodeKey.ofPath w tree p]? = none := by
  rw [h.retire_parent]
  exact (h.untouched (not_prefix_ofPath w _)).1

/-- The parent is written anew. -/
theorem Patches.raise (h : c.Patches tree (p ++ [f.nibble]) S T) (v w : Version) :
    ((c.retire (.ofPath v tree p)).write (.ofPath w tree p) (.branch (joining (f.fill T)))).Patches
      tree p (.branch v (f.fill S)) (.branch w (f.fill T)) := by
  have hv : c.written[NodeKey.ofPath v tree p]? = none ∧ NodeKey.ofPath v tree p ∉ c.retired :=
    h.untouched (not_prefix_ofPath v _)
  rw [h.retire_parent]
  constructor
  · intro k x hk
    rw [written_write] at hk
    split at hk
    · next e =>
      cases hk
      rw [← e]
      exact .branch
    · exact owns_fill.mpr (.inr (.inl (h.written k x hk)))
  · intro k hk
    obtain rfl | hk := List.mem_cons.mp hk
    · exact ⟨_, .branch⟩
    · obtain ⟨x, hx⟩ := h.retired k hk
      exact ⟨x, owns_fill.mpr (.inr (.inl hx))⟩
  · exact List.nodup_cons.mpr ⟨hv.2, h.nodup⟩
  · intro k x hk
    rw [retired_write, List.mem_cons, not_or]
    obtain ⟨rfl, rfl⟩ | hk | ⟨n, hn, hk⟩ := owns_fill.mp hk
    · exact .inl (written_write_self ..)
    · have hne : ∀ version, k ≠ .ofPath version tree p := ne_ofPath hk.prefix_path
      rw [written_write_ne _ _ (hne w)]
      obtain hw | ⟨hw, hr, hs⟩ := h.fresh k x hk
      · exact .inl hw
      · exact .inr ⟨hw, ⟨hne v, hr⟩, owns_fill.mpr (.inr (.inl hs))⟩
    · have hne : ∀ version, k ≠ .ofPath version tree p := ne_ofPath hk.prefix_path
      have hu := h.untouched (not_prefix_of_owns hn hk)
      rw [written_write_ne _ _ (hne w)]
      exact .inr ⟨hu.1, ⟨hne v, hu.2⟩, owns_fill.mpr (.inr (.inr ⟨n, hn, hk⟩))⟩
  · intro k x hk
    rw [retired_write, List.mem_cons]
    obtain ⟨rfl, rfl⟩ | hk | ⟨n, hn, hk⟩ := owns_fill.mp hk
    · exact .inl (.inl rfl)
    · rw [written_write_ne _ _ (ne_ofPath hk.prefix_path w)]
      obtain hr | ⟨hw, ht⟩ := h.stale k x hk
      · exact .inl (.inr hr)
      · exact .inr ⟨hw, owns_fill.mpr (.inr (.inl ht))⟩
    · rw [written_write_ne _ _ (ne_ofPath hk.prefix_path w)]
      have hu := h.untouched (not_prefix_of_owns hn hk)
      exact .inr ⟨hu.1, owns_fill.mpr (.inr (.inr ⟨n, hn, hk⟩))⟩

/-- Nothing is left below the parent. -/
theorem Patches.vacate (h : c.Patches tree (p ++ [f.nibble]) S T) (v : Version)
    (hv : ∀ n, f.fill T n = .vacant) :
    (c.retire (.ofPath v tree p)).Patches tree p (.branch v (f.fill S)) .vacant := by
  have hT : T = .vacant := by
    have := hv f.nibble
    rwa [Frame.fill, Function.update_self] at this
  subst hT
  rw [h.retire_parent]
  constructor
  · exact fun k x hk => absurd (h.written k x hk) not_owns_vacant
  · intro k hk
    obtain rfl | hk := List.mem_cons.mp hk
    · exact ⟨_, .branch⟩
    · obtain ⟨x, hx⟩ := h.retired k hk
      exact ⟨x, owns_fill.mpr (.inr (.inl hx))⟩
  · exact List.nodup_cons.mpr ⟨(h.untouched (not_prefix_ofPath v _)).2, h.nodup⟩
  · exact fun k x hk => absurd hk not_owns_vacant
  · intro k x hk
    left
    obtain ⟨rfl, rfl⟩ | hk | ⟨n, hn, hk⟩ := owns_fill.mp hk
    · exact List.mem_cons_self
    · obtain hr | ⟨_, ht⟩ := h.stale k x hk
      · exact List.mem_cons_of_mem _ hr
      · exact absurd ht not_owns_vacant
    · have := hv n
      rw [Frame.fill, Function.update_of_ne hn] at this
      rw [this] at hk
      exact absurd hk not_owns_vacant

theorem owns_lone {w u : Version} {below : Nibble → Tree} {n : Nibble} {l : Leaf}
    (hn : below n = .leaf u l) (hother : ∀ m, m ≠ n → below m = .vacant) {k : NodeKey} {x : Node} :
    Owns tree p (.branch w below) k x ↔
      (k = .ofPath w tree p ∧ x = .branch (joining below)) ∨
        (k = .ofPath u tree (p ++ [n]) ∧ x = .leaf l) := by
  rw [owns_branch]
  refine or_congr Iff.rfl ⟨?_, ?_⟩
  · rintro ⟨m, h⟩
    by_cases hm : m = n
    · subst hm
      rw [hn] at h
      exact owns_leaf.mp h
    · rw [hother m hm] at h
      exact absurd h not_owns_vacant
  · rintro ⟨rfl, rfl⟩
    exact ⟨n, by rw [hn]; exact .leaf⟩

/-- Instead of a branch with only one leaf below it, that leaf is written in the branch's place. -/
theorem Patches.compact {w u : Version} {below : Nibble → Tree} {n : Nibble} {l : Leaf}
    (hn : below n = .leaf u l) (hother : ∀ m, m ≠ n → below m = .vacant)
    (hc : c.written[NodeKey.ofPath w tree p]? = none)
    (h : (c.write (.ofPath w tree p) (.branch (joining below))).Patches tree p S
      (.branch w below)) :
    ((c.retire (.ofPath u tree (p ++ [n]))).write (.ofPath w tree p) (.leaf l)).Patches
      tree p S (.leaf w l) := by
  have hne : NodeKey.ofPath u tree (p ++ [n]) ≠ .ofPath w tree p :=
    ne_ofPath (n := n) (by simp) w
  have hleaf : Owns tree p (.branch w below) (.ofPath u tree (p ++ [n])) (.leaf l) :=
    (owns_lone hn hother).mpr (.inr ⟨rfl, rfl⟩)
  -- every other node key that the changes write is the leaf's own
  have hw : ∀ k x, c.written[k]? = some x → k = NodeKey.ofPath u tree (p ++ [n]) := by
    intro k x hk
    have hkp : k ≠ .ofPath w tree p := by
      rintro rfl
      rw [hc] at hk
      cases hk
    have := h.written k x (by rwa [written_write_ne _ _ hkp])
    obtain ⟨e, _⟩ | ⟨e, _⟩ := (owns_lone hn hother).mp this
    · exact absurd e hkp
    · exact e
  have hstale : ∀ k x, Owns tree p S k x → k ∈ c.retired ∨ k = .ofPath u tree (p ++ [n]) ∧
      c.written[k]? = none := by
    intro k x hk
    obtain hr | ⟨hk', ht⟩ := h.stale k x hk
    · exact .inl hr
    · obtain ⟨rfl, _⟩ | ⟨rfl, _⟩ := (owns_lone hn hother).mp ht
      · rw [written_write_self] at hk'
        cases hk'
      · rw [written_write_ne _ _ hne] at hk'
        exact .inr ⟨rfl, hk'⟩
  cases hl : c.written[NodeKey.ofPath u tree (p ++ [n])]? with
  | some y =>
    rw [retire_eq_erase hl]
    constructor
    · intro k x hk
      rw [written_write] at hk
      split at hk
      · next e =>
        cases hk
        rw [← e]
        exact .leaf
      · rw [Std.ExtTreeMap.getElem?_erase] at hk
        split at hk
        · cases hk
        · next e => exact absurd (by rw [hw k x hk]; exact Std.ReflCmp.compare_self) e
    · exact h.retired
    · exact h.nodup
    · rintro k x hk
      obtain ⟨rfl, rfl⟩ := owns_leaf.mp hk
      exact .inl (written_write_self ..)
    · intro k x hk
      left
      obtain hr | ⟨rfl, hk'⟩ := hstale k x hk
      · exact hr
      · rw [hl] at hk'
        cases hk'
  | none =>
    rw [retire_eq_cons hl]
    have hf := h.fresh _ _ hleaf
    rw [written_write_ne _ _ hne, hl] at hf
    obtain hf | ⟨_, hr, hs⟩ := hf
    · cases hf
    constructor
    · intro k x hk
      rw [written_write] at hk
      split at hk
      · next e =>
        cases hk
        rw [← e]
        exact .leaf
      · have hk' : c.written[k]? = some x := hk
        rw [hw k x hk', hl] at hk'
        cases hk'
    · intro k hk
      obtain rfl | hk := List.mem_cons.mp hk
      · exact ⟨_, hs⟩
      · exact h.retired k hk
    · exact List.nodup_cons.mpr ⟨hr, h.nodup⟩
    · rintro k x hk
      obtain ⟨rfl, rfl⟩ := owns_leaf.mp hk
      exact .inl (written_write_self ..)
    · intro k x hk
      left
      obtain hr | ⟨rfl, _⟩ := hstale k x hk
      · exact List.mem_cons_of_mem _ hr
      · exact List.mem_cons_self

end Level

end Changes

end VersionedTrie
