import VersionedTrie.Proofs.Tree.Basic

/-! # The shape of a compact tree

Which nodes a compact tree has follows from its leaves alone. A path at which leaves fork has a
branch, a path that only one leaf passes has that leaf, if the leaves fork at every shorter path;
and there are no other nodes.
-/

set_option autoImplicit false

namespace VersionedTrie.Tree

/-- Two leaves with different keys pass a path. -/
def Forks (T : Tree) (q : Path) : Prop :=
  ∃ l m, T.Has l ∧ T.Has m ∧ l.key ≠ m.key ∧ q <+: l.key ∧ q <+: m.key

variable {tree : TreePrefix} {p q : Path} {T : Tree} {j k : NodeKey} {x y : Node}

theorem Forks.branch {below : Nibble → Tree} {n : Nibble} (h : (below n).Forks q)
    (version : Version) : (Tree.branch version below).Forks q := by
  obtain ⟨l, m, hl, hm, hne, hql, hqm⟩ := h
  exact ⟨l, m, .branch n hl, .branch n hm, hne, hql, hqm⟩

/-- Leaves that pass a path below a slot stand below that slot. -/
theorem Compact.has_below {version : Version} {below : Nibble → Tree}
    (h : Compact p (.branch version below)) {n : Nibble} {l : Leaf}
    (hl : (Tree.branch version below).Has l) (hn : p ++ [n] <+: l.key) : (below n).Has l := by
  obtain ⟨m, hm⟩ := has_branch.mp hl
  obtain rfl := Path.nibble_eq ((h.child m).prefix_of_has hm) hn
  exact hm

theorem Forks.below {version : Version} {below : Nibble → Tree}
    (h : (Tree.branch version below).Forks q) (hT : Compact p (.branch version below)) {n : Nibble}
    (hn : p ++ [n] <+: q) : (below n).Forks q := by
  obtain ⟨l, m, hl, hm, hne, hql, hqm⟩ := h
  exact ⟨l, m, hT.has_below hl (hn.trans hql), hT.has_below hm (hn.trans hqm), hne, hql, hqm⟩

theorem Compact.forks (h : T.Compact p) (hT : T.IsBranch) : T.Forks p := by
  obtain ⟨l, m, hl, hm, hne⟩ := h.exists_has_two hT
  exact ⟨l, m, hl, hm, hne, h.prefix_of_has hl, h.prefix_of_has hm⟩

theorem exists_nibble_of_prefix (h : p <+: q) (hne : p ≠ q) : ∃ n, p ++ [n] <+: q := by
  obtain ⟨r, rfl⟩ := h
  cases r with
  | nil => exact absurd (List.append_nil p).symm hne
  | cons n r => exact ⟨n, r, by simp⟩

theorem Owns.forks_above (hk : Owns tree p T k x) (hT : T.Compact p) (hp : p <+: q)
    (hq : q <+: k.path) (hne : q ≠ k.path) : T.Forks q := by
  induction hk with
  | leaf =>
    rw [NodeKey.path_ofPath] at hq hne
    exact absurd (hq.eq_of_length_le hp.length_le) hne
  | branch =>
    rw [NodeKey.path_ofPath] at hq hne
    exact absurd (hq.eq_of_length_le hp.length_le) hne
  | @child p version below n k x hk ih =>
    by_cases e : p = q
    · subst e
      exact hT.forks trivial
    · obtain ⟨m, hm⟩ := exists_nibble_of_prefix hp e
      obtain rfl := Path.nibble_eq (hm.trans hq) hk.prefix_path
      exact (ih (hT.child m) hm hq hne).branch version

theorem Owns.forks (hk : Owns tree p T k x) (hT : T.Compact p) {b : Branch} (hx : x = .branch b) :
    T.Forks k.path := by
  induction hk with
  | leaf => cases hx
  | branch =>
    rw [NodeKey.path_ofPath]
    exact hT.forks trivial
  | @child p version below n k x hk ih => exact (ih (hT.child n) hx).branch version

theorem Owns.has_leaf (hk : Owns tree p T k x) (hT : T.Compact p) {l : Leaf} (hx : x = .leaf l) :
    T.Has l ∧ k.path <+: l.key ∧ ∀ m, T.Has m → k.path <+: m.key → m = l := by
  induction hk with
  | leaf =>
    cases hx
    rw [NodeKey.path_ofPath]
    exact ⟨.leaf, hT.prefix_of_has .leaf, fun m hm _ => Tree.has_leaf.mp hm⟩
  | branch => cases hx
  | @child p version below n k x hk ih =>
    obtain ⟨hl, hpath, honly⟩ := ih (hT.child n) hx
    refine ⟨.branch n hl, hpath, fun m hm hkm => honly m (hT.has_below hm ?_) hkm⟩
    exact hk.prefix_path.trans hkm

theorem Owns.exists_has (hk : Owns tree p T k x) (hT : T.Compact p) :
    ∃ l, T.Has l ∧ k.path <+: l.key := by
  cases x with
  | leaf l =>
    obtain ⟨hl, hpath, _⟩ := hk.has_leaf hT rfl
    exact ⟨l, hl, hpath⟩
  | branch b =>
    obtain ⟨l, _, hl, _, _, hpath, _⟩ := hk.forks hT rfl
    exact ⟨l, hl, hpath⟩

/-- Where leaves fork at every shorter path, a path that a leaf passes has a node. -/
theorem Compact.exists_owns (hT : T.Compact p) (hp : p <+: q) {l : Leaf} (hl : T.Has l)
    (hq : q <+: l.key) (hforks : ∀ r, p <+: r → r <+: q → r ≠ q → T.Forks r) (tree : TreePrefix) :
    ∃ k x, Owns tree p T k x ∧ k.path = q := by
  induction hT with
  | vacant => exact absurd hl not_has_vacant
  | @leaf p version m _ =>
    have e : p = q := by
      by_contra e
      obtain ⟨l, l', hl, hl', hne, _⟩ := hforks p List.prefix_rfl hp e
      rw [Tree.has_leaf.mp hl, Tree.has_leaf.mp hl'] at hne
      exact hne rfl
    subst e
    exact ⟨_, _, .leaf, NodeKey.path_ofPath version tree p⟩
  | @branch p version below hbelow crowded ih =>
    have hT : Compact p (.branch version below) := .branch hbelow crowded
    by_cases e : p = q
    · subst e
      exact ⟨_, _, .branch, NodeKey.path_ofPath version tree p⟩
    · obtain ⟨n, hn⟩ := exists_nibble_of_prefix hp e
      obtain ⟨k, x, hk, hpath⟩ := ih n hn (hT.has_below hl (hn.trans hq)) fun r hr hrq hne =>
        (hforks r ((List.prefix_append p [n]).trans hr) hrq hne).below hT hr
      exact ⟨k, x, .child n hk, hpath⟩

theorem Owns.eq_of_path (hj : Owns tree p T j y) (hk : Owns tree p T k x) (h : j.path = k.path) :
    j = k := by
  induction hj with
  | leaf => exact (owns_leaf.mp hk).1.symm
  | @branch p version below =>
    obtain ⟨rfl, _⟩ | ⟨n, hn⟩ := owns_branch.mp hk
    · rfl
    · have hlong := hn.prefix_path.length_le
      rw [← h, NodeKey.path_ofPath, List.length_append, List.length_singleton] at hlong
      omega
  | @child p version below n j y hj ih =>
    obtain ⟨rfl, _⟩ | ⟨m, hm⟩ := owns_branch.mp hk
    · have hlong := hj.prefix_path.length_le
      rw [h, NodeKey.path_ofPath, List.length_append, List.length_singleton] at hlong
      omega
    · have hmj := hm.prefix_path
      rw [← h] at hmj
      obtain rfl := Path.nibble_eq hj.prefix_path hmj
      exact ih hm h

/-! ## Leaves at their places -/

section Leaves

variable {l m : Leaf}

theorem Has.exists_owns (h : T.Has l) (tree : TreePrefix) (p : Path) :
    ∃ k, Owns tree p T k (.leaf l) := by
  induction h generalizing p with
  | leaf => exact ⟨_, .leaf⟩
  | branch n _ ih =>
    obtain ⟨k, hk⟩ := ih (p ++ [n])
    exact ⟨k, .child n hk⟩

/-- No node stands below a leaf. -/
theorem Owns.path_eq_of_leaf (hj : Owns tree p T j (.leaf l)) (hk : Owns tree p T k x)
    (hT : T.Compact p) (h : j.path <+: k.path) : j.path = k.path := by
  by_contra hne
  obtain ⟨a, c, ha, hc, hac, hja, hjc⟩ := hk.forks_above hT hj.prefix_path h hne
  obtain ⟨-, -, honly⟩ := hj.has_leaf hT rfl
  exact hac (by rw [honly a ha hja, honly c hc hjc])

/-- On one path there is one leaf at most. -/
theorem Owns.eq_of_on_path (hj : Owns tree p T j (.leaf l)) (hk : Owns tree p T k (.leaf m))
    (hT : T.Compact p) (hjq : j.path <+: q) (hkq : k.path <+: q) : j = k := by
  obtain h | h := List.prefix_or_prefix_of_prefix hjq hkq
  · exact hj.eq_of_path hk (hj.path_eq_of_leaf hk hT h)
  · exact (hk.eq_of_path hj (hk.path_eq_of_leaf hj hT h)).symm

/-- A leaf stands under one node key only. -/
theorem Owns.eq_of_leaf (hT : T.Compact p) (hj : Owns tree p T j (.leaf l))
    (hk : Owns tree p T k (.leaf l)) : j = k :=
  hj.eq_of_on_path hk hT (hj.has_leaf hT rfl).2.1 (hk.has_leaf hT rfl).2.1

end Leaves

end VersionedTrie.Tree
