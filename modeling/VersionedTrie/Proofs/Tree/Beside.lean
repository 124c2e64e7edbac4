import VersionedTrie.Proofs.Tree.Shape

/-! # Two trees that differ at one key

Two compact trees whose leaves are the same except at one path have the same shape away from that
path. A branch beside the path stands where it stood (`Owns.branch_stays`). A leaf beside the path
stands where it stood, or higher up if the leaf that it was told apart from there has gone
(`Owns.leaf_stays_or_rises`).
-/

set_option autoImplicit false

namespace VersionedTrie.Tree

/-- The trees have the same leaves but for those whose key is the path. -/
def SameBeside (path : Path) (T T' : Tree) : Prop := ∀ l : Leaf, l.key ≠ path → (T'.Has l ↔ T.Has l)

variable {tree : TreePrefix} {p q path : Path} {T T' : Tree} {j k : NodeKey} {x : Node}
  {b : Branch} {l m : Leaf}

theorem SameBeside.symm (h : SameBeside path T T') : SameBeside path T' T :=
  fun l hl => (h l hl).symm

theorem key_ne_of_off (hq : ¬ q <+: path) (hl : q <+: l.key) : l.key ≠ path := by
  rintro rfl
  exact hq hl

/-! ## Away from the path -/

theorem Forks.of_prefix (h : T.Forks q) (hp : p <+: q) : T.Forks p := by
  obtain ⟨l, m, hl, hm, hne, hql, hqm⟩ := h
  exact ⟨l, m, hl, hm, hne, hp.trans hql, hp.trans hqm⟩

theorem Forks.beside (h : T.Forks q) (hsame : SameBeside path T T') (hq : ¬ q <+: path) :
    T'.Forks q := by
  obtain ⟨l, m, hl, hm, hne, hql, hqm⟩ := h
  exact ⟨l, m, (hsame l (key_ne_of_off hq hql)).mpr hl, (hsame m (key_ne_of_off hq hqm)).mpr hm, hne,
    hql, hqm⟩

/-- A branch beside the path has a branch in its place. -/
theorem Owns.branch_stays (hk : Owns tree [] T k (.branch b)) (hT : T.Compact [])
    (hT' : T'.Compact []) (hsame : SameBeside path T T') (hoff : ¬ k.path <+: path) :
    ∃ j c, Owns tree [] T' j (.branch c) ∧ j.path = k.path := by
  have hforks : T'.Forks k.path := (hk.forks hT rfl).beside hsame hoff
  obtain ⟨l, hl, hkl⟩ : ∃ l, T'.Has l ∧ k.path <+: l.key := by
    obtain ⟨l, _, hl, _, _, hkl, _⟩ := hforks
    exact ⟨l, hl, hkl⟩
  obtain ⟨j, y, hj, hpath⟩ := hT'.exists_owns List.nil_prefix hl hkl
    (fun r _ hr _ => hforks.of_prefix hr) tree
  cases y with
  | branch c => exact ⟨j, c, hj, hpath⟩
  | leaf m =>
    -- two leaves pass the place, so that neither stands there
    obtain ⟨-, -, honly⟩ := hj.has_leaf hT' rfl
    obtain ⟨a, c, ha, hc, hac, hka, hkc⟩ := hforks
    rw [← hpath] at hka hkc
    exact absurd (by rw [honly a ha hka, honly c hc hkc]) hac

/-- Leaves fork at a place that a leaf of the other tree has for itself, only because of the leaf
whose key is the path. -/
theorem Forks.on_path (h : T.Forks q) (hsame : SameBeside path T T')
    (hj : Owns tree [] T' j (.leaf l)) (hT' : T'.Compact []) (hjq : j.path <+: q) : q <+: path := by
  by_contra hq
  obtain ⟨a, c, ha, hc, hac, hja, hjc⟩ := h.beside hsame hq
  obtain ⟨-, -, honly⟩ := hj.has_leaf hT' rfl
  exact hac (by rw [honly a ha (hjq.trans hja), honly c hc (hjq.trans hjc)])

/-- A leaf beside the path stands where it stood, or higher up. -/
theorem Owns.leaf_stays_or_rises (hk : Owns tree [] T k (.leaf l)) (hT : T.Compact [])
    (hT' : T'.Compact []) (hsame : SameBeside path T T') (hoff : ¬ k.path <+: path) :
    ∃ j, Owns tree [] T' j (.leaf l) ∧ j.path <+: k.path := by
  obtain ⟨hl, hkl, -⟩ := hk.has_leaf hT rfl
  obtain ⟨j, hj⟩ := ((hsame l (key_ne_of_off hoff hkl)).mpr hl).exists_owns tree []
  refine ⟨j, hj, ?_⟩
  obtain hjk | hkj := List.prefix_or_prefix_of_prefix (hj.has_leaf hT' rfl).2.1 hkl
  · exact hjk
  · by_contra hne
    have hshort : k.path ≠ j.path := fun e => hne (e ▸ List.prefix_rfl)
    exact hoff ((hj.forks_above hT' List.nil_prefix hkj hshort).on_path hsame.symm hk hT
      List.prefix_rfl)

end VersionedTrie.Tree
