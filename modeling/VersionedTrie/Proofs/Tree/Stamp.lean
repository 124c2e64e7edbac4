import VersionedTrie.Proofs.Tree.Shape
import VersionedTrie.Proofs.Preimage

/-! # Trees up to versions

Giving every node the same version makes trees comparable that were written at different times. A
compact tree is then determined by its leaves (`stamp_eq_of_has`), and since digests leave versions
out, so is its digest (`digest_eq_of_has`).
-/

set_option autoImplicit false

namespace VersionedTrie

namespace Tree

/-- The tree with every node at the given version. -/
def stamp (version : Version) : Tree → Tree
  | vacant => vacant
  | leaf _ l => leaf version l
  | branch _ below => branch version fun n => (below n).stamp version

variable {tree : TreePrefix} {p : Path} {S T : Tree} {version : Version}

theorem digest_branch (v : Version) (below : Nibble → Tree) :
    (branch v below).digest = (joining below).digest := rfl

theorem digestAt_joining (below : Nibble → Tree) (n : Nibble) :
    (joining below).digestAt n = (below n).digest := by
  rw [Branch.digestAt, child?_joining, digest]

theorem digest_stamp (version : Version) (T : Tree) : (T.stamp version).digest = T.digest := by
  induction T with
  | vacant => rfl
  | leaf => rfl
  | branch v below ih =>
    rw [stamp, digest_branch, digest_branch, Branch.digest, Branch.digest]
    refine congrArg Digest.of (Branch.preimage_inj.mpr (funext fun n => ?_))
    rw [digestAt_joining, digestAt_joining]
    exact ih n

/-- A compact tree is determined by its leaves, up to versions. -/
theorem stamp_eq_of_has (hS : S.Compact p) (hT : T.Compact p) (h : ∀ l, S.Has l ↔ T.Has l)
    (version : Version) : S.stamp version = T.stamp version := by
  induction hS generalizing T with
  | vacant =>
    cases T with
    | vacant => rfl
    | _ =>
      obtain ⟨l, hl⟩ := hT.exists_has nofun
      exact absurd ((h l).mpr hl) not_has_vacant
  | @leaf p v l hp =>
    have honly : ∀ m, T.Has m → m = l := fun m hm => has_leaf.mp ((h m).mpr hm)
    cases T with
    | vacant => exact absurd ((h l).mp .leaf) not_has_vacant
    | leaf w m =>
      rw [honly m .leaf]
      rfl
    | branch w below =>
      obtain ⟨a, b, ha, hb, hne⟩ := hT.exists_has_two trivial
      rw [honly a ha, honly b hb] at hne
      exact absurd rfl hne
  | @branch p v below hbelow crowded ih =>
    have hS : Compact p (.branch v below) := .branch hbelow crowded
    obtain ⟨a, b, ha, hb, hne⟩ := hS.exists_has_two trivial
    cases T with
    | vacant => exact absurd ((h a).mp ha) not_has_vacant
    | leaf w m =>
      rw [has_leaf.mp ((h a).mp ha), has_leaf.mp ((h b).mp hb)] at hne
      exact absurd rfl hne
    | branch w below' =>
      rw [stamp, stamp]
      congr 1
      funext n
      refine ih n (hT.child n) fun l => ⟨fun hl => ?_, fun hl => ?_⟩
      · exact hT.has_below ((h l).mp (.branch n hl)) ((hbelow n).prefix_of_has hl)
      · exact hS.has_below ((h l).mpr (.branch n hl)) ((hT.child n).prefix_of_has hl)

theorem digest_eq_of_has (hS : S.Compact p) (hT : T.Compact p) (h : ∀ l, S.Has l ↔ T.Has l) :
    S.digest = T.digest := by
  rw [← digest_stamp 0 S, ← digest_stamp 0 T, stamp_eq_of_has hS hT h]

theorem stamp_eq_self (h : ∀ k x, Owns tree p T k x → k.version = version) :
    T.stamp version = T := by
  induction T generalizing p with
  | vacant => rfl
  | leaf v l =>
    obtain rfl : v = version := h _ _ .leaf
    rfl
  | branch v below ih =>
    obtain rfl : v = version := h _ _ .branch
    rw [stamp]
    congr 1
    funext n
    exact ih n fun k x hk => h k x (.child n hk)

end Tree

end VersionedTrie
