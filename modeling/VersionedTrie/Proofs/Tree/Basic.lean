import VersionedTrie.NodeKey.Basic
import VersionedTrie.Node.Basic
import Mathlib.Logic.Function.Basic

/-! # Trees of nodes

The nodes that are reachable from one root form a tree: what stands at a path is nothing, a leaf or
a branch, each node with the version it was written at. A trie handle, its store and its cache are
read as such a tree, and everything that is said of tries is said of trees first.

* `slot`: what a parent records of a tree; a branch records the slots of the trees below it.
* `Has`: the leaves of a tree.
* `Compact`: every leaf stands at the shortest path that tells it from the others.
* `Owns`: the node keys under which the nodes of a tree are found. One node key is owned with one
  node (`Owns.unique`), and trees below different nibbles own different node keys.
-/

set_option autoImplicit false

namespace VersionedTrie

/-! ## Paths that part -/

namespace Path

/-- A path goes on in one way only. -/
theorem nibble_eq {p q : Path} {n m : Nibble} (hn : p ++ [n] <+: q) (hm : p ++ [m] <+: q) :
    n = m := by
  have h := List.prefix_of_prefix_length_le hn hm (by simp)
  rw [List.prefix_append_right_inj, List.cons_prefix_cons] at h
  exact h.1

/-- Two paths part if they go on with different nibbles after a common beginning. -/
def Parts (p q : Path) : Prop :=
  ∃ r n m, n ≠ m ∧ r ++ [n] <+: p ∧ r ++ [m] <+: q

theorem Parts.symm {p q : Path} (h : Parts p q) : Parts q p := by
  obtain ⟨r, n, m, hnm, hp, hq⟩ := h
  exact ⟨r, m, n, hnm.symm, hq, hp⟩

theorem Parts.extend {p p' q q' : Path} (h : Parts p q) (hp : p <+: p') (hq : q <+: q') :
    Parts p' q' := by
  obtain ⟨r, n, m, hnm, hn, hm⟩ := h
  exact ⟨r, n, m, hnm, hn.trans hp, hm.trans hq⟩

theorem Parts.not_prefix {p q : Path} (h : Parts p q) : ¬ p <+: q := by
  obtain ⟨r, n, m, hnm, hn, hm⟩ := h
  exact fun hpq => hnm (nibble_eq (hn.trans hpq) hm)

/-- One path is a proper first part of the other. -/
def Nested (p q : Path) : Prop := p ≠ q ∧ (p <+: q ∨ q <+: p)

theorem Parts.not_nested {p q : Path} (h : Parts p q) : ¬ Nested p q :=
  fun hn => hn.2.elim h.not_prefix h.symm.not_prefix

theorem Parts.ne {p q : Path} (h : Parts p q) : p ≠ q := by
  rintro rfl
  exact h.not_prefix List.prefix_rfl

end Path

/-! ## Branches by their children -/

namespace Branch

theorem ext_child {a b : Branch} (h : ∀ n, a.child? n = b.child? n) : a = b := by
  obtain ⟨a⟩ := a
  obtain ⟨b⟩ := b
  congr 1
  apply Vector.ext
  intro i hi
  exact h ⟨i, hi⟩

theorem isEmpty_children {b : Branch} : b.children.isEmpty = true ↔ ∀ n, b.child? n = none := by
  rw [List.isEmpty_iff, List.eq_nil_iff_forall_not_mem]
  constructor
  · intro h n
    cases hc : b.child? n with
    | none => rfl
    | some c => exact absurd (mem_children.mpr hc) (h (n, c))
  · rintro h ⟨n, c⟩ hm
    rw [mem_children, h n] at hm
    cases hm

theorem nodup_children (b : Branch) : (b.children.map Prod.fst).Nodup := by
  have h : b.children.map Prod.fst = (List.finRange 16).filter fun n => (b.child? n).isSome := by
    rw [children, List.map_filterMap, ← List.filterMap_eq_filter]
    congr 1
    funext n
    cases hc : b.child? n <;> simp [Option.guard, hc]
  rw [h]
  exact (List.nodup_finRange 16).filter _

theorem onlyLeaf?_eq_some {b : Branch} {n : Nibble} {c : Child} :
    b.onlyLeaf? = some (n, c) ↔
      b.child? n = some c ∧ c.leaf = true ∧ ∀ m, m ≠ n → b.child? m = none := by
  unfold onlyLeaf?
  constructor
  · intro h
    split at h
    · next m d hb =>
      split at h
      · next hleaf =>
        cases h
        refine ⟨mem_children.mp (by rw [hb]; simp), hleaf, fun m hm => ?_⟩
        cases hc : b.child? m with
        | none => rfl
        | some d =>
          have := mem_children.mpr hc
          rw [hb, List.mem_singleton, Prod.mk.injEq] at this
          exact absurd this.1 hm
      · cases h
    · cases h
  · rintro ⟨hc, hleaf, hother⟩
    have hnodup := b.nodup_children
    have hmem : ∀ p, p ∈ b.children ↔ p = (n, c) := by
      rintro ⟨m, d⟩
      rw [mem_children, Prod.mk.injEq]
      constructor
      · intro hd
        by_cases hm : m = n
        · subst hm
          rw [hc] at hd
          exact ⟨rfl, (Option.some.inj hd).symm⟩
        · rw [hother m hm] at hd
          cases hd
      · rintro ⟨rfl, rfl⟩
        exact hc
    have hb : b.children = [(n, c)] := by
      match hl : b.children with
      | [] => rw [hl] at hmem; exact absurd ((hmem (n, c)).mpr rfl) (by simp)
      | [p] => rw [hl] at hmem; rw [(hmem p).mp (by simp)]
      | p :: q :: r =>
        rw [hl] at hmem hnodup
        have hp := (hmem p).mp (by simp)
        have hq := (hmem q).mp (by simp)
        rw [hp, hq] at hnodup
        simp at hnodup
    rw [hb]
    simp [hleaf]

end Branch

/-! ## Trees -/

inductive Tree where
  | vacant
  | leaf (version : Version) (l : Leaf)
  | branch (version : Version) (below : Nibble → Tree)

namespace Tree

/-- What a parent records of a tree that stands in one of its slots. -/
def slot : Tree → Option Child
  | vacant => none
  | leaf version l => some ⟨l.digest, version, true⟩
  | branch version below =>
    some ⟨Branch.digest ⟨Vector.ofFn fun n => (below n).slot⟩, version, false⟩

/-- The branch above the given trees. -/
def joining (below : Nibble → Tree) : Branch := ⟨Vector.ofFn fun n => (below n).slot⟩

def version? : Tree → Option Version
  | vacant => none
  | leaf version _ => some version
  | branch version _ => some version

def node? : Tree → Option Node
  | vacant => none
  | leaf _ l => some (.leaf l)
  | branch _ below => some (.branch (joining below))

/-- The node key of a tree's own node, at the given path. -/
def key? (tree : TreePrefix) (p : Path) (T : Tree) : Option NodeKey :=
  T.version?.map fun version => .ofPath version tree p

def digest (T : Tree) : Digest := T.slot.elim Digest.placeholder (·.digest)

def IsBranch : Tree → Prop
  | branch _ _ => True
  | _ => False

@[simp] theorem child?_joining (below : Nibble → Tree) (n : Nibble) :
    (joining below).child? n = (below n).slot := by
  simp [joining, Branch.child?]

theorem slot_eq {T : Tree} {x : Node} {version : Version} (hx : T.node? = some x)
    (hv : T.version? = some version) : T.slot = some (x.asChild version) := by
  cases T with
  | vacant => cases hx
  | leaf => cases hx; cases hv; rfl
  | branch => cases hx; cases hv; rfl

theorem slot_eq_none {T : Tree} : T.slot = none ↔ T = vacant := by
  cases T <;> simp [slot]

theorem version?_eq_none {T : Tree} : T.version? = none ↔ T = vacant := by
  cases T <;> simp [version?]

theorem node?_eq_none {T : Tree} : T.node? = none ↔ T = vacant := by
  cases T <;> simp [node?]

theorem key?_of_node? {T : Tree} {x : Node} (h : T.node? = some x) (tree : TreePrefix) (p : Path) :
    ∃ k, T.key? tree p = some k := by
  cases T with
  | vacant => cases h
  | leaf version l => exact ⟨_, rfl⟩
  | branch version below => exact ⟨_, rfl⟩

/-- A tree that does not count as the one without entries has a root. -/
theorem exists_node?_of_digest {T : Tree} (h : T.digest ≠ Digest.placeholder) :
    ∃ x, T.node? = some x := by
  refine Option.ne_none_iff_exists'.mp fun hn => h ?_
  rw [node?_eq_none.mp hn]
  rfl

theorem digest_eq {T : Tree} {x : Node} (hx : T.node? = some x) : T.digest = x.digest := by
  cases T with
  | vacant => cases hx
  | leaf => cases hx; rfl
  | branch => cases hx; rfl

theorem set_joining (below : Nibble → Tree) (n : Nibble) {T : Tree} {c : Child}
    (h : T.slot = some c) : (joining below).set n c = joining (Function.update below n T) := by
  apply Branch.ext_child
  intro m
  rw [Branch.child?_set, child?_joining, child?_joining]
  by_cases hm : n = m
  · subst hm
    simp [h]
  · simp [hm, Function.update_of_ne (Ne.symm hm)]

theorem remove_joining (below : Nibble → Tree) (n : Nibble) :
    (joining below).remove n = joining (Function.update below n vacant) := by
  apply Branch.ext_child
  intro m
  rw [Branch.child?_remove, child?_joining, child?_joining]
  by_cases hm : n = m
  · subst hm
    simp [slot]
  · simp [hm, Function.update_of_ne (Ne.symm hm)]

theorem isEmpty_joining {below : Nibble → Tree} :
    (joining below).children.isEmpty = true ↔ ∀ n, below n = vacant := by
  simp only [Branch.isEmpty_children, child?_joining, slot_eq_none]

/-! ## Leaves -/

inductive Has (l : Leaf) : Tree → Prop
  | leaf {version : Version} : Has l (.leaf version l)
  | branch {version : Version} {below : Nibble → Tree} (n : Nibble) (h : Has l (below n)) :
    Has l (.branch version below)

theorem not_has_vacant {l : Leaf} : ¬ vacant.Has l := nofun

theorem has_leaf {version : Version} {l m : Leaf} : (leaf version m).Has l ↔ l = m := by
  constructor
  · rintro ⟨⟩
    rfl
  · rintro rfl
    exact .leaf

theorem has_branch {version : Version} {below : Nibble → Tree} {l : Leaf} :
    (branch version below).Has l ↔ ∃ n, (below n).Has l := by
  constructor
  · rintro (_ | ⟨n, h⟩)
    exact ⟨n, h⟩
  · rintro ⟨n, h⟩
    exact .branch n h

theorem has_branch_update {version : Version} {below : Nibble → Tree} {n : Nibble} {T : Tree}
    {l : Leaf} : (branch version (Function.update below n T)).Has l ↔
      T.Has l ∨ ∃ m, m ≠ n ∧ (below m).Has l := by
  rw [has_branch]
  constructor
  · rintro ⟨m, h⟩
    by_cases hm : m = n
    · subst hm
      rw [Function.update_self] at h
      exact .inl h
    · rw [Function.update_of_ne hm] at h
      exact .inr ⟨m, hm, h⟩
  · rintro (h | ⟨m, hm, h⟩)
    · exact ⟨n, by rwa [Function.update_self]⟩
    · exact ⟨m, by rwa [Function.update_of_ne hm]⟩

/-! ## Shape -/

/-- More than one leaf stands below a branch: a branch is there, or two trees. -/
def Crowded (below : Nibble → Tree) : Prop :=
  (∃ n, (below n).IsBranch) ∨ ∃ n m, n ≠ m ∧ below n ≠ vacant ∧ below m ≠ vacant

/-- The tree at a path: the keys of its leaves begin with the path, and a branch stands only where
it has more than one leaf to tell apart. -/
inductive Compact : Path → Tree → Prop
  | vacant {p : Path} : Compact p .vacant
  | leaf {p : Path} {version : Version} {l : Leaf} (h : p <+: l.key) :
    Compact p (.leaf version l)
  | branch {p : Path} {version : Version} {below : Nibble → Tree}
    (h : ∀ n, Compact (p ++ [n]) (below n)) (crowded : Crowded below) :
    Compact p (.branch version below)

theorem Compact.child {p : Path} {version : Version} {below : Nibble → Tree}
    (h : Compact p (.branch version below)) (n : Nibble) : Compact (p ++ [n]) (below n) := by
  obtain _ | _ | ⟨h, _⟩ := h
  exact h n

theorem Compact.crowded {p : Path} {version : Version} {below : Nibble → Tree}
    (h : Compact p (.branch version below)) : Crowded below := by
  obtain _ | _ | ⟨_, h⟩ := h
  exact h

theorem Compact.prefix_of_has {p : Path} {T : Tree} (h : T.Compact p) {l : Leaf} (hl : T.Has l) :
    p <+: l.key := by
  induction h with
  | vacant => exact absurd hl not_has_vacant
  | leaf h =>
    rw [has_leaf.mp hl]
    exact h
  | branch _ _ ih =>
    obtain ⟨n, hl⟩ := has_branch.mp hl
    exact (List.prefix_append _ _).trans (ih n hl)

theorem Compact.key_ne {p : Path} {version : Version} {below : Nibble → Tree}
    (h : Compact p (.branch version below)) {l : Leaf} (hl : (Tree.branch version below).Has l) :
    l.key ≠ p := by
  obtain ⟨n, hl⟩ := has_branch.mp hl
  have hp := (h.child n).prefix_of_has hl
  rintro rfl
  have := hp.length_le
  rw [List.length_append, List.length_singleton] at this
  omega

theorem Compact.exists_has {p : Path} {T : Tree} (h : T.Compact p) (hT : T ≠ .vacant) :
    ∃ l, T.Has l := by
  induction h with
  | vacant => exact absurd rfl hT
  | leaf => exact ⟨_, .leaf⟩
  | branch _ crowded ih =>
    obtain ⟨n, hn⟩ | ⟨n, _, _, hn, _⟩ := crowded
    · obtain ⟨l, hl⟩ := ih n (by rintro e; rw [e] at hn; exact hn)
      exact ⟨l, .branch n hl⟩
    · obtain ⟨l, hl⟩ := ih n hn
      exact ⟨l, .branch n hl⟩

theorem Compact.exists_has_two {p : Path} {T : Tree} (h : T.Compact p) (hT : T.IsBranch) :
    ∃ l m, T.Has l ∧ T.Has m ∧ l.key ≠ m.key := by
  induction h with
  | vacant => exact absurd hT id
  | leaf => exact absurd hT id
  | branch hb crowded ih =>
    obtain ⟨n, hn⟩ | ⟨n, m, hnm, hn, hm⟩ := crowded
    · obtain ⟨l, m, hl, hm, hlm⟩ := ih n hn
      exact ⟨l, m, .branch n hl, .branch n hm, hlm⟩
    · obtain ⟨l, hl⟩ := (hb n).exists_has hn
      obtain ⟨l', hl'⟩ := (hb m).exists_has hm
      refine ⟨l, l', .branch n hl, .branch m hl', fun e => hnm ?_⟩
      have hp := (hb m).prefix_of_has hl'
      rw [← e] at hp
      exact Path.nibble_eq ((hb n).prefix_of_has hl) hp

theorem Crowded.update {below : Nibble → Tree} (h : Crowded below) (n : Nibble) {T : Tree}
    (hT : T ≠ vacant) (hb : (below n).IsBranch → T.IsBranch) :
    Crowded (Function.update below n T) := by
  obtain ⟨m, hm⟩ | ⟨m, k, hmk, hm, hk⟩ := h
  · refine .inl ⟨m, ?_⟩
    by_cases e : m = n
    · subst e
      rw [Function.update_self]
      exact hb hm
    · rwa [Function.update_of_ne e]
  · have keep : ∀ i, below i ≠ vacant → Function.update below n T i ≠ vacant := by
      intro i hi
      by_cases e : i = n
      · subst e
        rwa [Function.update_self]
      · rwa [Function.update_of_ne e]
    exact .inr ⟨m, k, hmk, keep m hm, keep k hk⟩

/-! ## Node keys -/

/-- The node keys of a tree at a path, with the nodes found under them. -/
inductive Owns (tree : TreePrefix) : Path → Tree → NodeKey → Node → Prop
  | leaf {p : Path} {version : Version} {l : Leaf} :
    Owns tree p (.leaf version l) (.ofPath version tree p) (.leaf l)
  | branch {p : Path} {version : Version} {below : Nibble → Tree} :
    Owns tree p (.branch version below) (.ofPath version tree p) (.branch (joining below))
  | child {p : Path} {version : Version} {below : Nibble → Tree} (n : Nibble) {k : NodeKey}
    {x : Node} (h : Owns tree (p ++ [n]) (below n) k x) : Owns tree p (.branch version below) k x

variable {tree : TreePrefix} {p : Path} {k : NodeKey} {x y : Node} {version : Version}

theorem not_owns_vacant : ¬ Owns tree p .vacant k x := nofun

theorem owns_leaf {l : Leaf} :
    Owns tree p (.leaf version l) k x ↔ k = .ofPath version tree p ∧ x = .leaf l := by
  constructor
  · rintro ⟨⟩
    exact ⟨rfl, rfl⟩
  · rintro ⟨rfl, rfl⟩
    exact .leaf

theorem owns_branch {below : Nibble → Tree} :
    Owns tree p (.branch version below) k x ↔
      (k = .ofPath version tree p ∧ x = .branch (joining below)) ∨
        ∃ n, Owns tree (p ++ [n]) (below n) k x := by
  constructor
  · rintro (_ | _ | ⟨n, h⟩)
    · exact .inl ⟨rfl, rfl⟩
    · exact .inr ⟨n, h⟩
  · rintro (⟨rfl, rfl⟩ | ⟨n, h⟩)
    · exact .branch
    · exact .child n h

theorem owns_self {T : Tree} (hk : T.key? tree p = some k) (hx : T.node? = some x) :
    Owns tree p T k x := by
  cases T with
  | vacant => cases hx
  | leaf => cases hk; cases hx; exact .leaf
  | branch => cases hk; cases hx; exact .branch

theorem exists_key?_of_owns {T : Tree} (h : Owns tree p T k x) : ∃ rk, T.key? tree p = some rk := by
  cases h with
  | leaf => exact ⟨_, rfl⟩
  | branch => exact ⟨_, rfl⟩
  | child => exact ⟨_, rfl⟩

theorem exists_owns_root {T : Tree} (hk : T.key? tree p = some k) :
    ∃ x, Owns tree p T k x ∧ x.digest = T.digest := by
  cases hx : T.node? with
  | none =>
    rw [node?_eq_none.mp hx] at hk
    cases hk
  | some x => exact ⟨x, owns_self hk hx, (digest_eq hx).symm⟩

theorem path_key? {T : Tree} (h : T.key? tree p = some k) : k.path = p := by
  obtain ⟨version, _, rfl⟩ := Option.map_eq_some_iff.mp h
  exact NodeKey.path_ofPath version tree p

theorem tree_key? {T : Tree} (h : T.key? tree p = some k) : k.tree = tree := by
  obtain ⟨version, _, rfl⟩ := Option.map_eq_some_iff.mp h
  rfl

theorem Owns.prefix_path {T : Tree} (h : Owns tree p T k x) : p <+: k.path := by
  induction h with
  | leaf => simp
  | branch => simp
  | child n _ ih => exact (List.prefix_append _ _).trans ih

theorem Owns.tree_eq {T : Tree} (h : Owns tree p T k x) : k.tree = tree := by
  induction h with
  | leaf => rfl
  | branch => rfl
  | child _ _ ih => exact ih

/-- A longer path is not the path of a node key at the shorter one. -/
theorem ne_ofPath {n : Nibble} (h : p ++ [n] <+: k.path) (version : Version) :
    k ≠ .ofPath version tree p := by
  rintro rfl
  have := h.length_le
  rw [NodeKey.path_ofPath, List.length_append, List.length_singleton] at this
  omega

theorem Owns.unique {T : Tree} (h : Owns tree p T k x) (h' : Owns tree p T k y) : x = y := by
  induction h with
  | leaf => exact ((owns_leaf.mp h').2).symm
  | branch =>
    obtain ⟨_, rfl⟩ | ⟨n, hn⟩ := owns_branch.mp h'
    · rfl
    · exact absurd rfl (ne_ofPath hn.prefix_path _)
  | child n hn ih =>
    obtain ⟨rfl, _⟩ | ⟨m, hm⟩ := owns_branch.mp h'
    · exact absurd rfl (ne_ofPath hn.prefix_path _)
    · obtain rfl := Path.nibble_eq hn.prefix_path hm.prefix_path
      exact ih hm

end Tree

end VersionedTrie
