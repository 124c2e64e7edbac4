import VersionedTrie.Proofs.Changes.Insertion
import Mathlib.Data.List.Nodup

/-! # What splitting writes

Pushing two leaves apart from a depth on writes the nodes of the smallest compact tree that holds
both, one by one from the leaves up to that depth (`Splits`): the leaves one nibble below the place
where their keys fork, a branch with two children there, and a branch with one child for each nibble
that the keys share from the depth on. The run is followed along the shared nibbles
(`exists_splits`), with one step for each (`Splits.above`); the node keys in the order in which they
are written then say how many nodes there are and that no two share a node key.
-/

set_option autoImplicit false

namespace VersionedTrie

/-! ## Counting children -/

namespace Branch

theorem children_empty : empty.children = [] := by
  simp [children, child?_empty]

theorem child?_set_eq_some {b : Branch} {n m : Nibble} {c d : Child}
    (h : (b.set n c).child? m = some d) : (m = n ∧ d = c) ∨ b.child? m = some d := by
  rw [child?_set] at h
  split at h
  · next e => exact .inl ⟨e.symm, (Option.some.inj h).symm⟩
  · exact .inr h

/-- A child in a vacant slot is one child more. -/
theorem length_children_set {b : Branch} {n : Nibble} (h : b.child? n = none) (c : Child) :
    (b.set n c).children.length = b.children.length + 1 := by
  have hnodup (b : Branch) : b.children.Nodup := .of_map Prod.fst (nodup_children b)
  have hnew : (n, c) ∉ b.children := by
    rw [mem_children, h]
    exact nofun
  have hperm : (b.set n c).children.Perm ((n, c) :: b.children) := by
    refine (List.perm_ext_iff_of_nodup (hnodup _)
      (List.nodup_cons.mpr ⟨hnew, hnodup b⟩)).mpr ?_
    rintro ⟨m, d⟩
    rw [mem_children, child?_set, List.mem_cons, mem_children, Prod.mk.injEq]
    split
    · next e =>
      subst e
      simp [h, eq_comm]
    · next e => simp [Ne.symm e]
  exact hperm.length_eq

end Branch

/-! ## Keys that fork -/

namespace Path

theorem commonLength_comm (p q : Path) : commonLength p q = commonLength q p := by
  induction p generalizing q with
  | nil => cases q <;> rfl
  | cons a p ih =>
    cases q with
    | nil => rfl
    | cons b q => simp only [commonLength, ih q, eq_comm]

theorem commonLength_of_prefix {p q : Path} (h : p <+: q) : commonLength p q = p.length := by
  obtain ⟨r, rfl⟩ := h
  have happend := commonLength_append p [] r
  have hnil : commonLength [] r = 0 := by cases r <;> rfl
  rw [List.append_nil, hnil, Nat.add_zero] at happend
  exact happend

/-- Paths of which none is the first part of the other go on differently after their common part. -/
theorem getElem?_commonLength {p q : Path} (hpq : ¬ p <+: q) (hqp : ¬ q <+: p) :
    ∃ a b, a ≠ b ∧ p[commonLength p q]? = some a ∧ q[commonLength p q]? = some b := by
  induction p generalizing q with
  | nil => exact absurd List.nil_prefix hpq
  | cons a p ih =>
    cases q with
    | nil => exact absurd List.nil_prefix hqp
    | cons b q =>
      rw [commonLength]
      split
      · next e =>
        subst e
        rw [List.cons_prefix_cons] at hpq hqp
        exact ih (fun h => hpq ⟨rfl, h⟩) (fun h => hqp ⟨rfl, h⟩)
      · next e => exact ⟨a, b, e, rfl, rfl⟩

end Path

namespace Changes

/-- Writes nodes one after the other. -/
def writeAll (c : Changes) (writes : List (NodeKey × Node)) : Changes :=
  writes.foldl (fun c w => c.write w.1 w.2) c

theorem writeAll_concat (c : Changes) (writes : List (NodeKey × Node)) (k : NodeKey) (x : Node) :
    c.writeAll (writes ++ [(k, x)]) = (c.writeAll writes).write k x := by
  simp [writeAll]

end Changes

/-! ## Splitting -/

namespace Site

/-- What is written to push two leaves apart from a depth on, if `fork` is where their keys fork. -/
structure Splits (s : Site) (stored given : Leaf) (fork depth : Nat)
    (writes : List (NodeKey × Node)) : Prop where
  /-- First the leaves, then the branches from the fork up, all at the version of the site. -/
  keys : writes.map Prod.fst =
    .ofPath s.version s.tree (stored.key.take (fork + 1)) ::
      .ofPath s.version s.tree (given.key.take (fork + 1)) ::
        (List.range' depth (fork + 1 - depth)).reverse.map fun i =>
          .ofPath s.version s.tree (given.key.take i)
  storedLeaf : (.ofPath s.version s.tree (stored.key.take (fork + 1)), .leaf stored) ∈ writes
  givenLeaf : (.ofPath s.version s.tree (given.key.take (fork + 1)), .leaf given) ∈ writes
  forking : ∃ b, (.ofPath s.version s.tree (given.key.take fork), .branch b) ∈ writes ∧
    b.children.length = 2
  single : ∀ i, depth ≤ i → i < fork →
    ∃ b, (.ofPath s.version s.tree (given.key.take i), .branch b) ∈ writes ∧
      b.children.length = 1
  /-- What a branch records of a child is true of the node that is written there. -/
  slots : ∀ k b n c, (k, .branch b) ∈ writes → b.child? n = some c →
    ∃ x, (k.child c.version n, x) ∈ writes ∧ c = ⟨x.digest, s.version, x.isLeaf⟩

variable {s : Site} {c : Changes} {stored given : Leaf}

/-- Where the keys fork. -/
theorem splits_fork {a b : Nibble} {p q pre : Path} (hab : a ≠ b)
    (hp : stored.key = pre ++ a :: p) (hq : given.key = pre ++ b :: q) :
    s.Splits stored given pre.length pre.length
      [(.ofPath s.version s.tree (pre ++ [a]), .leaf stored),
        (.ofPath s.version s.tree (pre ++ [b]), .leaf given),
        (.ofPath s.version s.tree pre, .branch
          ((Branch.empty.set a (s.child (.leaf stored))).set b (s.child (.leaf given))))] := by
  have hstored : stored.key.take (pre.length + 1) = pre ++ [a] := by
    rw [hp, List.take_length_add_append]
    rfl
  have hgiven : given.key.take (pre.length + 1) = pre ++ [b] := by
    rw [hq, List.take_length_add_append]
    rfl
  have hpre : given.key.take pre.length = pre := by rw [hq, List.take_left]
  constructor
  · rw [hstored, hgiven, Nat.add_sub_cancel_left]
    simp [hpre]
  · rw [hstored]
    simp
  · rw [hgiven]
    simp
  · rw [hpre]
    refine ⟨_, .tail _ (.tail _ (.head _)), ?_⟩
    have hvacant : (Branch.empty.set a (s.child (.leaf stored))).child? b = none := by
      rw [Branch.child?_set, if_neg hab, Branch.child?_empty]
    rw [Branch.length_children_set hvacant,
      Branch.length_children_set (Branch.child?_empty a), Branch.children_empty]
    rfl
  · intro i hle hlt
    omega
  · intro k br n d hk hd
    simp only [List.mem_cons, Prod.mk.injEq, reduceCtorEq, and_false, List.not_mem_nil, or_false,
      false_or, Node.branch.injEq] at hk
    obtain ⟨rfl, rfl⟩ := hk
    obtain ⟨rfl, rfl⟩ | hd := Branch.child?_set_eq_some hd
    · refine ⟨.leaf given, ?_, rfl⟩
      rw [NodeKey.child_ofPath]
      exact .tail _ (.head _)
    · obtain ⟨rfl, rfl⟩ | hd := Branch.child?_set_eq_some hd
      · refine ⟨.leaf stored, ?_, rfl⟩
        rw [NodeKey.child_ofPath]
        exact .head _
      · rw [Branch.child?_empty] at hd
        cases hd

/-- One shared nibble further up. -/
theorem Splits.above {fork : Nat} {writes : List (NodeKey × Node)} {x : Node} {a : Nibble}
    {q pre : Path} (h : s.Splits stored given fork (pre ++ [a]).length writes)
    (hq : given.key = pre ++ a :: q) (hfork : pre.length < fork)
    (hx : (.ofPath s.version s.tree (pre ++ [a]), x) ∈ writes) :
    s.Splits stored given fork pre.length
      (writes ++ [(.ofPath s.version s.tree pre, .branch (Branch.empty.set a (s.child x)))]) := by
  have hpre : given.key.take pre.length = pre := by rw [hq, List.take_left]
  have hlength : (pre ++ [a]).length = pre.length + 1 := by simp
  rw [hlength] at h
  obtain ⟨b, hb, hcount⟩ := h.forking
  constructor
  · have hrange : List.range' pre.length (fork + 1 - pre.length) =
        pre.length :: List.range' (pre.length + 1) (fork + 1 - (pre.length + 1)) := by
      rw [← List.range'_succ]
      congr 1
      omega
    rw [List.map_append, h.keys, hrange]
    simp [hpre]
  · exact List.mem_append_left _ h.storedLeaf
  · exact List.mem_append_left _ h.givenLeaf
  · exact ⟨b, List.mem_append_left _ hb, hcount⟩
  · intro i hle hlt
    obtain rfl | hlt' := Nat.eq_or_lt_of_le hle
    · rw [hpre]
      refine ⟨_, List.mem_append_right _ (.head _), ?_⟩
      rw [Branch.length_children_set (Branch.child?_empty a), Branch.children_empty]
      rfl
    · obtain ⟨b, hb, hcount⟩ := h.single i hlt' hlt
      exact ⟨b, List.mem_append_left _ hb, hcount⟩
  · intro k br n d hk hd
    obtain hk | hk := List.mem_append.mp hk
    · obtain ⟨y, hy, hd⟩ := h.slots k br n d hk hd
      exact ⟨y, List.mem_append_left _ hy, hd⟩
    · simp only [List.mem_singleton, Prod.mk.injEq, Node.branch.injEq] at hk
      obtain ⟨rfl, rfl⟩ := hk
      obtain ⟨rfl, rfl⟩ | hd := Branch.child?_set_eq_some hd
      · refine ⟨x, List.mem_append_left _ ?_, rfl⟩
        rw [NodeKey.child_ofPath]
        exact hx
      · rw [Branch.child?_empty] at hd
        cases hd

/-- Along what is left of the keys: each nibble they still share adds the branch above it. -/
theorem exists_splits (hs : s.path.toPath = given.key) {p q pre : Path}
    (hp : stored.key = pre ++ p) (hq : given.key = pre ++ q) (hpq : ¬ p <+: q) (hqp : ¬ q <+: p) :
    ∃ writes x, s.split c stored given pre.length = .ok (c.writeAll writes, x) ∧
      s.Splits stored given (pre.length + Path.commonLength p q) pre.length writes ∧
      (.ofPath s.version s.tree pre, x) ∈ writes := by
  induction p generalizing q pre with
  | nil => exact absurd List.nil_prefix hpq
  | cons a p ih =>
    cases q with
    | nil => exact absurd List.nil_prefix hqp
    | cons b q =>
      rw [Path.commonLength]
      split
      · next e =>
        subst e
        rw [List.cons_prefix_cons] at hpq hqp
        have hp' : stored.key = (pre ++ [a]) ++ p := by simp [hp]
        have hq' : given.key = (pre ++ [a]) ++ q := by simp [hq]
        obtain ⟨writes, x, hsplit, hwrites, hx⟩ :=
          ih hp' hq' (fun h => hpq ⟨rfl, h⟩) (fun h => hqp ⟨rfl, h⟩)
        have hfork : (pre ++ [a]).length + Path.commonLength p q =
            pre.length + (Path.commonLength p q + 1) := by
          rw [List.length_append, List.length_singleton]
          omega
        rw [hfork] at hwrites
        refine ⟨_, _, ?_, hwrites.above hq (by omega) hx, List.mem_append_right _ (.head _)⟩
        rw [split_shared hs hp hq, hsplit, Changes.writeAll_concat]
        rfl
      · next e =>
        exact ⟨_, _, split_fork hs e hp hq, splits_fork e hp hq, .tail _ (.tail _ (.head _))⟩

theorem Splits.length {fork depth : Nat} {writes : List (NodeKey × Node)}
    (h : s.Splits stored given fork depth writes) (hle : depth ≤ fork) :
    writes.length = fork - depth + 3 := by
  rw [← List.length_map Prod.fst, h.keys]
  simp
  omega

/-- No two of the nodes are written under one node key. -/
theorem Splits.nodup {fork depth : Nat} {writes : List (NodeKey × Node)}
    (h : s.Splits stored given fork depth writes) {a b : Nibble} (hab : a ≠ b)
    (ha : stored.key[fork]? = some a) (hb : given.key[fork]? = some b) :
    (writes.map Prod.fst).Nodup := by
  obtain ⟨hstored, ha⟩ := List.getElem?_eq_some_iff.mp ha
  obtain ⟨hgiven, hb⟩ := List.getElem?_eq_some_iff.mp hb
  have hle : ∀ i ∈ (List.range' depth (fork + 1 - depth)).reverse, i ≤ fork := by
    intro i hi
    rw [List.mem_reverse, List.mem_range'_1] at hi
    omega
  have hlonger : ∀ p : Path, p.length = fork + 1 → NodeKey.ofPath s.version s.tree p ∉
      (List.range' depth (fork + 1 - depth)).reverse.map fun i =>
        NodeKey.ofPath s.version s.tree (given.key.take i) := by
    intro p hp hmem
    obtain ⟨i, hi, he⟩ := List.mem_map.mp hmem
    have hlength := congrArg List.length (NodeKey.ofPath_inj.mp he).2
    have := hle i hi
    rw [List.length_take] at hlength
    omega
  have hleaves : NodeKey.ofPath s.version s.tree (stored.key.take (fork + 1)) ≠
      .ofPath s.version s.tree (given.key.take (fork + 1)) := by
    intro he
    have hlast := congrArg List.getLast? (NodeKey.ofPath_inj.mp he).2
    rw [List.take_succ_eq_append_getElem hstored, List.take_succ_eq_append_getElem hgiven,
      List.getLast?_concat, List.getLast?_concat, ha, hb, Option.some.injEq] at hlast
    exact hab hlast
  rw [h.keys, List.nodup_cons, List.nodup_cons, List.mem_cons, not_or]
  refine ⟨⟨hleaves, hlonger _ ?_⟩, hlonger _ ?_, ?_⟩
  · rw [List.length_take]
    omega
  · rw [List.length_take]
    omega
  · refine List.Nodup.map_on ?_ (List.nodup_reverse.mpr List.nodup_range')
    intro i hi j hj he
    have hlength := congrArg List.length (NodeKey.ofPath_inj.mp he).2
    have := hle i hi
    have := hle j hj
    rw [List.length_take, List.length_take] at hlength
    omega

theorem split_nested {depth : Nat} (h : stored.key <+: given.key ∨ given.key <+: stored.key) :
    s.split c stored given depth = .error (.invalidKey (.nested stored.key given.key)) := by
  apply split_eq_error
  obtain h | h := h
  · left
    rw [Path.commonLength_of_prefix h]
    simp
  · right
    rw [Path.commonLength_comm, Path.commonLength_of_prefix h]
    simp

/-- Below any depth down to which the keys agree. -/
theorem split_splits (hs : s.path.toPath = given.key) {depth : Nat}
    (hshared : stored.key.take depth = given.key.take depth) (hsg : ¬ stored.key <+: given.key)
    (hgs : ¬ given.key <+: stored.key) :
    depth ≤ Path.commonLength stored.key given.key ∧
      ∃ writes x, s.split c stored given depth = .ok (c.writeAll writes, x) ∧
        s.Splits stored given (Path.commonLength stored.key given.key) depth writes ∧
        (.ofPath s.version s.tree (given.key.take depth), x) ∈ writes := by
  have hdepth : (given.key.take depth).length = depth := by
    rw [List.length_take, Nat.min_eq_left]
    refine Nat.le_of_not_lt fun hlt => hgs ?_
    rw [List.take_of_length_le (Nat.le_of_lt hlt)] at hshared
    exact hshared ▸ List.take_prefix depth stored.key
  obtain ⟨p, hp⟩ : given.key.take depth <+: stored.key := hshared ▸ List.take_prefix ..
  obtain ⟨q, hq⟩ := List.take_prefix depth given.key
  have hpq : ¬ p <+: q := by
    rwa [← List.prefix_append_right_inj (given.key.take depth), hp, hq]
  have hqp : ¬ q <+: p := by
    rwa [← List.prefix_append_right_inj (given.key.take depth), hp, hq]
  have hfork : depth + Path.commonLength p q = Path.commonLength stored.key given.key := by
    have happend := Path.commonLength_append (given.key.take depth) p q
    rw [hp, hq, hdepth] at happend
    exact happend.symm
  obtain ⟨writes, x, hsplit, hsplits, hx⟩ :=
    exists_splits (c := c) hs hp.symm hq.symm hpq hqp
  rw [hdepth] at hsplit hsplits
  rw [hfork] at hsplits
  exact ⟨by omega, writes, x, hsplit, hsplits, hx⟩

/-- Splitting fails exactly where one key is the first part of the other. Otherwise it writes, at its
version and under different node keys, as many branches with one child as the keys share nibbles from
the depth on, one branch with two children where they fork, and the two leaves; every child is
recorded as it is written; and the node at the depth is given back. -/
theorem split_exact (version : Version) (tree : TreePrefix) (c : Changes) (stored given : Leaf)
    (depth : Nat) (hshared : stored.key.take depth = given.key.take depth) :
    let s : Site := ⟨version, tree, .ofPath given.key⟩
    let fork := Path.commonLength stored.key given.key
    (s.split c stored given depth = .error (.invalidKey (.nested stored.key given.key)) ↔
      stored.key <+: given.key ∨ given.key <+: stored.key) ∧
    (¬(stored.key <+: given.key ∨ given.key <+: stored.key) →
      (depth ≤ fork ∧ stored.key.take fork = given.key.take fork ∧
        ∃ a b, a ≠ b ∧ stored.key[fork]? = some a ∧ given.key[fork]? = some b) ∧
      ∃ writes x, s.split c stored given depth = .ok (c.writeAll writes, x) ∧
        writes.length = fork - depth + 3 ∧ (writes.map Prod.fst).Nodup ∧
        s.Splits stored given fork depth writes ∧
        (.ofPath version tree (given.key.take depth), x) ∈ writes) := by
  intro s fork
  have hs : s.path.toPath = given.key := StoredPath.toPath_ofPath given.key
  refine ⟨⟨fun herror => ?_, split_nested⟩, fun hn => ?_⟩
  · by_contra hn
    obtain ⟨hsg, hgs⟩ := not_or.mp hn
    obtain ⟨-, writes, x, hsplit, -⟩ := split_splits (c := c) hs hshared hsg hgs
    rw [herror] at hsplit
    cases hsplit
  · obtain ⟨hsg, hgs⟩ := not_or.mp hn
    obtain ⟨hle, writes, x, hsplit, hsplits, hx⟩ := split_splits (c := c) hs hshared hsg hgs
    obtain ⟨a, b, hab, ha, hb⟩ := Path.getElem?_commonLength hsg hgs
    exact ⟨⟨hle, Path.take_commonLength _ _, a, b, hab, ha, hb⟩, writes, x, hsplit,
      hsplits.length hle, hsplits.nodup hab ha hb, hsplits, hx⟩

/-- Two shared nibbles from the first depth on make two branches with one child. -/
theorem split_exact_shared :
    let stored := Leaf.make [3, 0, 3, 1] "a".toUTF8
    let given := Leaf.make [3, 0, 3, 3] "b".toUTF8
    let s : Site := ⟨7, .empty, .ofPath given.key⟩
    stored.key.take 1 = given.key.take 1 ∧ ∃ writes x,
      s.split .empty stored given 1 = .ok (Changes.empty.writeAll writes, x) ∧
      writes.length = 5 ∧ (writes.map Prod.fst).Nodup ∧ s.Splits stored given 3 1 writes ∧
      (.ofPath 7 .empty [3], x) ∈ writes := by
  intro stored given s
  have hshared : stored.key.take 1 = given.key.take 1 := by decide
  obtain ⟨-, hwrites⟩ := split_exact 7 .empty .empty stored given 1 hshared
  exact ⟨hshared, (hwrites (by decide)).2⟩

end Site

end VersionedTrie
