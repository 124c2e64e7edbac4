import VersionedTrie.Proofs.Lineage.Tracking

/-! # Pruning

When the deletes of the first commits of a lineage have been applied, in whichever order and at
whichever times after those commits, the store has the nodes of the other commits and of the last of
those, and besides them nothing but anchors (`Lineage.pruned_exactly`). No node that is needed is
gone: every such commit can be loaded and reads as it was committed, also where another one with the
same root has taken over its anchor.
-/

set_option autoImplicit false

namespace VersionedTrie

open VersionedTrie.Tree

namespace Lineage

open Log

variable {l : Lineage} {trees : Nat → Tree} {T : Tree} {k : NodeKey} {j : Journal} {m : Entries}
  {n i : Nat}

/-- The store has an entry under the bytes, which is no anchor. -/
def Stores (l : Lineage) (b : ByteArray) : Prop :=
  (∃ v, l.session.access.lookup b = .ok (some v)) ∧ ∀ j, j ∈ l.journals → b ≠ j.root.bytes

/-- The node key is reached from the root node of a commit through what the store has. -/
def Reaches (l : Lineage) (i : Nat) (k : NodeKey) : Prop :=
  ∃ j m, l.commits[i]? = some (j, m) ∧ Reached l.session.access.stored j.rootKey k

/-- Loading the root and asking the handle that is loaded gives the entries, with the cache or
without one. -/
def Serves (l : Lineage) (root : Digest) (m : Entries) : Prop :=
  ∀ cache, cache = none ∨ cache = l.session.access.cache → ∀ key,
    ((Trie.load root >>= fun t => t.get key) { l.session.access.calm with cache }).1 = .ok m[key]?

namespace Tracks

section Retained

variable (h : l.Tracks trees T) (hs : l.Served) (hfirst : Ledger.Through l.pruned n)
include h hs hfirst

/-- The trees of the retained commits are whole. -/
theorem whole (hni : n ≤ i + 1) (hi : i < l.commits.length) :
    (trees (i + 1)).Whole l.session.trie.tree l.session.access.stored := fun _ _ hk =>
  Session.Served.stored hs
    (Ledger.keeps h.history (h.ledger.le_length hfirst) hfirst h.ledger hni hi hk)

theorem reaches_iff (hni : n ≤ i + 1) :
    l.Reaches i k ↔ i < l.commits.length ∧ Keyed l.session.trie.tree (trees (i + 1)) k := by
  constructor
  · rintro ⟨j, m, hj, hk⟩
    obtain ⟨hi, _⟩ := List.getElem?_eq_some_iff.mp hj
    rw [(h.history.leads i j m hj).shows.rootKey] at hk
    exact ⟨hi, hk.owns (h.whole hs hfirst hni hi).sound⟩
  · rintro ⟨hi, x, hk⟩
    obtain ⟨j, m, hj, hl⟩ := h.history.exists_commit hi
    refine ⟨j, m, hj, ?_⟩
    rw [hl.shows.rootKey]
    exact ((owns_iff_reached (h.whole hs hfirst hni hi)).mp hk).1

theorem stores_iff (hapart : Apart l.journals) (b : ByteArray) :
    l.Stores b ↔ ∃ i k, n ≤ i + 1 ∧ l.Reaches i k ∧ b = k.encode := by
  have hheld : l.Stores b ↔
      (∃ v, l.session.contents[b]? = some v) ∧ ∀ j, j ∈ l.journals → b ≠ j.root.bytes := by
    rw [Stores, hs b]
    simp only [Except.ok.injEq]
  rw [hheld, journals, Ledger.exists_iff h.history (h.ledger.le_length hfirst) hfirst h.ledger
    hapart]
  constructor
  · rintro ⟨i, k, hni, hi, hk, rfl⟩
    exact ⟨i, k, hni, (h.reaches_iff hs hfirst hni).mpr ⟨hi, hk⟩, rfl⟩
  · rintro ⟨i, k, hni, hk, rfl⟩
    obtain ⟨hi, hk⟩ := (h.reaches_iff hs hfirst hni).mp hk
    exact ⟨i, k, hni, hi, hk, rfl⟩

/-- A retained commit whose anchor is there is loaded and reads as committed. -/
theorem serves_anchored (hclean : Clean l.journals) (hni : n ≤ i + 1)
    (hj : l.commits[i]? = some (j, m))
    (hanchor : ∀ k, j.rootKey = some k → l.session.contents[j.root.bytes]? = some k.encode) :
    l.Serves j.root m := by
  intro cache hcache key
  have hl := h.history.leads i j m hj
  obtain ⟨hi, _⟩ := List.getElem?_eq_some_iff.mp hj
  have hpeek : ∀ k y, ({ l.session.access.calm with cache } : Access).peek k = some y →
      l.session.access.peek k = some y := by
    intro k y hy
    obtain rfl | rfl := hcache
    · cases hy
    · exact hy
  have hprovides : ({ l.session.access.calm with cache } : Access).Provides l.session.trie.tree
      (trees (i + 1)) := fun k x hk =>
    ⟨fun y hy => h.cached k x y (h.history.wrote hi hk) (hpeek k y hy),
      h.whole hs hfirst hni hi k x hk⟩
  rw [hl.shows.root] at hanchor ⊢
  refine (Trie.load_get hprovides hl.compact hl.holds hl.bounded (h.history.eq_vacant hclean hi)
    (fun k hk => ?_) key).eq fun hd => hd rfl
  exact Session.Served.anchor hs (hanchor k (hl.shows.rootKey.trans hk))

/-- The anchor of a root may lead to a later commit, which has the same entries. -/
theorem serves (hclean : Clean l.journals) (hni : n ≤ i + 1)
    (hj : l.commits[i]? = some (j, m)) : l.Serves j.root m := by
  cases hk : j.rootKey with
  | none =>
    refine h.serves_anchored hs hfirst hclean hni hj fun k hk' => ?_
    rw [hk] at hk'
    cases hk'
  | some k =>
    obtain ⟨i', j', m', k', hle, hj', hroot, hk', hanchor⟩ := h.ledger.anchored i j m k hj hk
    have hdigest : (trees (i + 1)).digest = (trees (i' + 1)).digest := by
      rw [← (h.history.leads i j m hj).shows.root, ← hroot,
        (h.history.leads i' j' m' hj').shows.root]
    rw [(h.history.bears hj).entries_eq (h.history.bears hj') hclean hdigest, ← hroot]
    refine h.serves_anchored hs hfirst hclean (hni.trans (Nat.succ_le_succ hle)) hj'
      fun k₁ hk₁ => ?_
    rw [hk'] at hk₁
    cases hk₁
    rw [hroot]
    exact hanchor

end Retained

end Tracks

/-- Commits from an empty store, each by a handle that was loaded from the one before and at higher
versions. After the deletes of exactly the first `n` have been applied, the store has, beside anchors,
exactly the nodes that are reached from the commit `n - 1` and the later ones; all of these can be
read, and every such commit is served. -/
theorem pruned_exactly (tree : TreePrefix) (a : Access) (moves : List Move) (n : Nat)
    (hserved : (start tree a).Throughout Served moves) (hrising : (start tree a).Rising moves)
    (hapart : Apart ((start tree a).run moves).journals)
    (hfree : ¬ Collides (Hashes ((start tree a).run moves).journals))
    (hpruned : ∀ p, p ∈ ((start tree a).run moves).pruned ↔ p < n) :
    (∀ b, ((start tree a).run moves).Stores b ↔
      ∃ i k, n ≤ i + 1 ∧ ((start tree a).run moves).Reaches i k ∧ b = k.encode) ∧
    (∀ i k, n ≤ i + 1 → ((start tree a).run moves).Reaches i k →
      ∃ x, ((start tree a).run moves).session.access.stored k = .ok x) ∧
    ∀ i j m, n ≤ i + 1 → ((start tree a).run moves).commits[i]? = some (j, m) →
      ((start tree a).run moves).Serves j.root m := by
  obtain ⟨trees, T, h⟩ := (tracks_run hserved hrising hapart hfree).last
  have hs : ((start tree a).run moves).Served := hserved.last
  refine ⟨h.stores_iff hs hpruned hapart, fun i k hni hk => ?_, fun i j m hni hj => ?_⟩
  · obtain ⟨hi, x, hk⟩ := (h.reaches_iff hs hpruned hni).mp hk
    exact ⟨x, h.whole hs hpruned hni hi k x hk⟩
  · exact h.serves hs hpruned (h.history.clean hapart hfree) hni hj

/-- The third commit has the contents of the first again; the deletes of the second are applied
before those of the first. -/
def recurring : List Move :=
  [.update 1 "a".toUTF8 "x".toUTF8, .commit, .reopen,
    .update 2 "a".toUTF8 "y".toUTF8, .commit, .prune 1, .reopen,
    .update 3 "a".toUTF8 "x".toUTF8, .prune 0, .commit]

/-- A lineage in memory that goes through a node cache. -/
def blank : Lineage :=
  start TreePrefix.empty { (default : Access) with cache := some (.ofCapacity 8) }

theorem pruned_exactly_recurring :
    (blank.Rising recurring ∧ Apart (blank.run recurring).journals ∧
      ¬ Collides (Hashes (blank.run recurring).journals) ∧
      (∀ p, p ∈ (blank.run recurring).pruned ↔ p < 2) ∧
      (blank.run recurring).commits.length = 3) ∧
    (∀ b, (blank.run recurring).Stores b ↔
      ∃ i k, 2 ≤ i + 1 ∧ (blank.run recurring).Reaches i k ∧ b = k.encode) ∧
    ∀ i j m, 2 ≤ i + 1 → (blank.run recurring).commits[i]? = some (j, m) →
      (blank.run recurring).Serves j.root m := by
  have hcomputed : blank.Rising recurring ∧ Apart (blank.run recurring).journals ∧
      Distinct (blank.run recurring).journals ∧
      (blank.run recurring).pruned = [0, 1] ∧ (blank.run recurring).commits.length = 3 := by
    decide +kernel
  obtain ⟨hrising, hapart, hfree, hpruned, hlength⟩ := hcomputed
  have hfirst : ∀ p, p ∈ (blank.run recurring).pruned ↔ p < 2 := by
    intro p
    rw [hpruned, List.mem_cons, List.mem_singleton]
    omega
  obtain ⟨hstores, -, hserves⟩ := pruned_exactly TreePrefix.empty _ recurring 2
    (served_inMemory rfl recurring) hrising hapart hfree.free hfirst
  exact ⟨⟨hrising, hapart, hfree.free, hfirst, hlength⟩, hstores, hserves⟩

end Lineage

end VersionedTrie
