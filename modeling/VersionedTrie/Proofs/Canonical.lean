import VersionedTrie.Proofs.Observation
import VersionedTrie.Proofs.Tree.Shape

/-! # The nodes of a trie

Which nodes are reached from the root of a handle is settled by its entries: a branch at every path
that two keys pass, a leaf at the first path that only its key passes, and nothing else. The slots
of a branch are true of the nodes below, every dirty node is reached, and what has been superseded
is not reached but still stored (`Canonical`).

A session whose store does not lie is canonical wherever its handle is live, if no commit puts its
anchor in the place of a node below its root (`Sparing`). If that happens to the root itself, the
handle cannot be loaded again. Without a node cache the condition is necessary.
-/

set_option autoImplicit false

namespace VersionedTrie

open VersionedTrie.Tree

namespace Entries

/-- At least two keys have the path as their first part. -/
def Shared (m : Entries) (p : Path) : Prop :=
  ∃ a b : ByteArray, a ∈ m ∧ b ∈ m ∧ a ≠ b ∧ p <+: Path.ofKey a ∧ p <+: Path.ofKey b

/-- Every shorter path has at least two keys to tell apart. -/
def Open (m : Entries) (p : Path) : Prop := ∀ q, q <+: p → q ≠ p → m.Shared q

/-- The key is the only one that has the path as its first part. -/
def Alone (m : Entries) (p : Path) (key : ByteArray) : Prop :=
  p <+: Path.ofKey key ∧ ∀ other : ByteArray, other ∈ m → p <+: Path.ofKey other → other = key

theorem mem_iff {m : Entries} {key : ByteArray} : key ∈ m ↔ ∃ value, m[key]? = some value := by
  rw [Std.ExtTreeMap.mem_iff_isSome_getElem?, Option.isSome_iff_exists]

end Entries

namespace Tree

variable {tree : TreePrefix} {T : Tree} {m : Entries} {p : Path} {k : NodeKey} {x : Node}

theorem Holds.forks (h : T.Holds m) : T.Forks p ↔ m.Shared p := by
  constructor
  · rintro ⟨l, l', hl, hl', hne, hp, hp'⟩
    obtain ⟨a, v, ha, rfl⟩ := (h l).mp hl
    obtain ⟨b, w, hb, rfl⟩ := (h l').mp hl'
    refine ⟨a, b, Entries.mem_iff.mpr ⟨v, ha⟩, Entries.mem_iff.mpr ⟨w, hb⟩, ?_, hp, hp'⟩
    rintro rfl
    exact hne rfl
  · rintro ⟨a, b, ha, hb, hne, hp, hp'⟩
    obtain ⟨v, hv⟩ := Entries.mem_iff.mp ha
    obtain ⟨w, hw⟩ := Entries.mem_iff.mp hb
    exact ⟨_, _, h.has hv, h.has hw, fun e => hne (Path.ofKey_injective e), hp, hp'⟩

theorem Holds.exists_branch (h : T.Holds m) (hT : T.Compact []) (hopen : m.Open p)
    (hshared : m.Shared p) (tree : TreePrefix) :
    ∃ k b, Owns tree [] T k (.branch b) ∧ k.path = p := by
  obtain ⟨l, l', hl, hl', hne, hp, hp'⟩ := h.forks.mpr hshared
  obtain ⟨k, x, hk, rfl⟩ := hT.exists_owns List.nil_prefix hl hp
    (fun q _ hq hqp => h.forks.mpr (hopen q hq hqp)) tree
  cases x with
  | branch b => exact ⟨k, b, hk, rfl⟩
  | leaf l₀ =>
    obtain ⟨_, _, honly⟩ := hk.has_leaf hT rfl
    rw [honly l hl hp, honly l' hl' hp'] at hne
    exact absurd rfl hne

theorem Holds.exists_leaf (h : T.Holds m) (hT : T.Compact []) (hopen : m.Open p)
    {key value : ByteArray} (hkey : m[key]? = some value) (halone : m.Alone p key)
    (tree : TreePrefix) :
    ∃ k, Owns tree [] T k (.leaf (Leaf.make (Path.ofKey key) value)) ∧ k.path = p := by
  obtain ⟨k, x, hk, rfl⟩ := hT.exists_owns List.nil_prefix (h.has hkey) halone.1
    (fun q _ hq hqp => h.forks.mpr (hopen q hq hqp)) tree
  cases x with
  | branch b =>
    obtain ⟨a, b, ha, hb, hne, hpa, hpb⟩ := h.forks.mp (hk.forks hT rfl)
    rw [halone.2 a ha hpa, halone.2 b hb hpb] at hne
    exact absurd rfl hne
  | leaf l =>
    obtain ⟨_, _, honly⟩ := hk.has_leaf hT rfl
    rw [honly _ (h.has hkey) halone.1]
    exact ⟨k, hk, rfl⟩

theorem Owns.called_for (hk : Owns tree [] T k x) (h : T.Holds m) (hT : T.Compact []) :
    m.Open k.path ∧ ∃ key, key ∈ m ∧ k.path <+: Path.ofKey key := by
  refine ⟨fun q hq hqk => h.forks.mp (hk.forks_above hT List.nil_prefix hq hqk), ?_⟩
  obtain ⟨l, hl, hpath⟩ := hk.exists_has hT
  obtain ⟨key, value, hm, rfl⟩ := (h l).mp hl
  exact ⟨key, Entries.mem_iff.mpr ⟨value, hm⟩, hpath⟩

end Tree

namespace Session

def NodeAt (s : Session) (p : Path) (k : NodeKey) (x : Node) : Prop :=
  s.Reaches k ∧ k.path = p ∧ s.fetched k = .ok x

/-- The nodes of the handle are those that its entries call for. -/
structure Canonical (s : Session) (m : Entries) : Prop where
  fetched : ∀ k, s.Reaches k → ∃ x, s.fetched k = .ok x
  branch : ∀ p, m.Open p → m.Shared p → ∃ k b, s.NodeAt p k (.branch b)
  leaf : ∀ (p : Path) (key value : ByteArray), m.Open p → m[key]? = some value →
    m.Alone p key → ∃ k, s.NodeAt p k (.leaf (Leaf.make (Path.ofKey key) value))
  nowhere : ∀ k, s.Reaches k → m.Open k.path ∧ ∃ key, key ∈ m ∧ k.path <+: Path.ofKey key
  unique : ∀ j k, s.Reaches j → s.Reaches k → j.path = k.path → j = k
  slot : ∀ k b n c, s.Reaches k → s.fetched k = .ok (.branch b) → b.child? n = some c →
    ∃ x, s.fetched (k.child c.version n) = .ok x ∧ x.digest = c.digest ∧ x.isLeaf = c.leaf
  dirty : ∀ k, k ∈ s.trie.dirty → s.Reaches k
  disjoint : ∀ k, k ∈ s.trie.dirty → k ∉ s.trie.superseded
  superseded : ∀ k, k ∈ s.trie.superseded →
    ¬ s.Reaches k ∧ ∃ x, (readNode k s.access.calm).1 = .ok x

/-- The anchor of the root does not take the place of a node below the root. -/
def Sparing (s : Session) : Prop :=
  ∀ d, s.rootDigest = .ok d → d ≠ Digest.placeholder →
    ∀ k, s.Reaches k → s.trie.root ≠ some k → k.encode ≠ d.bytes

variable {s : Session} {base T : Tree} {m : Entries}

theorem Firm.canonical (hf : s.Firm base) (h : s.Stands base T m) (hlive : s.trie.committed = false)
    (hserved : s.Served) : s.Canonical m := by
  have hrep := h.represents hlive
  have hw := hf.whole h hlive hserved
  have hiff : ∀ k x, Owns s.trie.tree [] T k x ↔ s.Reaches k ∧ s.fetched k = .ok x :=
    fun k x => owns_iff_reaches hrep hw
  have howns : ∀ k, s.Reaches k → ∃ x, Owns s.trie.tree [] T k x :=
    fun k hk => hk.owns hrep hw.sound
  have hdirty : ∀ k, k ∈ s.trie.dirty → ∃ x, Owns s.trie.tree [] T k x := by
    intro k hk
    rw [Std.ExtTreeMap.mem_iff_isSome_getElem?, Option.isSome_iff_exists] at hk
    obtain ⟨x, hx⟩ := hk
    exact ⟨x, hrep.dirty k x hx⟩
  constructor
  case fetched =>
    intro k hk
    obtain ⟨x, hx⟩ := howns k hk
    exact ⟨x, ((hiff k x).mp hx).2⟩
  case branch =>
    intro p hopen hshared
    obtain ⟨k, b, hk, hp⟩ := h.holds.exists_branch h.compact hopen hshared s.trie.tree
    exact ⟨k, b, ((hiff k _).mp hk).1, hp, ((hiff k _).mp hk).2⟩
  case leaf =>
    intro p key value hopen hkey halone
    obtain ⟨k, hk, hp⟩ := h.holds.exists_leaf h.compact hopen hkey halone s.trie.tree
    exact ⟨k, ((hiff k _).mp hk).1, hp, ((hiff k _).mp hk).2⟩
  case nowhere =>
    intro k hk
    obtain ⟨x, hx⟩ := howns k hk
    exact hx.called_for h.holds h.compact
  case unique =>
    intro j k hj hk hpath
    obtain ⟨y, hy⟩ := howns j hj
    obtain ⟨x, hx⟩ := howns k hk
    exact hy.eq_of_path hx hpath
  case slot =>
    intro k b n c hk hb hc
    obtain ⟨y, hy, hyc⟩ := ((hiff k _).mpr ⟨hk, hb⟩).exists_child rfl hc
    exact ⟨y, ((hiff _ y).mp hy).2, congrArg Child.digest hyc, congrArg Child.leaf hyc⟩
  case dirty =>
    intro k hk
    obtain ⟨x, hx⟩ := hdirty k hk
    exact ((hiff k x).mp hx).1
  case disjoint =>
    intro k hk hsup
    obtain ⟨x, hx⟩ := hdirty k hk
    exact (hrep.superseded k hsup).2 x hx
  case superseded =>
    intro k hk
    obtain ⟨⟨x, hx⟩, hnot⟩ := hrep.superseded k hk
    refine ⟨fun hr => ?_, x, ?_⟩
    · obtain ⟨y, hy⟩ := howns k hr
      exact hnot y hy
    · rw [(s.access.calm.readNode_answers k).eq s.access.not_doubtful_calm]
      exact hserved.stored (hf.live hlive hx)

theorem Firm.sparing_iff (hf : s.Firm base) (h : s.Stands base T m)
    (hlive : s.trie.committed = false) (hserved : s.Served) :
    s.Sparing ↔ T.Spared s.trie.tree := by
  have hw := hf.whole h hlive hserved
  have hrep := h.represents hlive
  constructor
  · intro hs hne k x hk hroot
    refine hs _ (h.rootDigest hserved.honest hlive hw) hne k ?_ ?_
    · exact ((owns_iff_reaches hrep hw).mp hk).1
    · rwa [hrep.root]
  · intro hs d hd hne k hk hroot
    obtain rfl := h.rootDigest_eq hserved.honest hd
    obtain ⟨x, hx⟩ := hk.owns hrep hw.sound
    rw [hrep.root] at hroot
    exact hs hne k x hx hroot

/-! ## Runs -/

section Run

variable {tree : TreePrefix} {a : Access} {c : Contents} {actions : List Action}

theorem firm_run (hserved : (start tree a c).Throughout Served actions)
    (hsparing : (start tree a c).AtCommits Sparing actions) :
    ∀ pre, pre <+: actions → ∃ base T m,
      ((start tree a c).run pre).Stands base T m ∧ ((start tree a c).run pre).Firm base := by
  refine always_of (P := fun s : Session => ∃ base T m, s.Stands base T m ∧ s.Firm base)
    ⟨.vacant, .vacant, ∅, stands_start tree a c, firm_vacant _⟩ ?_
  rintro pre action hpre ⟨base, T, m, h, hf⟩
  obtain ⟨hbefore, hafter⟩ := hserved.around hpre
  obtain ⟨base', T', m', h', hf'⟩ := h.perform hbefore.honest action hafter.honest
  refine ⟨base', T', m', h', hf' hf ?_⟩
  rintro rfl hlive
  exact (hf.sparing_iff h hlive hbefore).mp (hsparing pre _ hpre rfl)

end Run

/-- If the handle can be read after a commit, where it can be loaded at all, and no cache stands in
for the store, the commit has spared the nodes below the root. -/
theorem Steady.sparing (h : s.Steady base T m) (hserved : s.Served)
    (hserved' : (s.perform .commit).Served) (hcache : s.access.cache = none)
    (hreads : (s.perform .commit).trie.committed = false →
      ∃ m', (s.perform .commit).Reads m') : s.Sparing := by
  rw [h.firm.sparing_iff h.stands h.live hserved]
  intro hne k x hk hroot he
  have hrep := h.stands.represents h.live
  obtain ⟨a, ha, hrun, hstands, hfaultless, hserved₁⟩ := h.perform_commit hserved hserved'
  rw [hrun] at hreads
  cases hy : T.node? with
  | none =>
    rw [node?_eq_none.mp hy] at hk
    exact not_owns_vacant hk
  | some y =>
    obtain ⟨rk, hrk⟩ := key?_of_node? hy s.trie.tree []
    -- the root itself is there, since the anchor has the place of another node
    have hrk' : rk.encode ≠ T.digest.bytes := by
      intro e
      obtain rfl := NodeKey.encode_inj.mp (he.trans e.symm)
      exact hroot hrk
    have hkeeps : (s.committedTo a T.digest).contents.Keeps rk y :=
      hrep.keeps_batch (h.stands.holds.admissible h.stands.bounded)
        (fun _ _ => h.firm.live h.live) (owns_self hrk hy) hrk'
    obtain ⟨b, hb, hload⟩ := hstands.reopens hserved₁ hfaultless rfl hne hrk hy hkeeps
    rw [hload] at hreads
    obtain ⟨m', hreads⟩ := hreads rfl
    exact h.stands.ne_of_reads hserved.honest h.live ha hserved₁.honest hb hcache hreads hk he

/-- If the handle can be read wherever it is live, with nothing planned to fail and no cache to stand
in for the store, every commit has spared the nodes below its root. -/
theorem sparing_of_reads {tree : TreePrefix} {a : Access} {c : Contents} {actions : List Action}
    (hserved : (start tree a c).Throughout Served actions) (hplan : a.store.plan = FaultPlan.none)
    (hcache : a.cache = none)
    (hreads : (start tree a c).Throughout
      (fun s => s.trie.committed = false → ∃ m, s.Reads m) actions) :
    (start tree a c).AtCommits Sparing actions := by
  refine atEach_of ?_
  rintro pre action hpre hsparing rfl
  show ((start tree a c).run pre).Sparing
  have hbefore : pre <+: actions := (List.prefix_append pre [.commit]).trans hpre
  obtain ⟨base, T, m, h, hf⟩ := firm_run (hserved.before hbefore) hsparing pre List.prefix_rfl
  have hhonest : (start tree a c).Throughout Honest actions := fun p hp => (hserved p hp).honest
  cases hlive : ((start tree a c).run pre).trie.committed with
  | true =>
    intro d hd
    rw [live_of_rootDigest hd] at hlive
    cases hlive
  | false =>
    have hsteady : ((start tree a c).run pre).Steady base T m :=
      ⟨h, hf, hlive, faultless_run hplan hhonest pre hbefore⟩
    exact hsteady.sparing (hserved.around hpre).1 (hserved.around hpre).2
      (uncached_run hcache hhonest pre hbefore) (hreads.around hpre).2

/-- Wherever its handle is live, a session on a store that does not lie has the nodes that its
entries call for, as long as every commit spares the nodes below its root. -/
theorem canonical_run (tree : TreePrefix) (a : Access) (c : Contents) (actions : List Action)
    (hserved : (start tree a c).Throughout Served actions) :
    ((start tree a c).AtCommits Sparing actions →
      (start tree a c).Throughout
        (fun s => s.trie.committed = false → ∃ m, s.Reads m ∧ s.Canonical m) actions) ∧
    (a.store.plan = FaultPlan.none → a.cache = none →
      (start tree a c).Throughout
        (fun s => s.trie.committed = false → ∃ m, s.Reads m ∧ s.Canonical m) actions →
      (start tree a c).AtCommits Sparing actions) := by
  constructor
  · intro hsparing pre hpre hlive
    obtain ⟨base, T, m, h, hf⟩ := firm_run hserved hsparing pre hpre
    have hserved' := hserved pre hpre
    exact ⟨m, h.reads hserved'.honest hlive (hf.whole h hlive hserved'),
      hf.canonical h hlive hserved'⟩
  · intro hplan hcache hcanonical
    refine sparing_of_reads hserved hplan hcache fun pre hpre hlive => ?_
    obtain ⟨m, hreads, _⟩ := hcanonical pre hpre hlive
    exact ⟨m, hreads⟩

/-- Under a long prefix a commit of two keys spares every node. -/
theorem sparing_long : ((start TreePrefix.long default ∅).run
    [.update 7 "a".toUTF8 "1".toUTF8, .update 7 "b".toUTF8 "2".toUTF8]).Sparing := by
  have hserved : (start TreePrefix.long default ∅).Throughout Served
      [.update 7 "a".toUTF8 "1".toUTF8, .update 7 "b".toUTF8 "2".toUTF8] := served_inMemory rfl _
  obtain ⟨base, T, m, h⟩ :=
    stands_run (fun pre hpre => (hserved pre hpre).honest) _ List.prefix_rfl
  have hlive : ((start TreePrefix.long default ∅).run
      [.update 7 "a".toUTF8 "1".toUTF8, .update 7 "b".toUTF8 "2".toUTF8]).trie.committed =
        false := by
    decide +kernel
  have hlong : 23 < ((start TreePrefix.long default ∅).run
      [.update 7 "a".toUTF8 "1".toUTF8, .update 7 "b".toUTF8 "2".toUTF8]).trie.tree.bytes.size := by
    decide +kernel
  exact fun d _ _ k hk _ => hk.encode_ne h hserved.last.honest hlive hlong d

/-- Two keys are committed under a long prefix, and after the root has been loaded one is removed.
-/
theorem canonical_run_reloaded :
    (start TreePrefix.long default ∅).Throughout Served
        [.update 7 "a".toUTF8 "1".toUTF8, .update 7 "b".toUTF8 "2".toUTF8, .commit,
          .update 7 "a".toUTF8 ByteArray.empty] ∧
      (start TreePrefix.long default ∅).Throughout
        (fun s => s.trie.committed = false → ∃ m, s.Reads m ∧ s.Canonical m)
        [.update 7 "a".toUTF8 "1".toUTF8, .update 7 "b".toUTF8 "2".toUTF8, .commit,
          .update 7 "a".toUTF8 ByteArray.empty] := by
  refine ⟨served_inMemory rfl _, (canonical_run _ _ _ _ (served_inMemory rfl _)).1 ?_⟩
  simp only [AtCommits, atEach_cons, atEach_nil, reduceCtorEq, false_implies, true_implies, true_and,
    and_true]
  exact sparing_long

end Session

end VersionedTrie
