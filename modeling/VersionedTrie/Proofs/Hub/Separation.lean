import VersionedTrie.Proofs.Hub.Retention

/-! # Separate trees

Trees with different prefixes share a store. Whatever is committed to the others and pruned of them,
a commit of one tree that this tree retains keeps its nodes, so that the handle on its root node
reads what was committed. But the anchor of a root is stored under the digest alone: it leads there
only as long as no other tree has come to the same root, and from then on to the tree that has
(`Hub.separated`).
-/

set_option autoImplicit false

namespace VersionedTrie

open VersionedTrie.Tree

/-- The handle on a root node, with nothing but its node key. -/
def Trie.rooted (k : NodeKey) : Trie := { empty with tree := k.tree, root := some k }

theorem Trie.opened_eq_rooted {tree : TreePrefix} {T : Tree} {k : NodeKey}
    (hk : T.key? tree [] = some k) : opened tree T = rooted k := by
  rw [opened, rooted, hk, tree_key? hk]

namespace Hub

open Log

variable {h : Hub} {cleared : List Journal} {i j : Journal} {m e : Entries}
  {pre post : List (Journal × Entries)} {k : NodeKey} {a : Access} {t : Trie}

theorem mem_commits (hj : h.commits = pre ++ (j, m) :: post) : (j, m) ∈ h.commits := by
  rw [hj]
  exact List.mem_append_right _ List.mem_cons_self

theorem journals_of_commits (hj : h.commits = pre ++ (j, m) :: post) :
    h.journals = pre.map Prod.fst ++ [j] ++ post.map Prod.fst := by
  rw [journals, hj, List.map_append, List.map_cons, List.append_assoc, List.singleton_append]

namespace Tended

/-- Nothing is stored of a commit without entries, not even an anchor. -/
theorem eq_empty (ht : h.Tended cleared) (hj : (j, m) ∈ h.commits) (hk : j.rootKey = none) :
    j.root = Digest.placeholder ∧ m = ∅ := by
  obtain ⟨tree, T, hshows, -, hb⟩ := ht.shown j m hj
  rw [hshows.rootKey] at hk
  cases hx : T.node? with
  | none =>
    obtain rfl := node?_eq_none.mp hx
    have hempty : Bears h.journals tree .vacant ∅ :=
      ⟨holds_vacant, Entries.bounded_empty, .vacant, hb.wrote⟩
    exact ⟨hshows.root, hb.entries_eq hempty ht.clean rfl⟩
  | some x =>
    obtain ⟨k, hk'⟩ := key?_of_node? hx tree []
    rw [hk] at hk'
    cases hk'

theorem ne_placeholder (ht : h.Tended cleared) (hj : (j, m) ∈ h.commits)
    (hk : j.rootKey = some k) : j.root ≠ Digest.placeholder := by
  intro hd
  obtain ⟨tree, T, hshows, -, hb⟩ := ht.shown j m hj
  obtain rfl := hb.eq_vacant ht.clean (hshows.root.symm.trans hd)
  cases hshows.rootKey.symm.trans hk

section Rooted

variable (ht : h.Tended cleared) (hg : h.Grants a) (hj : h.commits = pre ++ (j, m) :: post)
  (hk : j.rootKey = some k)
include ht hg hj hk

theorem rooted_get (hretained : Retained h.journals cleared j) (key : ByteArray) :
    Answers Access.Agrees a.Doubtful ((Trie.rooted k).get key) a (.ok m[key]?) := by
  obtain ⟨tree, T, hshows, -, hb⟩ := ht.shown j m (mem_commits hj)
  rw [← Trie.opened_eq_rooted (hshows.rootKey.symm.trans hk)]
  exact Trie.get_opened (ht.provides hg hshows hb hretained) hb.compact hb.holds hb.bounded key

/-- While no other commit has had its root, a commit that is retained is loaded. -/
theorem load_rooted (hretained : Retained h.journals cleared j)
    (hlast : ∀ i e, (i, e) ∈ post → i.root ≠ j.root) :
    Answers Access.Agrees a.Doubtful (Trie.load j.root) a (.ok (Trie.rooted k)) := by
  obtain ⟨tree, T, hshows, -, hb⟩ := ht.shown j m (mem_commits hj)
  have hkey := hshows.rootKey.symm.trans hk
  have hne := ht.ne_placeholder (mem_commits hj) hk
  have hnone : latest (post.map Prod.fst) j.root = none := by
    refine latest_eq_none fun i hi => ?_
    obtain ⟨⟨i, e⟩, hmem, rfl⟩ := List.mem_map.mp hi
    exact hlast i e hmem
  have hlatest : latest h.journals j.root = some j := by
    rw [journals_of_commits hj, latest_append, hnone, Option.none_or, latest_concat, if_pos rfl]
  rw [← Trie.opened_eq_rooted hkey]
  refine Yields.mono (ht.load_yields hg hlatest hshows hb hne)
    (fun _ ht => congrArg Except.ok ht.symm) fun _ he => ?_
  exact .inr (he.resolve_left fun hn => hn (ht.provides hg hshows hb hretained))

/-- Once another tree has had its root as well, it is that tree which is loaded, if any. -/
theorem load_other (hlast : ∀ i e, (i, e) ∈ post → i.Of k.tree → i.root ≠ j.root)
    (hi : (i, e) ∈ post) (hroot : i.root = j.root) (hload : (Trie.load j.root a).1 = .ok t) :
    t.tree ≠ k.tree := by
  have hne := ht.ne_placeholder (mem_commits hj) hk
  obtain ⟨i', hpost⟩ := exists_latest (List.mem_map_of_mem (f := Prod.fst) hi)
  obtain ⟨hmem, hroot'⟩ := mem_of_latest hpost
  obtain ⟨⟨i', e'⟩, hi', rfl⟩ := List.mem_map.mp hmem
  have hlatest : latest h.journals j.root = some i' := by
    rw [journals_of_commits hj, latest_append, ← hroot, hpost, Option.some_or]
  obtain ⟨tree, T, hshows, hof, hb⟩ := ht.shown i' e'
    (by rw [hj]; exact List.mem_append_right _ (List.mem_cons_of_mem _ hi'))
  obtain rfl := (ht.load_yields hg hlatest hshows hb hne).of_ok hload
  rintro rfl
  exact hlast i' e' hi' hof (hroot'.trans hroot)

end Rooted

end Tended

/-- On a store where no two commits to one tree write at the same version, no root digest is the
stored form of a node key and the nodes do not collide: a commit that its own tree retains reads as
committed from its root node, and it is this node that its root is loaded from, as long as no other
tree has come to the same root. If one has, loading gives its handle, which has the same entries, or
fails. Of a commit without entries nothing is stored. -/
theorem separated (volume : Volume) (store : Store) (capacity : Nat → Nat) (c : Contents)
    (turns : List Turn) (hserved : (start volume store capacity c).Throughout Served turns)
    (hrun : h = (start volume store capacity c).run turns) (hfresh : Fresh h.journals)
    (hapart : Apart h.journals) (hfree : ¬ Collides (Hashes h.journals))
    (hj : h.commits = pre ++ (j, m) :: post) :
    (j.rootKey = none → m = ∅ ∧ ∀ cache,
      (Trie.load j.root (h.access FaultPlan.none cache)).1 = .ok Trie.empty) ∧
    ∀ k, j.rootKey = some k → j.Of k.tree ∧
      ((∀ i e, (i, e) ∈ post → i.Of k.tree → i.root ≠ j.root) →
        Retained h.journals ((start volume store capacity c).cleared turns) j →
        (∀ i e, (i, e) ∈ h.commits → i.root = j.root → e = m) ∧
        (∀ cache key,
          ((Trie.rooted k).get key (h.access FaultPlan.none cache)).1 = .ok m[key]?) ∧
        ((∀ i e, (i, e) ∈ post → i.root ≠ j.root) →
          (∀ cache, (Trie.load j.root (h.access FaultPlan.none cache)).1 = .ok (Trie.rooted k)) ∧
          h.Serves j.root m) ∧
        ∀ i e, (i, e) ∈ post → i.root = j.root → ∀ cache t,
          (Trie.load j.root (h.access FaultPlan.none cache)).1 = .ok t → t.tree ≠ k.tree ∧
          ∀ key v, (t.get key (h.access FaultPlan.none cache)).1 = .ok v → v = m[key]?) := by
  subst hrun
  have hclean : Clean ((start volume store capacity c).run turns).journals :=
    ⟨hfresh.unambiguous (exists_handle_of_mem turns), hapart, hfree⟩
  have ht := (tended_start volume store capacity c).run hserved hclean
  have hs : ((start volume store capacity c).run turns).Served := hserved.last
  have hg := hs.grants ht.cached FaultPlan.none
  have hmem := mem_commits hj
  generalize (start volume store capacity c).run turns = h at *
  refine ⟨fun hk => ?_, fun k hk => ⟨?_, fun hlast hretained => ⟨?_, ?_, fun hlast => ⟨?_, ?_⟩,
    fun i e hi hroot cache t hload => ⟨?_, ?_⟩⟩⟩⟩
  · obtain ⟨hroot, hm⟩ := ht.eq_empty hmem hk
    refine ⟨hm, fun cache => ?_⟩
    rw [hroot, Trie.load_placeholder]
    rfl
  · obtain ⟨tree, T, -, hof, -⟩ := ht.shown j m hmem
    rw [hof.rootKey k hk]
    exact hof
  · exact fun i e hi hroot => ht.entries_eq hi hmem hroot
  · exact fun cache key => (ht.rooted_get (hg cache) hj hk hretained key).eq fun hd => hd rfl
  · exact fun cache => (ht.load_rooted (hg cache) hj hk hretained hlast).eq fun hd => hd rfl
  · intro cache key
    refine ((ht.load_rooted (hg cache) hj hk hretained hlast).bind_ok fun b hab => ?_).eq
      fun hd => hd rfl
    exact (ht.rooted_get ((hg cache).agrees hab) hj hk hretained key).mono hab.reads
  · exact ht.load_other (hg cache) hj hk hlast hi hroot hload
  · obtain ⟨tree, T, rfl, hb⟩ := ht.load (hg cache) hmem hload
    intro key v hv
    have hanswers := hb.carries.represents.get_answers (ht.backed (hg cache) hb.wrote) hb.holds
      hb.bounded key
    exact (Except.ok.inj (hanswers.eq_of_ok hv)).symm

def leftTree : TreePrefix := ⟨⟨#[108]⟩, by decide⟩

def rightTree : TreePrefix := ⟨⟨#[114]⟩, by decide⟩

/-- Two trees are updated and pruned in turn, at the same versions. The left one comes to the root
that the right one has had before. -/
def neighbours : List Turn :=
  [⟨FaultPlan.none, some 0, .create rightTree⟩,
    ⟨FaultPlan.none, some 0, .update 0 1 "a".toUTF8 "x".toUTF8⟩,
    ⟨FaultPlan.none, some 0, .commit 0⟩,
    ⟨FaultPlan.none, some 0, .load 0⟩,
    ⟨FaultPlan.none, some 0, .create leftTree⟩,
    ⟨FaultPlan.none, some 0, .update 2 1 "a".toUTF8 "w".toUTF8⟩,
    ⟨FaultPlan.none, some 0, .commit 2⟩,
    ⟨FaultPlan.none, some 0, .load 1⟩,
    ⟨FaultPlan.none, some 0, .update 3 2 "a".toUTF8 "x".toUTF8⟩,
    ⟨FaultPlan.none, some 0, .commit 3⟩,
    ⟨FaultPlan.none, some 0, .prune 2⟩,
    ⟨FaultPlan.none, some 0, .update 1 2 "a".toUTF8 "y".toUTF8⟩,
    ⟨FaultPlan.none, some 0, .commit 1⟩,
    ⟨FaultPlan.none, some 0, .prune 3⟩]

theorem separated_neighbours :
    (Fresh (blank.run neighbours).journals ∧ Apart (blank.run neighbours).journals ∧
      ¬ Collides (Hashes (blank.run neighbours).journals) ∧
      (blank.cleared neighbours).length = 2) ∧
    ∃ j m, (blank.run neighbours).commits[2]? = some (j, m) ∧
      j.rootKey = some (.ofPath 2 leftTree []) ∧ j.Of leftTree ∧
      (∀ cache, (Trie.load j.root ((blank.run neighbours).access FaultPlan.none cache)).1 =
        .ok (Trie.rooted (.ofPath 2 leftTree []))) ∧
      (blank.run neighbours).Serves j.root m := by
  have hcomputed : ((Fresh (blank.run neighbours).journals ∧
        Apart (blank.run neighbours).journals ∧ Distinct (blank.run neighbours).journals) ∧
        (blank.cleared neighbours).length = 2) ∧
      (blank.run neighbours).commits[2]?.map (fun r => r.1.rootKey) =
        some (some (.ofPath 2 leftTree [])) ∧
      (find (blank.run neighbours).journals (.ofPath 2 leftTree [])).toOption.any Node.isLeaf ∧
      (∀ c, c ∈ blank.cleared neighbours → NodeKey.ofPath 2 leftTree [] ∉ c.superseded) ∧
      ∀ r, r ∈ (blank.run neighbours).commits[2]? →
        ∀ i, i ∈ (blank.run neighbours).commits.drop 3 → i.1.root ≠ r.1.root := by
    decide +kernel
  obtain ⟨⟨⟨hfresh, hapart, hfree⟩, hcleared⟩, hkey, hleaf, hclear, hlast⟩ := hcomputed
  obtain ⟨⟨j, m⟩, hj, hk⟩ := Option.map_eq_some_iff.mp hkey
  obtain ⟨hlt, hget⟩ := List.getElem?_eq_some_iff.mp hj
  have hsplit : (blank.run neighbours).commits = (blank.run neighbours).commits.take 2 ++
      (j, m) :: (blank.run neighbours).commits.drop 3 := by
    rw [← hget, ← List.drop_eq_getElem_cons, List.take_append_drop]
  have hother : ∀ i e, (i, e) ∈ (blank.run neighbours).commits.drop 3 → i.root ≠ j.root :=
    fun i e hi => hlast (j, m) hj (i, e) hi
  obtain ⟨-, hrooted⟩ := separated default default (fun _ => 8) ∅ neighbours
    (served_blank neighbours) rfl hfresh hapart hfree.free hsplit
  obtain ⟨hof, hretains⟩ := hrooted _ hk
  obtain ⟨-, -, hloads, -⟩ := hretains (fun i e hi _ => hother i e hi)
    (retained_leaf hk hleaf hclear)
  exact ⟨⟨hfresh, hapart, hfree.free, hcleared⟩, j, m, hj, hk, hof, hloads hother⟩

end Hub

end VersionedTrie
