import VersionedTrie.Proofs.Hub.Isolation
import VersionedTrie.Proofs.Lineage.Ledger

/-! # What is retained of many trees

Journals may be pruned while handles of several trees are open on a hub. The store then lacks what
the journals that have been cleared supersede, and nothing else; and the anchor of a root leads to
the latest commit with that root, of whichever tree (`Hub.Tended`). Every turn keeps this, if no two
commits of one tree write at the same version (`Tended.after`, `Tended.run`).

So a commit whose nodes have not been superseded by a journal of its own tree still has all of them
(`Tended.provides`): a journal supersedes node keys of its own tree only. The anchor of its root is
another matter, since it does not know of trees.
-/

set_option autoImplicit false

namespace VersionedTrie

open VersionedTrie.Tree

/-- The journal is that of a commit to the tree with this prefix. -/
structure Journal.Of (j : Journal) (tree : TreePrefix) : Prop where
  written : ∀ r, r ∈ j.written → r.1.tree = tree
  superseded : ∀ k, k ∈ j.superseded → k.tree = tree
  rootKey : ∀ k, j.rootKey = some k → k.tree = tree

theorem Trie.Represents.of {t : Trie} {base T : Tree} (h : t.Represents base T) (root : Digest) :
    (t.journal root).Of t.tree where
  written r hr := by
    obtain ⟨x, hx, _⟩ := mem_written.mp (show (r.1, r.2) ∈ (t.journal root).written from hr)
    exact (h.dirty r.1 x hx).tree_eq
  superseded k hk := by
    obtain ⟨⟨x, hx⟩, _⟩ := h.superseded k hk
    exact hx.tree_eq
  rootKey k hk := tree_key? (h.root.symm.trans hk)

namespace Log

variable {log cleared : List Journal} {j : Journal} {root : Digest}

/-- No two commits to one tree write at the same version. -/
def Fresh (log : List Journal) : Prop :=
  log.Pairwise fun i j => ∀ r, r ∈ i.written → ∀ r', r' ∈ j.written → r.1.tree = r'.1.tree →
    r.1.version ≠ r'.1.version

instance (log : List Journal) : Decidable (Fresh log) :=
  inferInstanceAs (Decidable (log.Pairwise fun i j => ∀ r, r ∈ i.written → ∀ r', r' ∈ j.written →
    r.1.tree = r'.1.tree → r.1.version ≠ r'.1.version))

theorem Fresh.unambiguous (h : Fresh log)
    (hj : ∀ j, j ∈ log → ∃ (t : Trie) (root : Digest), j = t.journal root) : Unambiguous log :=
  unambiguous_of_pairwise (h.imp fun hij r hr r' hr' hk =>
    hij r hr r' hr' (congrArg NodeKey.tree hk) (congrArg NodeKey.version hk)) hj

/-- The latest commit with the root. -/
def latest (log : List Journal) (root : Digest) : Option Journal :=
  log.reverse.find? fun j => j.root = root

theorem latest_append (pre post : List Journal) (root : Digest) :
    latest (pre ++ post) root = (latest post root).or (latest pre root) := by
  rw [latest, List.reverse_append, List.find?_append, latest, latest]

theorem latest_concat (log : List Journal) (j : Journal) (root : Digest) :
    latest (log ++ [j]) root = if j.root = root then some j else latest log root := by
  rw [latest_append]
  by_cases h : j.root = root <;> simp [latest, h]

theorem mem_of_latest (h : latest log root = some j) : j ∈ log ∧ j.root = root := by
  refine ⟨List.mem_reverse.mp (List.mem_of_find?_eq_some h), ?_⟩
  simpa using List.find?_some h

theorem exists_latest (hj : j ∈ log) : ∃ i, latest log j.root = some i := by
  refine Option.isSome_iff_exists.mp (List.find?_isSome.mpr ⟨j, List.mem_reverse.mpr hj, ?_⟩)
  exact decide_eq_true rfl

theorem latest_eq_none (h : ∀ j, j ∈ log → j.root ≠ root) : latest log root = none := by
  refine List.find?_eq_none.mpr fun j hj => ?_
  simpa using h j (List.mem_reverse.mp hj)

/-- No node of the committed tree is superseded by a journal of that tree that has been cleared. -/
def Retained (log cleared : List Journal) (j : Journal) : Prop :=
  ∀ k, Reached (find log) j.rootKey k → ∀ c, c ∈ cleared → c.Of k.tree → k ∉ c.superseded

theorem retained_leaf {k : NodeKey} (hk : j.rootKey = some k)
    (hleaf : (find log k).toOption.any Node.isLeaf) (hc : ∀ c, c ∈ cleared → k ∉ c.superseded) :
    Retained log cleared j := by
  have honly : ∀ k', Reached (find log) j.rootKey k' → k' = k := by
    intro k' hr
    induction hr with
    | root hroot => exact Option.some.inj (hroot.symm.trans hk)
    | child _ hb _ ih =>
      rw [← ih, hb] at hleaf
      cases hleaf
  intro k' hr c hmem _
  rw [honly k' hr]
  exact hc c hmem

end Log

namespace Hub

open Log

/-- The journal whose deletes are applied on a turn, if there is one. -/
def clears (h : Hub) (turn : Turn) : List Journal :=
  match turn.deed, h.told turn with
  | .prune n, some (.ok _) => h.journals[n]?.toList
  | _, _ => []

/-- The journals whose deletes have been applied in a run. -/
def cleared (h : Hub) : List Turn → List Journal
  | [] => []
  | turn :: turns => h.clears turn ++ (h.after turn).cleared turns

variable {h h' : Hub} {turn : Turn} {cleared : List Journal} {t : Trie} {a b : Access}
  {base T : Tree} {m e : Entries} {k : NodeKey} {x : Node} {i j : Journal} {tree : TreePrefix}
  {root : Digest}

theorem cleared_concat (h : Hub) (turns : List Turn) (turn : Turn) :
    h.cleared (turns ++ [turn]) = h.cleared turns ++ (h.run turns).clears turn := by
  induction turns generalizing h with
  | nil => exact List.append_nil _
  | cons first turns ih =>
    rw [List.cons_append, Hub.cleared, Hub.cleared, ih, List.append_assoc]
    rfl

theorem clears_subset (h : Hub) (turn : Turn) : h.clears turn ⊆ h.journals := by
  intro j hj
  unfold clears at hj
  split at hj
  · exact List.mem_of_getElem? (Option.mem_toList.mp hj)
  · cases hj

theorem clears_of_told {n count : Nat} (hd : turn.deed = .prune n)
    (hj : h.commits[n]? = some (j, m)) (htold : h.told turn = some (.ok (.pruned count))) :
    h.clears turn = [j] := by
  have hjournal : h.journals[n]? = some j := by
    rw [journals, List.getElem?_map, hj]
    rfl
  rw [clears, hd, htold]
  simp only [hjournal]
  rfl

/-- What has been written is lost only if it has been superseded by a journal that has been cleared,
and nothing is hidden by what is in its place. -/
structure Tended (h : Hub) (cleared : List Journal) : Prop where
  clean : Clean h.journals
  known : cleared ⊆ h.journals
  kept : ∀ k x, Wrote h.journals k x → (∀ c, c ∈ cleared → k ∉ c.superseded) →
    h.contents.Keeps k x
  backs : ∀ k x, Wrote h.journals k x → h.contents.Backs k x
  cached : ∀ n k, (h.caches n).Meets k (Wrote h.journals k)
  superseded : ∀ j, j ∈ h.journals → ∀ k, k ∈ j.superseded → ∃ x, Wrote h.journals k x
  anchored : ∀ root j k, latest h.journals root = some j → j.rootKey = some k →
    h.contents[root.bytes]? = some k.encode
  shown : ∀ j m, (j, m) ∈ h.commits →
    ∃ tree T, j.Shows tree T ∧ j.Of tree ∧ Bears h.journals tree T m
  live : Live h.journals h.handles

/-! ## Loading from a hub that is tended -/

/-- Commits with one root have the same entries, to whichever trees they are. -/
theorem Tended.entries_eq (ht : h.Tended cleared) (hi : (i, e) ∈ h.commits)
    (hj : (j, m) ∈ h.commits) (hroot : i.root = j.root) : e = m := by
  obtain ⟨tree, S, hshows, -, hb⟩ := ht.shown i e hi
  obtain ⟨tree', T, hshows', -, hb'⟩ := ht.shown j m hj
  exact hb.entries_eq hb' ht.clean (by rw [← hshows.root, ← hshows'.root, hroot])

section Loading

variable (ht : h.Tended cleared) (hg : h.Grants a)
include ht hg

theorem Tended.backed (hw : ∀ k x, Owns tree [] base k x → Wrote h.journals k x) :
    a.Backed tree base :=
  hg.backed ht.clean ht.backs hw

/-- A tree that is retained is all there: no journal of another tree can supersede its nodes. -/
theorem Tended.provides (hshows : j.Shows tree T) (hb : Bears h.journals tree T m)
    (hretained : Retained h.journals cleared j) : a.Provides tree T := by
  have hwhole : T.Whole tree (find h.journals) := fun k x hk => ht.clean.find_eq (hb.wrote k x hk)
  intro k x hk
  have hwrote := hb.wrote k x hk
  refine ⟨fun y hy => ht.clean.wrote_unique (hg.cached k y hy) hwrote, hg.stored ?_⟩
  refine ht.kept k x hwrote fun c hc hsuperseded => ?_
  obtain ⟨⟨_, e⟩, hmem, rfl⟩ := List.mem_map.mp (ht.known hc)
  obtain ⟨tree', _, _, hof, _⟩ := ht.shown _ e hmem
  rw [← hof.superseded k hsuperseded] at hof
  refine hretained k ?_ _ hc hof hsuperseded
  rw [hshows.rootKey]
  exact ((owns_iff_reached hwhole).mp hk).1

/-- A root is loaded through its latest commit. -/
theorem Tended.load_yields (hlatest : latest h.journals root = some i)
    (hshows : i.Shows tree T) (hb : Bears h.journals tree T m) (hne : root ≠ Digest.placeholder) :
    Yields Access.Agrees (Trie.load root) a (fun t => t = Trie.opened tree T)
      fun _ => ¬ a.Provides tree T ∨ a.Doubtful := by
  obtain rfl : T.digest = root := hshows.root.symm.trans (mem_of_latest hlatest).2
  obtain ⟨x, hx⟩ := exists_node?_of_digest hne
  obtain ⟨k, hk⟩ := key?_of_node? hx tree []
  have hown := owns_self hk hx
  have hanchor : a.anchor T.digest = .ok k := by
    refine Access.anchor_eq_ok.mpr ⟨k.encode, ?_, NodeKey.decode_encode k⟩
    rw [hg.lookup, ht.anchored _ i k hlatest (hshows.rootKey.trans hk)]
  have hload := Trie.load_yields (a := a) hk hx hne
    (fun k' hk' => by rw [hanchor] at hk'; exact (Except.ok.inj hk').symm)
    (ht.backed hg hb.wrote k x hown).2
  refine Yields.mono hload (fun _ ht => ht.1) fun _ he => he.imp_left fun hn hp => ?_
  exact hn ⟨hanchor, (hp k x hown).2⟩

/-- Whatever is loaded has the entries of the commit. -/
theorem Tended.load (hj : (j, m) ∈ h.commits) (hload : (Trie.load j.root a).1 = .ok t) :
    ∃ tree T, t = Trie.opened tree T ∧ Bears h.journals tree T m := by
  obtain ⟨tree, T, hshows, hof, hb⟩ := ht.shown j m hj
  by_cases hd : j.root = Digest.placeholder
  · obtain rfl := hb.eq_vacant ht.clean (hshows.root.symm.trans hd)
    rw [hd, Trie.load_placeholder] at hload
    exact ⟨TreePrefix.empty, .vacant, (Except.ok.inj hload).symm,
      ⟨hb.holds, hb.bounded, hb.compact, fun _ _ hk => absurd hk not_owns_vacant⟩⟩
  · obtain ⟨i, hlatest⟩ := exists_latest (List.mem_map_of_mem hj)
    obtain ⟨hmem, hroot⟩ := mem_of_latest hlatest
    obtain ⟨⟨_, m'⟩, hi, rfl⟩ := List.mem_map.mp hmem
    obtain ⟨tree', T', hshows', -, hb'⟩ := ht.shown _ m' hi
    obtain rfl := (ht.load_yields hg hlatest hshows' hb' hd).of_ok hload
    obtain rfl := ht.entries_eq hi hj hroot
    exact ⟨tree', T', rfl, hb'⟩

end Loading

/-! ## Steps and runs -/

theorem tended_start (volume : Volume) (store : Store) (capacity : Nat → Nat) (c : Contents) :
    (start volume store capacity c).Tended [] where
  clean := clean_nil
  known := List.nil_subset _
  kept _ _ hk := absurd hk not_wrote_nil
  backs _ _ hk := absurd hk not_wrote_nil
  cached := (intact_start volume store capacity c).cached
  superseded := nofun
  anchored := nofun
  shown := nofun
  live := nofun

namespace Tended

/-- Where more has been cleared, less needs to be kept. -/
theorem more (ht : h.Tended cleared) {others : List Journal} (ho : others ⊆ h.journals) :
    h.Tended (cleared ++ others) :=
  { ht with
    known := List.append_subset.mpr ⟨ht.known, ho⟩
    kept := fun k x hk hclear =>
      ht.kept k x hk fun c hc => hclear c (List.mem_append_left _ hc) }

theorem reads (ht : h.Tended cleared) (hr : h.Reads h') (hlive : Live h.journals h'.handles) :
    h'.Tended cleared where
  clean := hr.journals ▸ ht.clean
  known := hr.journals ▸ ht.known
  kept := by
    rw [hr.journals, hr.contents]
    exact ht.kept
  backs := by
    rw [hr.journals, hr.contents]
    exact ht.backs
  cached n k y hy := by
    rw [hr.cached] at hy
    rw [hr.journals]
    exact ht.cached n k y hy
  superseded := hr.journals ▸ ht.superseded
  anchored := by
    rw [hr.journals, hr.contents]
    exact ht.anchored
  shown := by
    rw [hr.journals, hr.commits]
    exact ht.shown
  live := hr.journals ▸ hlive

theorem commit {plan : FaultPlan} {cache : Option Nat} {n : Nat} (ht : h.Tended cleared)
    (hc : Carries h.journals t base T m) (hb : (h.access plan cache).Agrees b)
    (hclean : Clean (h.journals ++ [t.journal T.digest])) :
    (((h.settle cache (t.committedTo b T.digest)).replace n t.ended m).record
      (t.journal T.digest) m).Tended cleared := by
  have hsub : h.journals ⊆ h.journals ++ [t.journal T.digest] := List.subset_append_left _ _
  have hjournals : (((h.settle cache (t.committedTo b T.digest)).replace n t.ended m).record
      (t.journal T.digest) m).journals = h.journals ++ [t.journal T.digest] :=
    journals_record _ _ _
  refine ⟨hjournals ▸ hclean, ?_, ?_, ?_, ?_, ?_, ?_, fun j m' hj => ?_, ?_⟩ <;> rw [hjournals]
  · exact List.Subset.trans ht.known hsub
  · exact fun k x hk hclear => hc.keeps hclean (fun hold => ht.kept k x hold hclear) hk
  · exact fun k x hk => hc.backs hclean (ht.backs k x) hk
  · exact cached_commit ht.cached hc hb
  · intro j hj k hk
    obtain hj | hj := List.mem_append.mp hj
    · obtain ⟨x, hx⟩ := ht.superseded j hj k hk
      exact ⟨x, hx.mono hsub⟩
    · rw [List.mem_singleton.mp hj] at hk
      obtain ⟨⟨x, hx⟩, -⟩ := hc.represents.superseded k hk
      exact ⟨x, (hc.wrote k x hx).mono hsub⟩
  · intro root j k hlatest hk
    rw [latest_concat] at hlatest
    split at hlatest
    · next hroot =>
      cases hlatest
      rw [← hroot]
      exact Trie.getElem?_batch_anchor hk
    · next hroot =>
      obtain ⟨hmem, rfl⟩ := mem_of_latest hlatest
      exact (hclean.getElem?_anchor hmem fun _ e => hroot e.symm).trans
        (ht.anchored _ j k hlatest hk)
  · obtain hj | hj := List.mem_append.mp hj
    · obtain ⟨tree, S, hshows, hof, hb⟩ := ht.shown j m' hj
      exact ⟨tree, S, hshows, hof, hb.mono hsub⟩
    · obtain ⟨rfl, rfl⟩ := Prod.mk.inj (List.mem_singleton.mp hj)
      exact ⟨t.tree, T, ⟨rfl, hc.represents.root⟩, hc.represents.of T.digest, hc.bears⟩
  · exact (ht.live.mono hsub).set n nofun

theorem prune {plan : FaultPlan} {cache : Option Nat} (ht : h.Tended cleared)
    (hj : j ∈ h.journals) (hb : (h.access plan cache).Agrees b) :
    { h.settle cache (b.written j.deletes) with
      contents := j.deletes.apply h.contents : Hub }.Tended (cleared ++ [j]) where
  clean := ht.clean
  known := List.append_subset.mpr ⟨ht.known, fun _ hc => List.mem_singleton.mp hc ▸ hj⟩
  kept k x hk hclear := by
    obtain ⟨hkept, hs⟩ := ht.kept k x hk fun c hc => hclear c (List.mem_append_left _ hc)
    refine ⟨(Journal.getElem?_deletes_ne fun k' hk' e => ?_).trans hkept, hs⟩
    rw [NodeKey.encode_inj.mp e] at hk'
    exact hclear j (List.mem_append_right _ List.mem_cons_self) hk'
  backs k x hk v y hv := ht.backs k x hk v y (Journal.getElem?_of_deletes hv)
  cached n k y hy := ht.cached n k y (((reads_settle hb).cached n k).symm.trans hy)
  superseded := ht.superseded
  anchored root i k hlatest hk := by
    obtain ⟨hmem, rfl⟩ := mem_of_latest hlatest
    refine (Journal.getElem?_deletes_ne fun k' hk' => ?_).trans (ht.anchored _ i k hlatest hk)
    obtain ⟨x, hx⟩ := ht.superseded j hj k' hk'
    exact ht.clean.apart.encode_ne hmem hx
  shown := ht.shown
  live := ht.live

/-- What one turn preserves. -/
theorem after (ht : h.Tended cleared) (hs : h.Served) (turn : Turn)
    (hclean : Clean (h.after turn).journals) :
    (h.after turn).Tended (cleared ++ h.clears turn) := by
  have hg := hs.grants ht.cached turn.plan turn.cache
  have hmakes := h.makes_after turn
  have hknown := h.clears_subset turn
  generalize h.after turn = h' at hmakes hclean
  cases hmakes with
  | reads hr hh => exact (ht.reads hr (hh ▸ ht.live)).more (hr.journals ▸ hknown)
  | @opens _ t m hopens hr hh =>
    refine (ht.reads hr ?_).more (hr.journals ▸ hknown)
    rw [hh]
    refine ht.live.concat ?_
    obtain ⟨tree, _, rfl, rfl⟩ | ⟨n, j, _, hj, hload⟩ := hopens
    · exact ⟨.vacant, .vacant, carries_empty _ tree⟩
    · obtain ⟨tree, T, rfl, hb⟩ := ht.load hg (List.mem_of_getElem? hj) hload
      exact ⟨T, T, hb.carries⟩
  | @updates _ i t m version key value hd hi hr hh =>
    refine (ht.reads hr ?_).more (hr.journals ▸ hknown)
    rw [hh]
    exact ht.live.update hi (fun _ _ hc => ht.backed hg hc.wrote) version key value
  | @commits i t m root b hd hi hroot hb =>
    have hroot' : (t.rootDigest (h.access turn.plan turn.cache)).1 = .ok root := by rw [hroot]
    obtain ⟨base, T, hc⟩ :=
      ht.live t m (List.mem_of_getElem? hi) (Trie.live_of_rootDigest hroot')
    obtain rfl := hc.digest_eq (ht.backed hg hc.wrote) hroot'
    rw [journals_record] at hclean
    refine (ht.commit hc hb hclean).more (List.Subset.trans hknown ?_)
    rw [journals_record]
    exact List.subset_append_left _ _
  | @prunes n j m b hd hj hb htold =>
    rw [clears_of_told hd hj htold]
    exact ht.prune (List.mem_map_of_mem (List.mem_of_getElem? hj)) hb

theorem run {turns : List Turn} (ht : h.Tended []) (hs : h.Throughout Served turns)
    (hclean : Clean (h.run turns).journals) : (h.run turns).Tended (h.cleared turns) := by
  refine foldl_induction (Q := fun pre (h' : Hub) => h'.Tended (h.cleared pre)) ht ?_ turns
    List.prefix_rfl
  intro pre turn hpre ih
  rw [cleared_concat]
  have hsub := journals_run_subset (h := h) hpre
  rw [run_append] at hsub
  exact ih.after (hs.around hpre).1 turn (hclean.of_subset hsub)

end Tended

end Hub

end VersionedTrie
