import VersionedTrie.Proofs.Hub.Basic
import VersionedTrie.Proofs.Log

/-! # Hubs that lose nothing

As long as the log of a hub is clean and no deletes are applied, every node that has been written
stays in the store, no cache holds another, and every anchor points to the root node of some commit
with that root (`Hub.Intact`). Every journal then shows a tree that the log bears, every handle
carries on from such a tree, and both hold the entries that they should.

`Intact.after` is the step and `Intact.run` the run. `Intact.load` is what they are for: the root of
any commit can be loaded at any later time, and the tree that is loaded holds the entries of that
commit, although the anchor may lead to the nodes of another commit with the same root.
-/

set_option autoImplicit false

namespace VersionedTrie

open VersionedTrie.Tree

namespace Hub

open Log

variable {h h' : Hub} {t : Trie} {a b : Access} {base T : Tree} {m : Entries} {k : NodeKey}
  {x : Node} {j : Journal} {tree : TreePrefix}

/-- Nothing that has been written is lost or hidden. -/
structure Intact (h : Hub) : Prop where
  clean : Clean h.journals
  kept : ∀ k x, Wrote h.journals k x → h.contents.Keeps k x
  cached : ∀ n k, (h.caches n).Meets k (Wrote h.journals k)
  anchored : ∀ j, j ∈ h.journals → ∀ k, j.rootKey = some k →
    ∃ i, i ∈ h.journals ∧ i.root = j.root ∧
      ∃ k', i.rootKey = some k' ∧ h.contents[j.root.bytes]? = some k'.encode
  shown : ∀ j m, (j, m) ∈ h.commits → ∃ tree T, j.Shows tree T ∧ Bears h.journals tree T m
  live : ∀ t m, (t, m) ∈ h.handles → t.committed = false →
    ∃ base T, Carries h.journals t base T m

/-- What is read through the access is what the hub has. -/
structure Grants (h : Hub) (a : Access) : Prop where
  lookup : ∀ b, a.lookup b = .ok h.contents[b]?
  cached : ∀ k y, a.peek k = some y → Wrote h.journals k y

/-! ## Reading from a hub -/

theorem Grants.agrees (hg : h.Grants a) (ha : a.Agrees b) : h.Grants b :=
  ⟨fun key => (ha.lookup key).trans (hg.lookup key),
    fun k y hy => hg.cached k y (by rwa [ha.peek] at hy)⟩

theorem Served.grants (hs : h.Served)
    (hcached : ∀ n k, (h.caches n).Meets k (Wrote h.journals k)) (plan : FaultPlan)
    (cache : Option Nat) : h.Grants (h.access plan cache) := by
  refine ⟨fun b => hs b, fun k y hy => ?_⟩
  cases cache with
  | none => cases hy
  | some n => exact hcached n k y hy

theorem Grants.stored (hg : h.Grants a) (hk : h.contents.Keeps k x) : a.stored k = .ok x := by
  refine Access.stored_eq_ok.mpr ⟨x.encode, ?_, Node.decode_encode hk.2⟩
  rw [hg.lookup, hk.1]

/-- What the store has of the nodes written is enough for a handle not to be misled. -/
theorem Grants.backed (hg : h.Grants a) (hclean : Clean h.journals)
    (hbacks : ∀ k x, Wrote h.journals k x → h.contents.Backs k x)
    (hw : ∀ k x, Owns tree [] base k x → Wrote h.journals k x) : a.Backed tree base := by
  intro k x hk
  refine ⟨fun y hy => hclean.wrote_unique (hg.cached k y hy) (hw k x hk), fun y hy => ?_⟩
  obtain ⟨b, hb, hdecode⟩ := Access.stored_eq_ok.mp hy
  rw [hg.lookup] at hb
  exact hbacks k x (hw k x hk) b y (Except.ok.inj hb) hdecode

/-! ## Reading from an intact hub -/

theorem Intact.grants (hi : h.Intact) (hs : h.Served) (plan : FaultPlan) (cache : Option Nat) :
    h.Grants (h.access plan cache) :=
  hs.grants hi.cached plan cache

theorem Intact.stored (hi : h.Intact) (hg : h.Grants a) (hk : Wrote h.journals k x) :
    a.stored k = .ok x :=
  hg.stored (hi.kept k x hk)

theorem Intact.found (hi : h.Intact) (hg : h.Grants a) (hk : Wrote h.journals k x) :
    a.find k = .ok x := by
  rw [Access.find]
  cases hy : a.peek k with
  | some y => rw [hi.clean.wrote_unique (hg.cached k y hy) hk]
  | none => exact hi.stored hg hk

section Reading

variable (hi : h.Intact) (hg : h.Grants a)
include hi hg

theorem Intact.backed {tree : TreePrefix}
    (hw : ∀ k x, Owns tree [] base k x → Wrote h.journals k x) :
    a.Backed tree base :=
  hg.backed hi.clean (fun k x hk => (hi.kept k x hk).backs) hw

/-- The nodes of a handle are found; only a planned fault keeps it from answering. -/
theorem Intact.doubtful (hr : t.Represents base T)
    (hw : ∀ k x, Owns t.tree [] base k x → Wrote h.journals k x)
    (hrisk : ¬ T.Whole t.tree (t.find a) ∨ a.Doubtful) : a.Doubtful :=
  hrisk.resolve_left fun hn => hn (hr.whole fun k x hk => hi.found hg (hw k x hk))

theorem Intact.get_answers (hc : Carries h.journals t base T m) (key : ByteArray) :
    Answers Access.Agrees a.Doubtful (t.get key) a (.ok m[key]?) :=
  (hc.represents.get_answers (hi.backed hg hc.wrote) hc.holds hc.bounded key).mono
    (hi.doubtful hg hc.represents hc.wrote)

end Reading

/-! ## Loading -/

theorem Intact.load (hi : h.Intact) (hj : j ∈ h.journals)
    (hshows : j.Shows tree T) (hb : Bears h.journals tree T m) :
    ∃ tree' T', Bears h.journals tree' T' m ∧ ∀ a, h.Grants a →
      Answers Access.Agrees a.Doubtful (Trie.load j.root) a (.ok (Trie.opened tree' T')) := by
  rw [hshows.root]
  by_cases hd : T.digest = Digest.placeholder
  · obtain rfl := hb.eq_vacant hi.clean hd
    refine ⟨TreePrefix.empty, .vacant,
      ⟨hb.holds, hb.bounded, hb.compact, fun _ _ hk => absurd hk not_owns_vacant⟩, fun a _ => ?_⟩
    rw [hd, Trie.load_placeholder]
    exact answers_pure
  · obtain ⟨x, hx⟩ := exists_node?_of_digest hd
    obtain ⟨k, hk⟩ := key?_of_node? hx tree []
    -- the anchor may have been written again, by a commit that leads to the same digest
    obtain ⟨i, hmem, hroot, k', hk', hanchor⟩ := hi.anchored j hj k (hshows.rootKey.trans hk)
    obtain ⟨⟨_, m'⟩, hi', rfl⟩ := List.mem_map.mp hmem
    obtain ⟨tree', T', hshows', hb'⟩ := hi.shown _ m' hi'
    have hdigest : T.digest = T'.digest := by
      rw [← hshows.root, ← hroot, hshows'.root]
    rw [hshows'.rootKey] at hk'
    rw [hshows.root, hdigest] at hanchor
    rw [hb.entries_eq hb' hi.clean hdigest, hdigest]
    refine ⟨tree', T', hb', fun a hg => Trie.load_answers hk' (hdigest ▸ hd) ?_ fun x hown => ?_⟩
    · refine Access.anchor_eq_ok.mpr ⟨k'.encode, ?_, NodeKey.decode_encode k'⟩
      rw [hg.lookup, hanchor]
    · exact hi.stored hg (hb'.wrote k' x hown)

/-- Loading the root and asking the handle that is loaded gives the entries. -/
def Serves (h : Hub) (root : Digest) (m : Entries) : Prop :=
  ∀ cache key, ((Trie.load root >>= fun t => t.get key) (h.access FaultPlan.none cache)).1 =
    .ok m[key]?

/-- Every commit can be loaded, and reads as it was committed. -/
theorem Intact.serves (hi : h.Intact) (hs : h.Served) (hj : (j, m) ∈ h.commits) :
    h.Serves j.root m := by
  intro cache key
  obtain ⟨tree, T, hshows, hb⟩ := hi.shown j m hj
  obtain ⟨tree', T', hb', hload⟩ := hi.load (List.mem_map_of_mem hj) hshows hb
  have hg := hi.grants hs FaultPlan.none cache
  refine ((hload _ hg).bind_ok fun b hab => ?_).eq fun hd => hd rfl
  exact (hi.get_answers (hg.agrees hab) hb'.carries key).mono hab.reads

/-! ## Steps and runs -/

theorem Reads.journals (hr : h.Reads h') : h'.journals = h.journals :=
  congrArg (List.map Prod.fst) hr.commits

theorem Intact.reads (hi : h.Intact) (hr : h.Reads h') (hlive : Live h.journals h'.handles) :
    h'.Intact := by
  refine ⟨?_, ?_, ?_, ?_, ?_, ?_⟩
  · rw [hr.journals]
    exact hi.clean
  · rw [hr.journals, hr.contents]
    exact hi.kept
  · rw [hr.journals]
    intro n k y hy
    rw [hr.cached] at hy
    exact hi.cached n k y hy
  · rw [hr.journals, hr.contents]
    exact hi.anchored
  · rw [hr.journals, hr.commits]
    exact hi.shown
  · rw [hr.journals]
    exact hlive

theorem journals_record (h : Hub) (j : Journal) (m : Entries) :
    (h.record j m).journals = h.journals ++ [j] :=
  List.map_append

/-- The caches after a commit have what has been written, by it or before. -/
theorem cached_commit {plan : FaultPlan} {cache : Option Nat} {root : Digest}
    (hcached : ∀ n k, (h.caches n).Meets k (Wrote h.journals k))
    (hc : Carries h.journals t base T m) (hb : (h.access plan cache).Agrees b) (n : Nat)
    (k : NodeKey) :
    ((h.settle cache (t.committedTo b root)).caches n).Meets k
      (Wrote (h.journals ++ [t.journal root]) k) := by
  have hcache : (t.committedTo b root).cache.isSome = (h.access plan cache).cache.isSome := by
    rw [← hb.cached]
    exact Option.isSome_map
  refine node?_settle (P := NodeCache.Meets k (Wrote (h.journals ++ [t.journal root]) k)) cache
    hcache (fun _ y hy => (hcached n k y hy).mono (List.subset_append_left _ _)) ?_
  rintro rfl c hrenewed
  obtain ⟨c, hcb, rfl⟩ := Option.map_eq_some_iff.mp hrenewed
  have hcb : b.cache = some c := hcb
  refine hc.meets fun y hy => hcached n k y ?_
  have hpeek := hb.peek k
  rw [Access.peek, hcb] at hpeek
  exact hpeek.symm.trans hy

theorem Intact.commit {plan : FaultPlan} {cache : Option Nat} {i : Nat} (hi : h.Intact)
    (hc : Carries h.journals t base T m) (hb : (h.access plan cache).Agrees b)
    (hclean : Clean (h.journals ++ [t.journal T.digest])) :
    (((h.settle cache (t.committedTo b T.digest)).replace i t.ended m).record
      (t.journal T.digest) m).Intact := by
  have hsub : h.journals ⊆ h.journals ++ [t.journal T.digest] := List.subset_append_left _ _
  have hlast : t.journal T.digest ∈ h.journals ++ [t.journal T.digest] :=
    List.mem_append_right _ List.mem_cons_self
  have hjournals : (((h.settle cache (t.committedTo b T.digest)).replace i t.ended m).record
      (t.journal T.digest) m).journals = h.journals ++ [t.journal T.digest] :=
    journals_record _ _ _
  refine ⟨hjournals ▸ hclean, fun k x hk => ?_, fun n k => ?_, fun j hj k hk => ?_,
    fun j m' hj => ?_, ?_⟩
  · rw [hjournals] at hk
    exact hc.keeps hclean (hi.kept k x) hk
  · rw [hjournals]
    exact cached_commit hi.cached hc hb n k
  · rw [hjournals] at hj ⊢
    obtain hj | hj := List.mem_append.mp hj
    · obtain ⟨rk, hroot, hrk, hanchor⟩ | hsame := hclean.anchors h.contents hj
      · exact ⟨t.journal T.digest, hlast, hroot, rk, hrk, hanchor⟩
      · obtain ⟨i', hi', hroot, rk, hrk, hanchor⟩ := hi.anchored j hj k hk
        exact ⟨i', hsub hi', hroot, rk, hrk, hsame.trans hanchor⟩
    · rw [List.mem_singleton.mp hj] at hk ⊢
      exact ⟨t.journal T.digest, hlast, rfl, k, hk, Trie.getElem?_batch_anchor hk⟩
  · rw [hjournals]
    obtain hj | hj := List.mem_append.mp hj
    · obtain ⟨tree, S, hshows, hb⟩ := hi.shown j m' hj
      exact ⟨tree, S, hshows, hb.mono hsub⟩
    · obtain ⟨rfl, rfl⟩ := Prod.mk.inj (List.mem_singleton.mp hj)
      exact ⟨t.tree, T, ⟨rfl, hc.represents.root⟩, hc.bears⟩
  · rw [hjournals]
    exact (Live.mono hi.live hsub).set i nofun

/-- What one turn preserves, unless it applies deletes. -/
theorem Intact.after (hi : h.Intact) (hs : h.Served) {turn : Turn}
    (hprune : ∀ n, turn.deed ≠ .prune n) (hclean : Clean (h.after turn).journals) :
    (h.after turn).Intact := by
  have hg := hi.grants hs turn.plan turn.cache
  have hmakes := h.makes_after turn
  generalize h.after turn = h' at hmakes hclean
  cases hmakes with
  | reads hr hh => exact hi.reads hr (hh ▸ hi.live)
  | @opens _ t m ht hr hh =>
    refine hi.reads hr ?_
    rw [hh]
    refine Live.concat hi.live ?_
    obtain ⟨tree, _, rfl, rfl⟩ | ⟨n, j, _, hj, hload⟩ := ht
    · exact ⟨.vacant, .vacant, carries_empty _ tree⟩
    · have hmem := List.mem_of_getElem? hj
      obtain ⟨tree, T, hshows, hb⟩ := hi.shown j m hmem
      obtain ⟨tree', T', hb', hanswers⟩ := hi.load (List.mem_map_of_mem hmem) hshows hb
      obtain rfl := Except.ok.inj ((hanswers _ hg).eq_of_ok hload)
      exact ⟨T', T', hb'.carries⟩
  | @updates _ i t m version key value hd ht hr hh =>
    refine hi.reads hr ?_
    rw [hh]
    exact Live.update hi.live ht (fun _ _ hc => hi.backed hg hc.wrote) version key value
  | @commits i t m root b hd ht hroot hb =>
    have hroot' : (t.rootDigest (h.access turn.plan turn.cache)).1 = .ok root := by rw [hroot]
    obtain ⟨base, T, hcarries⟩ :=
      hi.live t m (List.mem_of_getElem? ht) (Trie.live_of_rootDigest hroot')
    obtain rfl := hcarries.digest_eq (hi.backed hg hcarries.wrote) hroot'
    exact hi.commit hcarries hb (journals_record _ _ _ ▸ hclean)
  | prunes hd => exact absurd hd (hprune _)

theorem Intact.run {turns : List Turn} (hi : h.Intact) (hs : h.Throughout Served turns)
    (hprune : ∀ turn, turn ∈ turns → ∀ n, turn.deed ≠ .prune n)
    (hclean : Clean (h.run turns).journals) : h.Throughout Intact turns := by
  refine foldl_induction (Q := fun _ (h : Hub) => h.Intact) hi fun pre turn hpre hi => ?_
  have hsub := journals_run_subset (h := h) hpre
  rw [run_append] at hsub
  exact hi.after (hs.around hpre).1 (hprune turn (hpre.subset (by simp))) (hclean.of_subset hsub)

theorem intact_start (volume : Volume) (store : Store) (capacity : Nat → Nat) (c : Contents) :
    (start volume store capacity c).Intact where
  clean := clean_nil
  kept _ _ hk := absurd hk not_wrote_nil
  cached n k y hy := by
    have hnone : (NodeCache.ofCapacity (capacity n)).node? (k.version, k) = none :=
      congrArg (Option.map _) Std.ExtTreeMap.getElem?_empty
    cases hnone.symm.trans hy
  anchored := nofun
  shown := nofun
  live := nofun

/-- On a hub that loses nothing, a commit is served from then on. -/
theorem serves_later {volume : Volume} {store : Store} {capacity : Nat → Nat} {c : Contents}
    {turns pre post : List Turn} (hs : (start volume store capacity c).Throughout Served turns)
    (hprune : ∀ turn, turn ∈ turns → ∀ n, turn.deed ≠ .prune n)
    (hclean : Clean ((start volume store capacity c).run turns).journals)
    (hpre : pre ++ post <+: turns)
    (hj : (j, m) ∈ ((start volume store capacity c).run pre).commits) :
    ((start volume store capacity c).run (pre ++ post)).Serves j.root m := by
  have hlater : (j, m) ∈ ((start volume store capacity c).run (pre ++ post)).commits := by
    rw [run_append]
    exact (commits_kept _ post).subset hj
  exact ((intact_start volume store capacity c).run hs hprune hclean _ hpre).serves (hs _ hpre)
    hlater

end Hub

end VersionedTrie
