import VersionedTrie.Proofs.Lineage.Basic
import VersionedTrie.Proofs.Lineage.Ledger

/-! # Keeping track of a lineage

The commits of a lineage are a history of trees, and its handle stands over the last of them; the
store has what the ledger says. This is kept by every move (`Tracks.perform`), whichever deletes have
been applied: a handle never superseded anything but nodes of the tree that it began with, and it is
always begun with the last tree.
-/

set_option autoImplicit false

namespace VersionedTrie

open VersionedTrie.Tree

namespace Lineage

open Log

variable {l : Lineage} {trees : Nat → Tree} {T : Tree} {a : Access} {k : NodeKey} {x y : Node}
  {j : Journal} {m : Entries} {n : Nat}

/-- `trees` are those of the commits, and the handle has come from the last of them to `T`. -/
structure Tracks (l : Lineage) (trees : Nat → Tree) (T : Tree) : Prop where
  history : History l.session.trie.tree l.commits trees
  stands : l.session.Stands (trees l.commits.length) T l.entries
  exactness : l.session.trie.committed = false →
    l.session.trie.Exact (trees l.commits.length) T
  fresh : ∀ (k : NodeKey) (x : Node), l.session.trie.dirty[k]? = some x →
    ∀ c, c ∈ l.commits → ∀ r, r ∈ c.1.written → r.1.version < k.version
  cached : ∀ k x y, Wrote l.journals k x → l.session.access.peek k = some y → y = x
  ledger : Ledger l.session.contents l.commits l.pruned

theorem tracks_start (tree : TreePrefix) (a : Access) :
    (start tree a).Tracks (fun _ => .vacant) .vacant where
  history := .nil
  stands := Session.stands_start tree a ∅
  exactness _ := Trie.exact_opened tree .vacant
  fresh _ _ _ _ hc := absurd hc List.not_mem_nil
  cached _ _ _ hk := absurd hk not_wrote_nil
  ledger := .nil

namespace Tracks

theorem carries (h : l.Tracks trees T) (hlive : l.session.trie.committed = false) :
    Carries l.journals l.session.trie (trees l.commits.length) T l.entries :=
  ⟨(h.stands.live hlive).2, h.stands.holds, h.stands.bounded, fun _ _ => h.history.wrote le_rfl⟩

/-- What a live handle has written anew has not been written before. -/
theorem not_wrote_dirty (h : l.Tracks trees T) (hd : l.session.trie.dirty[k]? = some x) :
    ¬ Wrote l.journals k y := by
  rintro ⟨j, hj, hk, _⟩
  obtain ⟨c, hc, rfl⟩ := List.mem_map.mp hj
  exact UInt64.lt_irrefl _ (h.fresh k x hd c hc (k, y.encode) hk)

/-- The last tree, if it has nodes, is that of a commit. -/
theorem exists_root (h : l.Tracks trees T) (hclosed : l.session.trie.committed = true)
    (hne : T ≠ .vacant) : ∃ j, j ∈ l.journals ∧ j.root = T.digest := by
  obtain ⟨_, rfl, _⟩ := h.stands.closed hclosed
  cases hn : l.commits.length with
  | zero =>
    rw [hn, h.history.first] at hne
    exact absurd rfl hne
  | succ n =>
    have hlt : n < l.commits.length := by
      rw [hn]
      exact Nat.lt_succ_self n
    obtain ⟨j, m, hj, hl⟩ := h.history.exists_commit hlt
    exact ⟨j, List.mem_map_of_mem (List.mem_of_getElem? hj), hl.shows.root⟩

/-! ## The moves -/

theorem settle (h : l.Tracks trees T) (ha : l.session.access.Agrees a) :
    (l.settle a).Tracks trees T :=
  { h with
    stands := h.stands.agrees ha
    cached := fun k x y hk hy => h.cached k x y hk (by rwa [← ha.peek]) }

theorem update (h : l.Tracks trees T) (hh : l.session.Honest) {version : Version}
    (hv : ∀ c, c ∈ l.commits → ∀ r, r ∈ c.1.written → r.1.version < version)
    (key value : ByteArray) :
    ∃ T', (l.perform (.update version key value)).Tracks trees T' := by
  cases hc : l.session.trie.committed with
  | true =>
    have hsame : l.perform (.update version key value) = l := by
      rw [perform, Session.update_closed hc, Trie.update_closed hc]
      rfl
    rw [hsame]
    exact ⟨T, h⟩
  | false =>
    obtain ⟨ha, T', m', hstands, hbecomes, hcases⟩ := h.stands.update hh hc version key value
    have hentries : l.entries.reported key value
        (l.session.trie.update version key value l.session.access).1.1 = m' := by
      obtain ⟨hm', hok⟩ | ⟨e, he, rfl, _⟩ := hcases
      · rw [hok, Entries.reported, hm']
      · rw [he, Entries.reported]
    -- the tree that the handle began with was written at other versions
    have hbase : ∀ k x, Owns l.session.trie.tree [] (trees l.commits.length) k x →
        k.version ≠ version := by
      intro k x hk e
      obtain ⟨i, j, m, _, hj, hwritten⟩ := h.history.exists_written le_rfl hk
      have hlt := hv (j, m) (List.mem_of_getElem? hj) (k, x.encode) hwritten
      rw [e] at hlt
      exact UInt64.lt_irrefl _ hlt
    refine ⟨T', ?_, ?_, fun _ => hbecomes.exactness (h.exactness hc) hbase, fun k x hd => ?_,
      fun k x y hk hy => ?_, h.ledger⟩
    · rw [show (l.perform (.update version key value)).session.trie.tree = l.session.trie.tree from
        hbecomes.tree]
      exact h.history
    · rw [show (l.perform (.update version key value)).entries = m' from hentries]
      exact hstands
    · obtain hk | hd := hbecomes.dirty k x hd
      · rw [hk]
        exact hv
      · exact h.fresh k x hd
    · exact h.cached k x y hk (by rwa [← ha.peek])

theorem record (h : l.Tracks trees T) (hh : l.session.Honest)
    (hlive : l.session.trie.committed = false) (ha : l.session.access.Agrees a)
    (hapart : Apart (l.record a T.digest).journals)
    (hfree : ¬ Collides (Hashes (l.record a T.digest).journals)) :
    (l.record a T.digest).Tracks (Function.update trees (l.commits.length + 1) T) T := by
  have hc := h.carries hlive
  have hleads := hc.represents.leads (h.exactness hlive) hc.holds hc.bounded
  have hhistory := h.history.extend hleads fun c hmem r hr r' hr' => by
    obtain ⟨x, hx, _⟩ := Trie.mem_written.mp hr'
    exact h.fresh r'.1 x hx c hmem r hr
  have hlog : (l.record a T.digest).journals =
      l.journals ++ [l.session.trie.journal T.digest] := List.map_append
  have hclean : Clean (l.journals ++ [l.session.trie.journal T.digest]) :=
    hlog ▸ hhistory.clean hapart hfree
  have hlength : (l.record a T.digest).commits.length = l.commits.length + 1 :=
    List.length_append
  refine ⟨hhistory, ?_, nofun, fun k x hd => ?_, fun k x y hk hy => ?_, ?_⟩
  · rw [hlength, Function.update_self]
    exact h.stands.committedTo hh hlive ha
  · have hnone : (l.record a T.digest).session.trie.dirty[k]? = none :=
      Std.ExtTreeMap.getElem?_empty
    cases hnone.symm.trans hd
  · rw [hlog] at hk
    refine Trie.meets_committedTo (P := fun y => y = x) (a := a) (fun z hd => ?_)
      (fun hd y hy => ?_) y hy
    · exact hclean.wrote_unique (hc.wrote_dirty hd) hk
    · obtain hd' | ⟨_, hk⟩ := hc.wrote_cases hclean hk
      · rw [hd] at hd'
        cases hd'
      · exact h.cached k x y hk (by rwa [← ha.peek])
  · exact h.ledger.commit hclean h.history hc fun _ _ _ hd => h.not_wrote_dirty hd

theorem commit (h : l.Tracks trees T) (hh : l.session.Honest)
    (hapart : Apart (l.perform .commit).journals)
    (hfree : ¬ Collides (Hashes (l.perform .commit).journals)) :
    ∃ trees', (l.perform .commit).Tracks trees' T := by
  obtain ⟨a, ha, hrun⟩ | ⟨root, a, hroot, ha, hrun⟩ := l.perform_commit
  · rw [hrun]
    exact ⟨trees, h.settle ha⟩
  · have hlive := Trie.live_of_rootDigest hroot
    have hdigest := (h.carries hlive).represents.rootDigest_answers (h.stands.backed hh)
    obtain rfl : T.digest = root := Except.ok.inj (hdigest.eq_of_ok hroot)
    rw [hrun] at hapart hfree ⊢
    exact ⟨_, h.record hh hlive ha hapart hfree⟩

theorem loadedAs (h : l.Tracks trees T) (hc : l.session.trie.committed = true)
    (ha : l.session.access.Agrees a) :
    ({ l with session := l.session.loadedAs a T } : Lineage).Tracks trees T := by
  have hbase : trees l.commits.length = T := (h.stands.closed hc).2.1
  refine ⟨h.history, ?_, fun _ => ?_, fun k x hd => ?_, fun k x y hk hy => ?_, h.ledger⟩
  · show (l.session.loadedAs a T).Stands (trees l.commits.length) T l.entries
    rw [hbase]
    exact h.stands.loadedAs hc ha
  · show (Trie.opened l.session.trie.tree T).Exact (trees l.commits.length) T
    rw [hbase]
    exact Trie.exact_opened l.session.trie.tree T
  · cases (Trie.dirty_opened l.session.trie.tree T k).symm.trans hd
  · exact h.cached k x y hk (by rwa [← ha.peek])

theorem reopen (h : l.Tracks trees T) (hh : l.session.Honest) (hclean : Clean l.journals) :
    (l.perform .reopen).Tracks trees T := by
  cases hc : l.session.trie.committed with
  | false =>
    have hrun : l.session.reopen = l.session := by
      rw [Session.reopen, (h.stands.live hc).1]
    rw [perform, hrun]
    exact h
  | true =>
    obtain ⟨hreturned, hbase, _⟩ := h.stands.closed hc
    by_cases hd : T.digest = Digest.placeholder
    · have hvacant : T = .vacant := hbase ▸ h.history.eq_vacant hclean le_rfl (hbase ▸ hd)
      rw [hd] at hreturned
      rw [perform, Session.reopen_placeholder hreturned, ← hvacant]
      exact h.loadedAs hc (refl_of Access.Agrees _)
    · obtain ⟨x, hx⟩ := exists_node?_of_digest hd
      obtain ⟨k, hk⟩ := key?_of_node? hx l.session.trie.tree []
      obtain ⟨a, ha, hrun, _⟩ | ⟨a, ha, hrun, _⟩ := h.stands.reopen_cases hh hc hd hk hx
      · rw [perform, hrun]
        exact h.settle ha
      · rw [perform, hrun]
        exact h.loadedAs hc ha

theorem clear (h : l.Tracks trees T) (hapart : Apart l.journals)
    (hj : l.commits[n]? = some (j, m)) (hpeek : ∀ k, a.peek k = l.session.access.peek k) :
    (l.clear n j a).Tracks trees T :=
  { h with
    stands := h.stands.lose hpeek (fun _ _ => Journal.getElem?_of_deletes) fun hc hne => by
      obtain ⟨i, hi, hroot⟩ := h.exists_root hc hne
      rw [← hroot]
      refine Journal.getElem?_deletes_ne fun k hk => ?_
      obtain ⟨x, hx⟩ := h.history.wrote_of_superseded hj hk
      exact hapart.encode_ne hi hx
    cached := fun k x y hk hy => h.cached k x y hk (by rwa [← hpeek])
    ledger := h.ledger.prune h.history hapart hj }

theorem prune (h : l.Tracks trees T) (hapart : Apart l.journals) (n : Nat) :
    (l.perform (.prune n)).Tracks trees T := by
  obtain ⟨a, ha, hrun⟩ | ⟨j, m, a, hj, hpeek, _, hrun⟩ := l.perform_prune n
  · rw [hrun]
    exact h.settle ha
  · rw [hrun]
    exact h.clear hapart hj hpeek

/-- What one move preserves. -/
theorem perform (h : l.Tracks trees T) (hh : l.session.Honest) {move : Move}
    (hv : l.Admits move)
    (hapart : Apart (l.perform move).journals)
    (hfree : ¬ Collides (Hashes (l.perform move).journals)) :
    ∃ trees' T', (l.perform move).Tracks trees' T' := by
  cases move with
  | update version key value => exact ⟨trees, h.update hh hv key value⟩
  | commit =>
    obtain ⟨trees', h'⟩ := h.commit hh hapart hfree
    exact ⟨trees', T, h'⟩
  | reopen => exact ⟨trees, T, h.reopen hh (h.history.clean hapart hfree)⟩
  | prune n =>
    have hsame : (l.perform (.prune n)).journals = l.journals := by
      obtain ⟨a, _, hrun⟩ | ⟨j, m, a, _, _, _, hrun⟩ := l.perform_prune n
      · rw [hrun]
        rfl
      · rw [hrun]
        rfl
    rw [hsame] at hapart
    exact ⟨trees, T, h.prune hapart n⟩

end Tracks

/-- What a whole run preserves. -/
theorem tracks_run {tree : TreePrefix} {moves : List Move}
    (hserved : (start tree a).Throughout Served moves) (hrising : (start tree a).Rising moves)
    (hapart : Apart ((start tree a).run moves).journals)
    (hfree : ¬ Collides (Hashes ((start tree a).run moves).journals)) :
    (start tree a).Throughout (fun l => ∃ trees T, l.Tracks trees T) moves := by
  refine foldl_induction (Q := fun _ (l : Lineage) => ∃ trees T, l.Tracks trees T)
    ⟨_, _, tracks_start tree a⟩ ?_
  rintro pre move hpre ⟨trees, T, h⟩
  have hsub : (((start tree a).run pre).perform move).journals ⊆
      ((start tree a).run moves).journals := by
    obtain ⟨post, rfl⟩ := hpre
    rw [run_append, run_append]
    exact List.map_subset Prod.fst (commits_kept _ post).subset
  exact h.perform (hserved.around hpre).1.honest (hrising pre move hpre) (hapart.of_subset hsub)
    fun hc => hfree (hc.mono (Hashes.mono hsub))

end Lineage

end VersionedTrie
