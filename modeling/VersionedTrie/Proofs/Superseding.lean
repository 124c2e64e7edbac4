import VersionedTrie.Proofs.Changes.Frame
import VersionedTrie.Proofs.Lineage.Ledger
import VersionedTrie.Proofs.Observation

/-! # What a commit supersedes

A handle that has loaded a root keeps account of the nodes of that root which its updates take out
of the trie (`Trie.Accounts`): a node that has not been written again under its node key is in use
or superseded. Once a node key of the root is dirty, the copy in the store is out of account: it is
not superseded any more, and it does not come to be when a later update drops the dirty node.

So the commit that follows supersedes, of the nodes of the root, exactly those that are not reached
any more and whose node key has not been dirty since (`Session.supersedes_undirtied`). Where no
update uses the version of such a node again, none is missed, and applying the deletes leaves none of
them in the store; where one does, the node may stay behind.
-/

set_option autoImplicit false

namespace VersionedTrie

open VersionedTrie.Tree

/-! ## The account of a handle -/

namespace Trie

variable {t : Trie} {base T T' : Tree} {version : Version} {path : Path} {value : ByteArray}
  {c : Changes} {touched touched' : NodeKey → Prop}

/-- The committed nodes that have not been touched are accounted for; of those that have been
touched none is superseded, and one that is not dirty has gone. -/
structure Accounts (t : Trie) (base T : Tree) (touched : NodeKey → Prop) : Prop where
  untouched : ∀ k x, Owns t.tree [] base k x → ¬ touched k →
    Owns t.tree [] T k x ∨ k ∈ t.superseded
  dirty : ∀ k, t.dirty[k]? ≠ none → touched k
  touched : ∀ k, touched k → k ∉ t.superseded ∧ (t.dirty[k]? = none → ∀ x, ¬ Owns t.tree [] T k x)

theorem Accounts.congr (h : t.Accounts base T touched) (hiff : ∀ k, touched k ↔ touched' k) :
    t.Accounts base T touched' := by
  rwa [show touched' = touched from funext fun k => propext (hiff k).symm]

theorem accounts_opened (tree : TreePrefix) (T : Tree) (htouched : ∀ k, ¬ touched k) :
    (opened tree T).Accounts T T touched where
  untouched _ _ hk _ := .inl hk
  dirty k hk := absurd (dirty_opened tree T k) hk
  touched k hk := absurd hk (htouched k)

/-- Changes touch what they write. -/
theorem Accounts.apply (h : t.Accounts base T touched)
    (hc : c.Sets t.tree version path value T T') :
    (t.apply c).Accounts base T' fun k => touched k ∨ (t.apply c).dirty[k]? ≠ none := by
  have hp := hc.patches
  have hunwritten : ∀ k : NodeKey, (t.apply c).dirty[k]? = none → c.written[k]? = none := by
    intro k hk
    cases hw : c.written[k]? with
    | none => rfl
    | some x =>
      rw [dirty_apply_written hw] at hk
      cases hk
  refine ⟨?_, fun k hk => .inr hk, ?_⟩
  · rw [tree_apply]
    intro k x hbase hk
    obtain ⟨hnot, hclean⟩ := not_or.mp hk
    have hw := hunwritten k (not_not.mp hclean)
    have hd : t.dirty[k]? = none := by_contra fun hd => hnot (h.dirty k hd)
    rw [mem_superseded_apply hp.nodup]
    obtain hT | hs := h.untouched k x hbase hnot
    · exact (hp.stale k x hT).symm.imp And.right fun hr => ⟨hw, .inr ⟨hr, hd⟩⟩
    · exact .inr ⟨hw, .inl hs⟩
  · rw [tree_apply]
    intro k hk
    rw [mem_superseded_apply hp.nodup]
    cases hw : c.written[k]? with
    | some x =>
      refine ⟨nofun, fun hn => ?_⟩
      rw [dirty_apply_written hw] at hn
      cases hn
    | none =>
      rw [dirty_apply hw] at hk ⊢
      -- what is not written was touched before, and is retired only where it is dirty
      have hbefore : touched k := by
        refine hk.elim id fun hd => h.dirty k fun hn => hd ?_
        rw [hn, ite_self]
      obtain ⟨hsuperseded, hgone⟩ := h.touched k hbefore
      refine ⟨?_, fun hn x hx => ?_⟩
      · rintro ⟨-, hs | ⟨hr, hd⟩⟩
        · exact hsuperseded hs
        · obtain ⟨x, hx⟩ := hp.retired k hr
          exact hgone hd x hx
      · obtain hw' | ⟨-, hr, hT⟩ := hp.fresh k x hx
        · rw [hw] at hw'
          cases hw'
        · rw [if_neg hr] at hn
          exact hgone hn x hT

/-- The step of an update touches what is dirty afterwards. -/
theorem Represents.update_accounts (h : t.Represents base T) {a : Access}
    (ha : a.Backed t.tree base) (hacc : t.Accounts base T touched) (version : Version)
    (key value : ByteArray) :
    a.Agrees (t.update version key value a).2 ∧
      ∃ T', t.Becomes base T version (t.update version key value a).1.2 T' ∧
        (t.update version key value a).1.2.Accounts base T' fun k =>
          touched k ∨ (t.update version key value a).1.2.dirty[k]? ≠ none := by
  obtain ⟨d, hd, haccess, hcases⟩ := h.update_cases ha version key value
  have hread := h.remember ha hd version
  have hacc' : ({ t with seen := d.seen } : Trie).Accounts base T touched :=
    ⟨hacc.untouched, hacc.dirty, hacc.touched⟩
  rw [haccess]
  refine ⟨hd.access, ?_⟩
  obtain htrie | ⟨w, c, T', -, hfollows, -, htrie⟩ := hcases
  · rw [htrie]
    exact ⟨T, hread, hacc'.congr fun k => (or_iff_left_of_imp (hacc.dirty k)).symm⟩
  · rw [htrie]
    obtain ⟨huntouched, hdirty, htouched⟩ := hacc'.apply hfollows.sets
    exact ⟨T', hread.trans (hread.represents.apply hfollows.sets), huntouched, hdirty, htouched⟩

end Trie

namespace Session

/-! ## Loading a root -/

/-- Where a root that was returned has been loaded, the handle is that of a tree. -/
theorem Stands.reopen_opened {s : Session} {base T : Tree} {m : Entries} (h : s.Stands base T m)
    (hh : s.Honest) (hc : s.trie.committed = true) (hlive : s.reopen.trie.committed = false) :
    ∃ T' m', s.reopen.Stands T' T' m' ∧ s.reopen.trie = Trie.opened s.trie.tree T' := by
  obtain ⟨hreturned, -, -⟩ := h.closed hc
  by_cases hne : T.digest = Digest.placeholder
  · rw [hne] at hreturned
    rw [reopen_placeholder hreturned]
    exact ⟨.vacant, ∅, stands_loadedAs_vacant s s.access, rfl⟩
  · obtain ⟨x, hx⟩ := exists_node?_of_digest hne
    obtain ⟨k, hk⟩ := key?_of_node? hx s.trie.tree []
    obtain ⟨a, -, hrun, -⟩ | ⟨a, ha, hrun, -⟩ := h.reopen_cases hh hc hne hk hx
    · rw [hrun] at hlive
      exact absurd (hc.symm.trans hlive) nofun
    · rw [hrun]
      exact ⟨T, m, h.loadedAs hc ha, rfl⟩

/-! ## Updates after loading -/

variable {s₀ s : Session} {base T : Tree} {pre updates : List Action} {k : NodeKey} {x : Node}

/-- The node key has been dirty at some point of the run. -/
def Dirtied (s₀ : Session) (updates : List Action) (k : NodeKey) : Prop :=
  ∃ pre, pre <+: updates ∧ (s₀.run pre).trie.dirty[k]? ≠ none

/-- The session has come by updates from one that had just loaded a tree. -/
structure Continues (s₀ : Session) (base : Tree) (updates : List Action) (s : Session) (T : Tree) :
    Prop where
  tree : s.trie.tree = s₀.trie.tree
  access : s₀.access.Agrees s.access
  represents : s.trie.Represents base T
  accounts : s.trie.Accounts base T (s₀.Dirtied updates)
  versions : ∀ k : NodeKey, s.trie.dirty[k]? ≠ none →
    ∃ key value, .update k.version key value ∈ updates

theorem dirtied_append {action : Action} : s₀.Dirtied (pre ++ [action]) k ↔
    s₀.Dirtied pre k ∨ (s₀.run (pre ++ [action])).trie.dirty[k]? ≠ none := by
  constructor
  · rintro ⟨p, hp, hk⟩
    obtain rfl | hp := List.prefix_concat_iff.mp hp
    · exact .inr hk
    · exact .inl ⟨p, hp, hk⟩
  · rintro (⟨p, hp, hk⟩ | hk)
    · exact ⟨p, hp.trans (List.prefix_append pre [action]), hk⟩
    · exact ⟨_, List.prefix_rfl, hk⟩

theorem Dirtied.exists_update (hk : s₀.Dirtied updates k)
    (h : ∀ pre, pre <+: updates → ∃ T, s₀.Continues base pre (s₀.run pre) T) :
    ∃ key value, .update k.version key value ∈ updates := by
  obtain ⟨p, hp, hd⟩ := hk
  obtain ⟨T, hT⟩ := h p hp
  obtain ⟨key, value, hmem⟩ := hT.versions k hd
  exact ⟨key, value, hp.subset hmem⟩

section Continues

variable {tree : TreePrefix} {T : Tree} {m : Entries}

theorem continues_opened (h : s₀.Stands base base m) (hopened : s₀.trie = Trie.opened tree base) :
    s₀.Continues base [] s₀ base := by
  have hclean (k : NodeKey) : s₀.trie.dirty[k]? = none := by
    rw [hopened]
    exact Trie.dirty_opened tree base k
  refine ⟨rfl, refl_of Access.Agrees _, ?_, ?_, fun k hk => absurd (hclean k) hk⟩
  · rw [hopened]
    exact Trie.represents_opened tree h.compact
  · rw [hopened]
    refine Trie.accounts_opened tree base ?_
    rintro k ⟨p, hp, hk⟩
    rw [List.prefix_nil.mp hp] at hk
    exact hk (hclean k)

/-- The step of an update. -/
theorem Continues.update (h : s₀.Continues base pre (s₀.run pre) T)
    (hback : s₀.access.Backed s₀.trie.tree base) (version : Version) (key value : ByteArray) :
    ∃ T', s₀.Continues base (pre ++ [.update version key value])
      (s₀.run (pre ++ [.update version key value])) T' := by
  have ha : (s₀.run pre).access.Backed (s₀.run pre).trie.tree base := by
    rw [h.tree]
    exact h.access.backed hback
  obtain ⟨hagrees, T', hbecomes, hacc⟩ :=
    h.represents.update_accounts ha h.accounts version key value
  have hrun := run_append s₀ pre (.update version key value)
  refine ⟨T', ?_, ?_, ?_, ?_, fun k hk => ?_⟩
  · rw [hrun]
    exact hbecomes.tree.trans h.tree
  · rw [hrun]
    exact trans_of Access.Agrees h.access hagrees
  · rw [hrun]
    exact hbecomes.represents
  · refine Trie.Accounts.congr ?_ fun k => dirtied_append.symm
    rw [hrun]
    exact hacc
  · rw [hrun] at hk
    obtain ⟨x, hx⟩ := Option.ne_none_iff_exists'.mp hk
    obtain rfl | hx := hbecomes.dirty k x hx
    · exact ⟨key, value, List.mem_append_right pre (List.mem_singleton.mpr rfl)⟩
    · obtain ⟨key', value', hmem⟩ := h.versions k (Option.ne_none_iff_exists'.mpr ⟨x, hx⟩)
      exact ⟨key', value', List.mem_append_left _ hmem⟩

/-- What a run of updates preserves. -/
theorem continues_run (h : s₀.Stands base base m) (hopened : s₀.trie = Trie.opened tree base)
    (hh : s₀.Honest) (hupdates : ∀ action, action ∈ updates → action ≠ .commit) :
    ∀ pre, pre <+: updates → ∃ T, s₀.Continues base pre (s₀.run pre) T := by
  refine foldl_induction (Q := fun pre (s : Session) => ∃ T, s₀.Continues base pre s T)
    ⟨base, continues_opened h hopened⟩ ?_
  rintro pre action hpre ⟨T, hT⟩
  cases action with
  | commit =>
    exact absurd rfl (hupdates _ (hpre.subset (List.mem_append_right pre List.mem_cons_self)))
  | update version key value =>
    have hnext := hT.update (h.backed hh) version key value
    rwa [run_append] at hnext

/-- A node of the loaded root that is still in use is still reached. -/
theorem Continues.reaches (h : s₀.Continues base updates s T) (hs : s₀.Stands base base m)
    (hopened : s₀.trie = Trie.opened tree base) (hh : s₀.Honest) (hk : s₀.Reaches k)
    (hown : Owns s.trie.tree [] T k x) : s.Reaches k := by
  have hlive : s₀.trie.committed = false := by rw [hopened]; rfl
  have hroot : s₀.trie.root = base.key? s₀.trie.tree [] := (hs.represents hlive).root
  rw [reaches_iff, hroot] at hk
  obtain ⟨top, htop⟩ := exists_key?_of_owns hown
  rw [reaches_iff, fetched_eq_find, h.represents.root]
  refine reached_of_owns hown htop (.root htop) fun j y _ hj hjk hne => ?_
  cases hd : s.trie.dirty[j]? with
  | some z => rw [Trie.find_dirty hd, (h.represents.dirty j z hd).unique hj]
  | none =>
    obtain ⟨hbase, hseen⟩ := h.represents.kept j y hj hd
    cases hz : s.trie.seen[j]? with
    | some z => rw [Trie.find_seen hd hz, hseen z hz]
    | none =>
      -- above a node that was reached everything had been found, and is found again
      rw [h.tree] at hbase
      have hfound := hk.found_above (by rw [fetched_eq_find]; exact hs.sound hh hlive) hbase hjk hne
      rw [fetched_eq_find, hopened, Trie.find_opened] at hfound
      rw [Trie.find_clean hd hz, h.access.find, hfound]

/-- Of the nodes of the loaded root those are superseded that are not reached any more and have not
been dirty. -/
theorem Continues.mem_superseded (h : s₀.Continues base updates s T) (hs : s₀.Stands base base m)
    (hopened : s₀.trie = Trie.opened tree base) (hh : s₀.Honest) (hk : s₀.Reaches k) :
    k ∈ s.trie.superseded ↔ ¬ s.Reaches k ∧ ¬ s₀.Dirtied updates k := by
  have hlive : s₀.trie.committed = false := by rw [hopened]; rfl
  have hback : s.access.Backed s.trie.tree base := by
    rw [h.tree]
    exact h.access.backed (hs.backed hh)
  constructor
  · intro hmem
    refine ⟨fun hreached => ?_, fun hdirtied => (h.accounts.touched k hdirtied).1 hmem⟩
    obtain ⟨x, hx⟩ := hreached.owns h.represents (h.represents.sound hback)
    exact (h.represents.superseded k hmem).2 x hx
  · rintro ⟨hgone, hdirtied⟩
    obtain ⟨x, hx⟩ := hk.owns (hs.represents hlive) (hs.sound hh hlive)
    rw [← h.tree] at hx
    refine (h.accounts.untouched k x hx hdirtied).resolve_left fun hT => hgone ?_
    exact h.reaches hs hopened hh hk hT

end Continues

end Session

theorem Journal.getElem?_deletes (j : Journal) (held : Contents) (k : NodeKey) :
    (j.deletes.apply held)[k.encode]? = if k ∈ j.superseded then none else held[k.encode]? := by
  split
  · next hk => exact getElem?_deletes_mem hk
  · next hk =>
    refine getElem?_deletes_ne fun k' hk' e => hk ?_
    rwa [← NodeKey.encode_inj.mp e]

namespace Session

/-! ## The commit after that -/

theorem superseded_of_commit {s : Session} {j : Journal} {t : Trie}
    (h : (s.trie.commit s.access).1 = .ok (j, t)) : j.superseded = s.trie.superseded := by
  obtain ⟨e, b, hrun, -, -⟩ | ⟨root, b, -, -, -, hrun⟩ := s.trie.commit_cases s.access
  · rw [hrun] at h
    cases h
  · rw [hrun] at h
    cases h
    rfl

/-- The last commit of a linear history has returned the root, and the session has loaded it. -/
structure Loads (tree : TreePrefix) (a : Access) (c : Contents) (before : List Action)
    (root : Digest) (s₀ : Session) : Prop where
  honest : (start tree a c).Throughout Honest (before ++ [.commit])
  returned : ((start tree a c).run before).commit.returned = some root
  loaded : (start tree a c).run (before ++ [.commit]) = s₀
  live : s₀.trie.committed = false

section Loads

variable {tree : TreePrefix} {a : Access} {c : Contents} {before updates : List Action}
  {root : Digest} {s₀ : Session} {j : Journal} {t : Trie} {k : NodeKey}

theorem Loads.opened (h : Loads tree a c before root s₀) :
    ∃ tree' base m, s₀.Stands base base m ∧ s₀.trie = Trie.opened tree' base ∧ s₀.Honest := by
  obtain ⟨hhonest, hreturned, rfl, hlive⟩ := h
  obtain ⟨hbefore, hafter⟩ := hhonest.around List.prefix_rfl
  obtain ⟨base, T, m, hs⟩ := stands_run hhonest before (List.prefix_append before _)
  obtain ⟨base', hcommit, -⟩ := hs.commit hbefore
  rw [run_append] at hlive ⊢
  have hh : ((start tree a c).run before).commit.Honest :=
    (honest_congr (reopen_agrees _).1 (reopen_agrees _).2).mp hafter
  have hc : ((start tree a c).run before).commit.trie.committed = true := by
    cases hc : ((start tree a c).run before).commit.trie.committed with
    | true => rfl
    | false =>
      rw [(hcommit.live hc).1] at hreturned
      cases hreturned
  obtain ⟨T', m', hstands, hopened⟩ := hcommit.reopen_opened hh hc hlive
  exact ⟨_, T', m', hstands, hopened, hafter⟩

/-- The root that a commit has returned is loaded, any updates follow, and a commit. Of the nodes of
the root, that commit supersedes those which are not reached any more and whose node key has not
been dirty since the root was loaded; so it misses none whose version no update has used. Applying
the deletes takes those out of the store and leaves the others. -/
theorem supersedes_undirtied (h : Loads tree a c before root s₀)
    (hupdates : ∀ action, action ∈ updates → action ≠ .commit)
    (hcommit : ((s₀.run updates).trie.commit (s₀.run updates).access).1 = .ok (j, t))
    (hk : s₀.Reaches k) :
    (k ∈ j.superseded ↔ ¬ (s₀.run updates).Reaches k ∧ ¬ s₀.Dirtied updates k) ∧
    (¬ (s₀.run updates).Reaches k → (∀ key value, .update k.version key value ∉ updates) →
      k ∈ j.superseded) ∧
    ∀ held : Contents, (j.deletes.apply held)[k.encode]? =
      if k ∈ j.superseded then none else held[k.encode]? := by
  obtain ⟨tree', base, m, hs, hopened, hh⟩ := h.opened
  have hrun := continues_run hs hopened hh hupdates
  obtain ⟨T, hT⟩ := hrun updates List.prefix_rfl
  have hiff := hT.mem_superseded hs hopened hh hk
  rw [superseded_of_commit hcommit]
  refine ⟨hiff, fun hgone hversion => hiff.mpr ⟨hgone, fun hdirtied => ?_⟩, fun held => ?_⟩
  · obtain ⟨key, value, hmem⟩ := hdirtied.exists_update hrun
    exact hversion key value hmem
  · rw [← superseded_of_commit hcommit]
    exact j.getElem?_deletes held k

theorem not_reaches {s : Session} (h : s.trie.root = none) : ¬ s.Reaches k := by
  intro hk
  induction hk with
  | root hroot =>
    rw [h] at hroot
    cases hroot
  | child _ _ _ ih => exact ih

/-- A root with one leaf, loaded. -/
def solitary : Session :=
  (start TreePrefix.long default ∅).run [.update 0 "a".toUTF8 "1".toUTF8, .commit]

/-- The leaf is written again at its own version, and then removed. -/
def withdrawn : List Action := [.update 0 "a".toUTF8 "2".toUTF8, .update 0 "a".toUTF8 ByteArray.empty]

/-- The committed leaf has gone from the trie and is not superseded. -/
theorem supersedes_undirtied_withdrawn :
    ∃ root j t, (Loads TreePrefix.long default ∅ [.update 0 "a".toUTF8 "1".toUTF8] root solitary ∧
      (∀ action, action ∈ withdrawn → action ≠ .commit) ∧
      ((solitary.run withdrawn).trie.commit (solitary.run withdrawn).access).1 = .ok (j, t) ∧
      solitary.Reaches (.ofPath 0 TreePrefix.long [])) ∧
    ¬ (solitary.run withdrawn).Reaches (.ofPath 0 TreePrefix.long []) ∧
      NodeKey.ofPath 0 TreePrefix.long [] ∉ j.superseded := by
  have hcomputed :
      ((start TreePrefix.long default ∅).run
        [.update 0 "a".toUTF8 "1".toUTF8]).commit.returned.isSome ∧
      solitary.trie.committed = false ∧
      solitary.trie.root = some (.ofPath 0 TreePrefix.long []) ∧
      ((solitary.run withdrawn).trie.commit
        (solitary.run withdrawn).access).1.toOption.isSome ∧
      (solitary.run withdrawn).trie.root = none ∧
      (solitary.run (withdrawn.take 1)).trie.dirty[NodeKey.ofPath 0 TreePrefix.long []]? ≠ none := by
    decide +kernel
  obtain ⟨hreturned, hlive, hroot, hcommit, hvacant, hdirty⟩ := hcomputed
  obtain ⟨root, hreturned⟩ := Option.isSome_iff_exists.mp hreturned
  obtain ⟨⟨j, t⟩, hcommit⟩ := Option.isSome_iff_exists.mp hcommit
  have hloads : Loads TreePrefix.long default ∅ [.update 0 "a".toUTF8 "1".toUTF8] root solitary :=
    ⟨fun pre hpre => (served_inMemory rfl _ pre hpre).honest, hreturned, rfl, hlive⟩
  have hupdates : ∀ action, action ∈ withdrawn → action ≠ .commit := by
    intro action haction
    simp only [withdrawn, List.mem_cons, List.not_mem_nil, or_false] at haction
    obtain rfl | rfl := haction <;> exact nofun
  have hcommit' := eq_ok_of_toOption hcommit
  refine ⟨root, j, t, ⟨hloads, hupdates, hcommit', .root hroot⟩, fun hreached => ?_, fun hmem => ?_⟩
  · exact not_reaches hvacant hreached
  · have hiff := (supersedes_undirtied hloads hupdates hcommit' (.root hroot)).1
    exact (hiff.mp hmem).2 ⟨_, List.take_prefix 1 withdrawn, hdirty⟩

end Loads

end Session

end VersionedTrie
