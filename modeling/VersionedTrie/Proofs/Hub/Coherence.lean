import VersionedTrie.Proofs.Hub.Provenance

/-! # Coherent caches

A cache through which all commits go holds under a node key what the store has there
(`Hub.Coherent`), so what is found through it is what is stored (`Coherent.clear`). A commit
replaces and forgets in the cache what it overwrites and supersedes in the store, whichever entries
the cache drops for want of room. Deletes take from the store what a commit has superseded. If no two
commits write at one version, no later one has brought it back into the cache.

Two hubs with one store and the same handles, of which each goes through a cache of its own or none,
are told the same and stay so as long as they find the same nodes (`Abreast.perform`).
-/

set_option autoImplicit false

namespace VersionedTrie

open Log

/-- The contents have the node under the node key, where a commit has put it, and no journal deletes
it, unless commits have written at one version. -/
structure Log.Current (log : List Journal) (held : Contents) (k : NodeKey) (x : Node) : Prop where
  kept : held.Keeps k x
  wrote : Wrote log k x
  spared : Isolated log → ∀ j, j ∈ log → k ∉ j.superseded

/-! ## One handle through two accesses -/

section Twins

variable {find : NodeKey → Except Error Node} {a b : Access}

/-- The drafts have twin accesses and remember the same nodes. -/
def Draft.Same (find : NodeKey → Except Error Node) (d e : Draft) : Prop :=
  d.access.Twin find e.access ∧ e.seen = d.seen

theorem Trie.matches_recall_same (t : Trie) (k : NodeKey) :
    Matches (Draft.Same find) (t.recall k) (t.recall k) := by
  rintro d e ⟨hde, hseen⟩
  rw [Draft.run_recall, Draft.run_recall, hseen]
  cases t.dirty[k]? with
  | some x => exact ⟨rfl, hde, hseen⟩
  | none =>
    cases d.seen[k]? with
    | some x => exact ⟨rfl, hde, hseen⟩
    | none =>
      have hread := Access.matches_readThroughCache k _ _ hde
      simp only
      cases hd : readThroughCache k d.access with
      | mk o a =>
        cases he : readThroughCache k e.access with
        | mk o' b =>
          rw [hd, he] at hread
          obtain ⟨rfl, hab⟩ : o' = o ∧ a.Twin find b := hread
          cases o' <;> exact ⟨rfl, hab, rfl⟩

/-- An update through twin accesses has the same outcome and makes the same handle. -/
theorem Trie.update_twin (t : Trie) (hab : a.Twin find b) (version : Version)
    (key value : ByteArray) :
    (t.update version key value b).1 = (t.update version key value a).1 ∧
      (t.update version key value a).2.Twin find (t.update version key value b).2 := by
  obtain ⟨e, ha, hb⟩ | ⟨hc, -, hr, o, d, d', hp, hp', hd, hseen⟩ :=
    matches_update t.matches_recall_same rfl rfl rfl version key value (a := a) (b := b) ⟨hab, rfl⟩
  · rw [ha, hb]
    exact ⟨rfl, hab⟩
  · rw [update_planned hc hr hp, update_planned hc hr hp', hseen]
    cases o with
    | error e => exact ⟨rfl, hd⟩
    | ok found => cases found <;> exact ⟨rfl, hd⟩

/-- Deletes are applied, or fail, through twin accesses alike. -/
theorem Journal.prune_twin (j : Journal) (hab : a.Twin find b) :
    (j.prune b).1 = (j.prune a).1 ∧ (j.prune b).2.volume = (j.prune a).2.volume ∧
      (j.prune b).2.store.medium = (j.prune a).2.store.medium := by
  unfold prune
  by_cases hcount : 0 < j.superseded.size
  · simp only [if_pos hcount, run_bind, Access.run_write, hab.writes]
    cases (FaultPlan.tick a.store.plan.writes).1 with
    | true => exact ⟨rfl, hab.volume, hab.medium⟩
    | false => exact ⟨rfl, hab.written j.deletes⟩
  · simp only [if_neg hcount]
    exact ⟨rfl, hab.volume, hab.medium⟩

end Twins

namespace Hub

variable {h g h' g' : Hub} {turn : Turn} {cache cache' : Option Nat} {t : Trie} {m : Entries}
  {a b : Access} {k : NodeKey} {x : Node}

/-! ## Two hubs side by side -/

/-- The hubs have the same store, the same account of it and the same handles; what their caches hold
may differ. -/
structure Abreast (h g : Hub) : Prop where
  level : h.Level g
  handles : g.handles = h.handles

theorem abreast_refl (h : Hub) : h.Abreast h := ⟨⟨rfl, rfl, rfl, rfl⟩, rfl⟩

theorem Level.find_eq (hl : h.Level g) : g.find none = h.find none := by
  funext k
  rw [find, find, Access.find_uncached rfl, Access.find_uncached rfl]
  simp only [Access.stored, Access.lookup, Store.lookup, access, hl.medium, hl.volume]

theorem Abreast.served (hl : h.Abreast g) (hs : g.Served) : h.Served := by
  intro b
  have hb := hs b
  rw [Store.lookup, hl.level.medium, hl.level.volume, hl.level.contents] at hb
  exact hb

theorem Abreast.settle (hl : h.Abreast g) (hvolume : b.volume = a.volume)
    (hmedium : b.store.medium = a.store.medium) (cache cache' : Option Nat) :
    (h.settle cache a).Abreast (g.settle cache' b) :=
  ⟨⟨hvolume, hmedium, hl.level.commits, hl.level.contents⟩, hl.handles⟩

theorem Abreast.enroll (hl : h.Abreast g) (t : Trie) (m : Entries) :
    (h.enroll t m).Abreast (g.enroll t m) :=
  ⟨⟨hl.level.volume, hl.level.medium, hl.level.commits, hl.level.contents⟩,
    congrArg (· ++ [(t, m)]) hl.handles⟩

theorem Abreast.replace (hl : h.Abreast g) (i : Nat) (t : Trie) (m : Entries) :
    (h.replace i t m).Abreast (g.replace i t m) :=
  ⟨⟨hl.level.volume, hl.level.medium, hl.level.commits, hl.level.contents⟩,
    congrArg (fun l : List (Trie × Entries) => l.set i (t, m)) hl.handles⟩

/-- A turn through one cache and the same turn through another, or none. -/
def Alike (h g : Hub) (turn turn' : Turn) : Prop :=
  g.told turn' = h.told turn ∧ (h.after turn).Abreast (g.after turn')

/-- A turn of a handle that does not exist. -/
theorem Abreast.absent (hl : h.Abreast g) {plan : FaultPlan} {deed : Deed} {i : Nat}
    (hh : h.handles[i]? = none) (hdeed : deed.handle? = some i) :
    Alike h g ⟨plan, cache, deed⟩ ⟨plan, cache', deed⟩ := by
  have hg : g.handles[i]? = none := by rw [hl.handles, hh]
  rw [Alike, told, told, after, after, perform_absent hh hdeed, perform_absent hg hdeed]
  exact ⟨rfl, hl⟩

section Perform

variable {plan : FaultPlan} (hl : h.Abreast g) (hfind : g.find cache' = h.find cache)
  (hcalm : plan.reads = none)
include hl hfind hcalm

theorem Abreast.load (n : Nat) : Alike h g ⟨plan, cache, .load n⟩ ⟨plan, cache', .load n⟩ := by
  unfold Alike told after perform
  simp only [hl.level.commits]
  cases hj : h.commits[n]? with
  | none => exact ⟨rfl, hl⟩
  | some r =>
    obtain ⟨j, m⟩ := r
    have hload := Access.matches_load j.root _ _ (hl.level.twin hfind hcalm)
    simp only
    cases ha : Trie.load j.root (h.access plan cache) with
    | mk o a =>
      cases hb : Trie.load j.root (g.access plan cache') with
      | mk o' b =>
        rw [ha, hb] at hload
        obtain ⟨rfl, hab⟩ : o' = o ∧ a.Twin (h.find cache) b := hload
        have hsettled := hl.settle hab.volume hab.medium cache cache'
        cases o' with
        | ok t => exact ⟨rfl, hsettled.enroll t m⟩
        | error e => exact ⟨rfl, hsettled⟩

theorem Abreast.ask (i : Nat) (question : Question) :
    Alike h g ⟨plan, cache, .ask i question⟩ ⟨plan, cache', .ask i question⟩ := by
  cases hh : h.handles[i]? with
  | none => exact hl.absent hh rfl
  | some r =>
    obtain ⟨t, m⟩ := r
    have hg : g.handles[i]? = some (t, m) := by rw [hl.handles, hh]
    obtain ⟨hanswer, hab⟩ := (Trie.kin_refl (h.find cache) t).matches_answer question _ _
      (hl.level.twin hfind hcalm)
    rw [Alike, told, told, after, after, perform_ask hh, perform_ask hg, hanswer]
    exact ⟨rfl, hl.settle hab.volume hab.medium cache cache'⟩

theorem Abreast.update (i : Nat) (version : Version) (key value : ByteArray) :
    Alike h g ⟨plan, cache, .update i version key value⟩
      ⟨plan, cache', .update i version key value⟩ := by
  cases hh : h.handles[i]? with
  | none => exact hl.absent hh rfl
  | some r =>
    obtain ⟨t, m⟩ := r
    have hg : g.handles[i]? = some (t, m) := by rw [hl.handles, hh]
    obtain ⟨hsame, hab⟩ := t.update_twin (hl.level.twin hfind hcalm) version key value
    rw [Alike, told, told, after, after, perform_update hh, perform_update hg, hsame]
    exact ⟨rfl, (hl.settle hab.volume hab.medium cache cache').replace _ _ _⟩

theorem Abreast.commit (i : Nat) :
    Alike h g ⟨plan, cache, .commit i⟩ ⟨plan, cache', .commit i⟩ := by
  cases hh : h.handles[i]? with
  | none => exact hl.absent hh rfl
  | some r =>
    obtain ⟨t, m⟩ := r
    have hg : g.handles[i]? = some (t, m) := by rw [hl.handles, hh]
    obtain ⟨e, a, b, hrun, hrun'⟩ | ⟨root, a, b, hrun, hrun', hab⟩ :=
      (Trie.kin_refl (h.find cache) t).commit (hl.level.twin hfind hcalm)
    · have ha := Trie.agrees_commit_error hrun
      have hb := Trie.agrees_commit_error hrun'
      rw [Alike, told, told, after, after, perform_commit_error hh hrun,
        perform_commit_error hg hrun']
      refine ⟨rfl, hl.settle ?_ ?_ cache cache'⟩
      · rw [hb.volume, ha.volume]
        exact hl.level.volume
      · rw [hb.medium, ha.medium]
        exact hl.level.medium
    · rw [Alike, told, told, after, after, perform_commit_ok hh hrun, perform_commit_ok hg hrun']
      refine ⟨rfl, hl.level.commit hab t.alike_refl root, ?_⟩
      exact congrArg (fun l : List (Trie × Entries) => l.set i (t.ended, m)) hl.handles

theorem Abreast.prune (n : Nat) : Alike h g ⟨plan, cache, .prune n⟩ ⟨plan, cache', .prune n⟩ := by
  unfold Alike told after perform
  simp only [hl.level.commits]
  cases hj : h.commits[n]? with
  | none => exact ⟨rfl, hl⟩
  | some r =>
    obtain ⟨j, m⟩ := r
    obtain ⟨hcount, hvolume, hmedium⟩ := j.prune_twin (hl.level.twin hfind hcalm)
    simp only
    cases ha : j.prune (h.access plan cache) with
    | mk o a =>
      cases hb : j.prune (g.access plan cache') with
      | mk o' b =>
        rw [ha, hb] at hcount hvolume hmedium
        obtain rfl : o' = o := hcount
        have hsettled := hl.settle hvolume hmedium cache cache'
        cases o' with
        | error e => exact ⟨rfl, hsettled⟩
        | ok count =>
          refine ⟨rfl, ⟨hsettled.level.volume, hsettled.level.medium, hsettled.level.commits, ?_⟩,
            hsettled.handles⟩
          exact congrArg j.deletes.apply hl.level.contents

/-- Hubs that find the same nodes are told the same and stay abreast. -/
theorem Abreast.perform (deed : Deed) : Alike h g ⟨plan, cache, deed⟩ ⟨plan, cache', deed⟩ := by
  cases deed with
  | create tree => exact ⟨rfl, hl.enroll _ _⟩
  | load n => exact hl.load hfind hcalm n
  | ask i question => exact hl.ask hfind hcalm i question
  | update i version key value => exact hl.update hfind hcalm i version key value
  | commit i => exact hl.commit hfind hcalm i
  | prune n => exact hl.prune hfind hcalm n

end Perform

/-! ## What a cache holds -/

/-- The cache holds nothing but what the contents have. -/
def Coherent (n : Nat) (h : Hub) : Prop :=
  ∀ k, (h.caches n).Meets k (Current h.journals h.contents k)

variable {n : Nat}

/-- What is found through a coherent cache is what is stored. -/
theorem Coherent.clear (hc : h.Coherent n) (hs : h.Served) : h.Clear (some n) := by
  funext k
  have hpeek : (h.access FaultPlan.none (some n)).peek k =
      (h.caches n).node? (k.version, k) := rfl
  cases hy : (h.caches n).node? (k.version, k) with
  | none => rw [find, Access.find, hpeek, hy]; rfl
  | some y =>
    obtain ⟨⟨hk, hstorable⟩, -, -⟩ := hc k y hy
    rw [find, Access.find, hpeek, hy]
    refine (Access.stored_eq_ok.mpr ⟨y.encode, ?_, Node.decode_encode hstorable⟩).symm
    exact (hs k.encode).trans (congrArg Except.ok hk)

theorem Coherent.reads (hc : h.Coherent n) (hr : h.Reads h') : h'.Coherent n := by
  intro k y hy
  rw [hr.cached] at hy
  rw [hr.journals, hr.contents]
  exact hc k y hy

/-- Turns without a cache put nothing into one. -/
theorem node?_after (hcache : turn.cache = none) (n : Nat) (k : NodeKey) :
    ((h.after turn).caches n).node? (k.version, k) = (h.caches n).node? (k.version, k) := by
  have hmakes := h.makes_after turn
  generalize h.after turn = h' at hmakes
  cases hmakes with
  | reads hr => exact hr.cached n k
  | opens _ hr => exact hr.cached n k
  | updates _ _ hr => exact hr.cached n k
  | commits =>
    rw [hcache]
    rfl
  | prunes =>
    rw [hcache]
    rfl

/-- A cache that has not been used yet. -/
theorem coherent_run {volume : Volume} {store : Store} {capacity : Nat → Nat} {c : Contents}
    {turns : List Turn} (hcache : ∀ turn, turn ∈ turns → turn.cache = none) (n : Nat) :
    ((start volume store capacity c).run turns).Coherent n := by
  intro k y hy
  have hempty : (((start volume store capacity c).run turns).caches n).node? (k.version, k) =
      none := by
    refine foldl_induction (l := turns)
      (Q := fun _ (h : Hub) => (h.caches n).node? (k.version, k) = none) ?_ ?_ turns List.prefix_rfl
    · show (NodeCache.ofCapacity (capacity n)).node? (k.version, k) = none
      rw [NodeCache.node?, NodeCache.ofCapacity, Std.ExtTreeMap.getElem?_empty]
      rfl
    · intro pre turn hpre hnone
      exact (node?_after (hcache turn (hpre.subset (by simp))) n k).trans hnone
  cases hempty.symm.trans hy

section Commit

variable {root : Digest} (hg : h.Grounded) (ht : t.Grounded h.journals)
  (hapart : Apart (h.journals ++ [t.journal root]))
include hapart

/-- The anchor of a commit takes the place of no node. -/
theorem getElem?_commit_ne (hk : Wrote (h.journals ++ [t.journal root]) k x) :
    (((t.journal root).batch false).apply h.contents)[k.encode]? =
      ((t.journal root).nodePuts.apply h.contents)[k.encode]? :=
  Trie.getElem?_batch_ne fun _ =>
    hapart.encode_ne (List.mem_append_right _ List.mem_cons_self) hk

/-- What stays in the cache is still what the contents have. -/
theorem current_clean (hx : Current h.journals h.contents k x) (hd : t.dirty[k]? = none)
    (hk : k ∉ t.superseded) :
    Current (h.journals ++ [t.journal root]) (((t.journal root).batch false).apply h.contents)
      k x := by
  have hwrote := hx.wrote.mono (List.subset_append_left _ [t.journal root])
  refine ⟨?_, hwrote, fun hisolated j hj => ?_⟩
  · rw [Contents.Keeps, getElem?_commit_ne hapart hwrote, Trie.getElem?_nodePuts_clean hd]
    exact hx.kept
  · obtain hj | hj := List.mem_append.mp hj
    · exact hx.spared (List.pairwise_append.mp hisolated).1 j hj
    · rw [List.mem_singleton.mp hj]
      exact hk

include hg ht

/-- What a commit brings into the cache is what it has written. -/
theorem current_dirty (hd : t.dirty[k]? = some x) :
    Current (h.journals ++ [t.journal root]) (((t.journal root).batch false).apply h.contents)
      k x := by
  have hlast : t.journal root ∈ h.journals ++ [t.journal root] :=
    List.mem_append_right _ List.mem_cons_self
  have hmem : (k, x.encode) ∈ (t.journal root).written := Trie.mem_written.mpr ⟨x, hd, rfl⟩
  have hstorable := ht.dirty k x hd
  have hwrote : Wrote (h.journals ++ [t.journal root]) k x := ⟨_, hlast, hmem, hstorable⟩
  refine ⟨⟨?_, hstorable⟩, hwrote, fun hisolated j hj hk => ?_⟩
  · rw [getElem?_commit_ne hapart hwrote]
    exact Trie.getElem?_nodePuts_dirty hd
  · obtain hj | hj := List.mem_append.mp hj
    · -- a node key that was superseded has been written before, at another version
      obtain ⟨i, hi, r, hr, rfl⟩ := (hg.superseded j hj k hk).exists_written
        (List.subset_append_left _ _) hapart hlast hmem
      exact (List.pairwise_append.mp hisolated).2.2 i hi _ List.mem_cons_self r hr _ hmem rfl
    · rw [List.mem_singleton.mp hj] at hk
      rw [(ht.superseded k hk).1] at hd
      cases hd

theorem Coherent.commit {plan : FaultPlan} {i : Nat} (hc : h.Coherent n)
    (hb : (h.access plan (some n)).Agrees b) :
    (((h.settle (some n) (t.committedTo b root)).replace i t.ended m).record
      (t.journal root) m).Coherent n := by
  intro k
  have hjournals : (((h.settle (some n) (t.committedTo b root)).replace i t.ended m).record
      (t.journal root) m).journals = h.journals ++ [t.journal root] :=
    journals_record _ _ _
  rw [hjournals]
  have hcache : (t.committedTo b root).cache.isSome = (h.access plan (some n)).cache.isSome := by
    rw [← hb.cached]
    exact Option.isSome_map
  refine node?_settle (P := NodeCache.Meets k (Current _ _ k)) (some n) hcache
    (fun hn => absurd rfl hn) ?_
  rintro - c hrenewed
  obtain ⟨c, hcb, rfl⟩ := Option.map_eq_some_iff.mp hrenewed
  have hcb : b.cache = some c := hcb
  refine NodeCache.meets_renew (fun x hd => current_dirty hg ht hapart hd) fun hd hk y hy => ?_
  have hpeek := hb.peek k
  rw [Access.peek, hcb] at hpeek
  exact current_clean hapart (hc k y (hpeek.symm.trans hy)) hd fun hmem =>
    hk (Std.ExtTreeSet.mem_toList.mpr hmem)

end Commit

theorem Coherent.prune {plan : FaultPlan} {j : Journal} (hc : h.Coherent n)
    (hisolated : Isolated h.journals) (hj : j ∈ h.journals)
    (hb : (h.access plan (some n)).Agrees b) :
    { h.settle (some n) (b.written j.deletes) with
      contents := j.deletes.apply h.contents : Hub }.Coherent n := by
  intro k y hy
  obtain ⟨⟨hk, hstorable⟩, hwrote, hspared⟩ :=
    hc k y (((reads_settle hb).cached n k).symm.trans hy)
  refine ⟨⟨?_, hstorable⟩, hwrote, hspared⟩
  refine (Journal.getElem?_deletes_ne fun k' hk' e => ?_).trans hk
  rw [NodeKey.encode_inj.mp e] at hk'
  exact hspared hisolated j hj hk'

/-- What one turn through the cache preserves. -/
theorem Coherent.after (hc : h.Coherent n) (hg : h.Grounded) (hcache : turn.cache = some n)
    (hprune : (∀ i, turn.deed ≠ .prune i) ∨ Isolated h.journals)
    (hapart : Apart (h.after turn).journals) : (h.after turn).Coherent n := by
  have hmakes := h.makes_after turn
  generalize h.after turn = h' at hmakes hapart
  cases hmakes with
  | reads hr => exact hc.reads hr
  | opens _ hr => exact hc.reads hr
  | updates _ _ hr => exact hc.reads hr
  | commits _ ht _ hb =>
    rw [journals_record] at hapart
    rw [hcache] at hb ⊢
    exact hc.commit hg (hg.handles _ _ (List.mem_of_getElem? ht)) hapart hb
  | @prunes i j m b hd hj hb =>
    rw [hcache] at hb ⊢
    exact hc.prune (hprune.resolve_left fun hne => hne i hd)
      (List.mem_map_of_mem (List.mem_of_getElem? hj)) hb

end Hub

end VersionedTrie
