import VersionedTrie.Proofs.Observation

/-! # Tries refine maps

A session on a store that neither fails nor lies follows the finite map that its updates describe
(`Entries.after`): at every point of a run all keys read as in the map, an update is refused exactly
where the map refuses it, and a commit followed by loading its root changes nothing.

There is one condition. The anchor of a root is stored under the digest of the root, among the node
keys, and a commit must not put it in the place of a node of its own trie (`Clear`). Where no node
cache hides the loss, the condition is necessary as well.
-/

set_option autoImplicit false

namespace VersionedTrie

open VersionedTrie.Tree

namespace Session

/-- No node key of the trie is the digest of its root written out, and the root counts as the one
without entries only if it is. -/
def Clear (s : Session) : Prop :=
  ∀ d, s.rootDigest = .ok d →
    (d = Digest.placeholder → s.trie.root = none) ∧ ∀ k, s.Reaches k → k.encode ≠ d.bytes

/-- The handle answers what the map has, and takes and refuses the updates that the map does. -/
structure Follows (s : Session) (m : Entries) : Prop where
  get : ∀ key : ByteArray, (s.trie.get key s.access).1 = .ok m[key]?
  update : ∀ version key value,
    match m.update key value with
    | .ok _ => (s.trie.update version key value s.access).1.1 = .ok ()
    | .error r =>
      ∃ e, (s.trie.update version key value s.access).1.1 = .error e ∧ e.refusal? = some r
  commit : ∃ j t, (s.trie.commit s.access).1 = .ok (j, t)

variable {s : Session} {base T : Tree} {m : Entries}

theorem Follows.reads (h : s.Follows m) (hf : s.Faultless) : s.Reads m := by
  intro key
  rw [Session.get, hf.calm_eq]
  exact h.get key

/-! ## Steady sessions -/

theorem Steady.follows (h : s.Steady base T m) (hserved : s.Served) : s.Follows m := by
  have hh := hserved.honest
  have hrep := h.stands.represents h.live
  refine ⟨fun key => ?_, fun version key value => ?_, ?_⟩
  · exact (hrep.get_answers (h.stands.backed hh) h.stands.holds h.stands.bounded key).eq
      (h.readable hserved)
  · obtain ⟨_, T', m', _, _, hcases⟩ := h.stands.update hh h.live version key value
    obtain ⟨hm', hok⟩ | ⟨e, he, _, ⟨r, hr, hreports⟩ | hwhy⟩ := hcases
    · rw [hm']
      exact hok
    · rw [hr]
      exact ⟨e, he, hreports⟩
    · exact absurd hwhy (h.readable hserved)
  · obtain ⟨a, _, hrun⟩ := h.commits hserved
    exact ⟨_, _, by rw [hrun]⟩

/-! ## The condition in terms of trees -/

theorem Steady.clear_iff (h : s.Steady base T m) (hserved : s.Served) :
    s.Clear ↔ (T.digest = Digest.placeholder → T = .vacant) ∧
      ∀ k x, Owns s.trie.tree [] T k x → k.encode ≠ T.digest.bytes := by
  have hw := h.whole hserved
  have hrep := h.stands.represents h.live
  have hdigest := h.stands.rootDigest hserved.honest h.live hw
  have hroot : s.trie.root = none ↔ T = .vacant := by
    rw [hrep.root, key?, Option.map_eq_none_iff, version?_eq_none]
  rw [← hroot]
  constructor
  · intro hc
    obtain ⟨hp, hk⟩ := hc _ hdigest
    exact ⟨hp, fun k x hx => hk k ((owns_iff_reaches hrep hw).mp hx).1⟩
  · rintro ⟨hp, hk⟩ d hd
    obtain rfl := h.stands.rootDigest_eq hserved.honest hd
    refine ⟨hp, fun k hr => ?_⟩
    obtain ⟨x, hx⟩ := hr.owns hrep hw.sound
    exact hk k x hx

/-- Under a long prefix a commit spares its nodes, unless its root counts as the one without entries.
-/
theorem Steady.clear_long (h : s.Steady base T m) (hserved : s.Served)
    (hlong : 23 < s.trie.tree.bytes.size)
    (hne : s.rootDigest.toOption ≠ some Digest.placeholder) : s.Clear := by
  intro d hd
  refine ⟨?_, fun k hk => hk.encode_ne h.stands hserved.honest h.live hlong d⟩
  rintro rfl
  exact absurd (congrArg Except.toOption hd) hne

/-! ## Steps -/

theorem Steady.update (h : s.Steady base T m) (hserved : s.Served) (version : Version)
    (key value : ByteArray) :
    ∃ T', (s.perform (.update version key value)).Steady base T'
      (m.after (.update version key value)) := by
  obtain ⟨ha, T', m', hstands, hbecomes, hcases⟩ :=
    h.stands.update hserved.honest h.live version key value
  have hm' : m.after (.update version key value) = m' := by
    rw [Entries.after]
    obtain ⟨hm', _⟩ | ⟨e, _, rfl, ⟨r, hr, _⟩ | hwhy⟩ := hcases
    · rw [hm']
    · rw [hr]
    · exact absurd hwhy (h.readable hserved)
  rw [hm']
  refine ⟨T', hstands, fun k x hk _ => ?_, hbecomes.represents.live, h.faultless.agrees ha⟩
  rw [hbecomes.tree] at hk
  exact h.firm.live h.live hk

/-- A commit that spares its nodes and the loading of its root change nothing. -/
theorem Steady.reload (h : s.Steady base T m) (hserved : s.Served) (hclear : s.Clear)
    (hserved' : (s.perform .commit).Served) :
    (s.perform .commit).Steady T T m := by
  obtain ⟨hplaceholder, hspared⟩ := (h.clear_iff hserved).mp hclear
  obtain ⟨a, ha, hrun, hstands, hfaultless, hserved₁⟩ := h.perform_commit hserved hserved'
  have hkeeps : ∀ k x, Owns s.trie.tree [] T k x →
      (s.committedTo a T.digest).contents.Keeps k x := fun k x hk =>
    (h.stands.represents h.live).keeps_batch (h.stands.holds.admissible h.stands.bounded)
      (fun _ _ => h.firm.live h.live) hk (hspared k x hk)
  rw [hrun]
  cases hx : T.node? with
  | none =>
    obtain rfl := node?_eq_none.mp hx
    obtain rfl := h.stands.holds.eq_empty
    rw [reopen_placeholder rfl]
    exact ⟨stands_loadedAs_vacant _ _, firm_vacant _, rfl, hfaultless⟩
  | some x =>
    have hne : T.digest ≠ Digest.placeholder := by
      intro e
      rw [hplaceholder e] at hx
      cases hx
    obtain ⟨k, hk⟩ := key?_of_node? hx s.trie.tree []
    obtain ⟨b, hb, hload⟩ := hstands.reopens hserved₁ hfaultless rfl hne hk hx
      (hkeeps k x (owns_self hk hx))
    rw [hload]
    exact ⟨hstands.loadedAs rfl hb, fun k x hk _ => hkeeps k x hk, rfl, hfaultless.agrees hb⟩

/-- Conversely, if everything reads as before and no cache stands in for the store, the commit has
spared its nodes. -/
theorem Steady.clear (h : s.Steady base T m) (hserved : s.Served)
    (hserved' : (s.perform .commit).Served) (hcache : s.access.cache = none)
    (hfollows : (s.perform .commit).Follows m) : s.Clear := by
  rw [h.clear_iff hserved]
  obtain ⟨a, ha, hrun, hstands, hfaultless, hserved₁⟩ := h.perform_commit hserved hserved'
  rw [hrun] at hserved' hfollows
  have hreads := hfollows.reads (hfaultless.agrees (s.committedTo a T.digest).reopen_agrees.1)
  cases hx : T.node? with
  | none =>
    obtain rfl := node?_eq_none.mp hx
    exact ⟨fun _ => rfl, fun k x hk => absurd hk not_owns_vacant⟩
  | some x =>
    obtain ⟨k, hk⟩ := key?_of_node? hx s.trie.tree []
    by_cases hne : T.digest = Digest.placeholder
    · -- nothing is read any more, so nothing has been there
      have hreturned : (s.committedTo a T.digest).returned = some Digest.placeholder :=
        congrArg some hne
      rw [reopen_placeholder hreturned] at hreads hserved'
      obtain rfl := (stands_loadedAs_vacant _ _).entries_eq hserved'.honest hreads
      rw [h.stands.holds.eq_vacant h.stands.compact] at hx
      cases hx
    · obtain ⟨b, _, hload, _⟩ | ⟨b, hb, hload, _⟩ :=
        hstands.reopen_cases hserved₁.honest rfl hne hk hx
      · have hlive := live_of_get (hreads ByteArray.empty)
        rw [hload] at hlive
        cases hlive
      · rw [hload] at hreads hserved'
        refine ⟨fun e => absurd e hne, fun j y hj => ?_⟩
        exact h.stands.ne_of_reads hserved.honest h.live ha hserved₁.honest hb hcache hreads hj

/-! ## Runs -/

section Run

variable {tree : TreePrefix} {a : Access} {c : Contents} {actions : List Action}

theorem steady_start (ha : a.store.plan = FaultPlan.none) :
    (start tree a c).Steady .vacant .vacant ∅ :=
  ⟨stands_start tree a c, firm_vacant _, rfl, ha⟩

theorem steady_run (ha : a.store.plan = FaultPlan.none)
    (hserved : (start tree a c).Throughout Served actions)
    (hclear : (start tree a c).AtCommits Clear actions) :
    ∀ pre, pre <+: actions →
      ∃ base T, ((start tree a c).run pre).Steady base T (pre.foldl Entries.after ∅) := by
  refine foldl_induction
    (Q := fun pre (s : Session) => ∃ base T, s.Steady base T (pre.foldl Entries.after ∅))
    ⟨.vacant, .vacant, steady_start ha⟩ ?_
  rintro pre action hpre ⟨base, T, h⟩
  obtain ⟨hbefore, hafter⟩ := hserved.around hpre
  rw [List.foldl_append]
  cases action with
  | update version key value =>
    obtain ⟨T', h'⟩ := h.update hbefore version key value
    exact ⟨base, T', h'⟩
  | commit => exact ⟨T, T, h.reload hbefore (hclear pre _ hpre rfl) hafter⟩

/-- A run that follows its entries ends with a tree that holds them, and knows its digest. -/
theorem rootDigest_run (ha : a.store.plan = FaultPlan.none)
    (hserved : (start tree a c).Throughout Served actions)
    (hclear : (start tree a c).AtCommits Clear actions) :
    ∃ T : Tree, T.Compact [] ∧ T.Holds (actions.foldl Entries.after ∅) ∧
      ((start tree a c).run actions).rootDigest = .ok T.digest := by
  obtain ⟨base, T, h⟩ := steady_run ha hserved hclear actions List.prefix_rfl
  exact ⟨T, h.stands.compact, h.stands.holds,
    h.stands.rootDigest hserved.last.honest h.live (h.whole hserved.last)⟩

theorem reads_run (ha : a.store.plan = FaultPlan.none)
    (hserved : (start tree a c).Throughout Served actions)
    (hclear : (start tree a c).AtCommits Clear actions) :
    ((start tree a c).run actions).Reads (actions.foldl Entries.after ∅) := by
  obtain ⟨base, T, h⟩ := steady_run ha hserved hclear actions List.prefix_rfl
  exact (h.follows hserved.last).reads h.faultless

/-- A run on a store that neither fails nor lies follows the entries that its updates describe, as
long as every commit spares its own nodes. -/
theorem follows_entries (tree : TreePrefix) (a : Access) (c : Contents) (actions : List Action)
    (hplan : a.store.plan = FaultPlan.none)
    (hserved : (start tree a c).Throughout Served actions) :
    ((start tree a c).AtCommits Clear actions →
      ∀ pre, pre <+: actions →
        ((start tree a c).run pre).Follows (pre.foldl Entries.after ∅)) ∧
    (a.cache = none →
      (∀ pre, pre <+: actions →
        ((start tree a c).run pre).Follows (pre.foldl Entries.after ∅)) →
      (start tree a c).AtCommits Clear actions) := by
  constructor
  · intro hclear pre hpre
    obtain ⟨base, T, h⟩ := steady_run hplan hserved hclear pre hpre
    exact h.follows (hserved pre hpre)
  · intro hcache hfollows
    refine atEach_of ?_
    rintro pre action hpre hclear rfl
    show ((start tree a c).run pre).Clear
    have hbefore : pre <+: actions := (List.prefix_append pre [.commit]).trans hpre
    obtain ⟨base, T, h⟩ := steady_run hplan (hserved.before hbefore) hclear pre List.prefix_rfl
    have hfollows' := hfollows _ hpre
    rw [run_append, List.foldl_append] at hfollows'
    exact h.clear (hserved.around hpre).1 (hserved.around hpre).2
      (uncached_run hcache (fun p hp => (hserved p hp).honest) pre hbefore) hfollows'

/-- A key is committed under a long prefix; after the root has been loaded, another one is set at
the same version and the first is removed. -/
theorem follows_entries_reloaded :
    (default : Access).store.plan = FaultPlan.none ∧
      (start TreePrefix.long default ∅).Throughout Served
        [.update 7 "a".toUTF8 "1".toUTF8, .commit, .update 7 "b".toUTF8 "2".toUTF8,
          .update 7 "a".toUTF8 ByteArray.empty] ∧
      ∀ pre, pre <+: [.update 7 "a".toUTF8 "1".toUTF8, .commit, .update 7 "b".toUTF8 "2".toUTF8,
          .update 7 "a".toUTF8 ByteArray.empty] →
        ((start TreePrefix.long default ∅).run pre).Follows (pre.foldl Entries.after ∅) := by
  refine ⟨rfl, served_inMemory rfl _, (follows_entries _ _ _ _ rfl (served_inMemory rfl _)).1 ?_⟩
  rw [AtCommits, atEach_cons, atEach_cons, atEach_cons, atEach_cons]
  refine ⟨nofun, fun _ => ?_, nofun, nofun, atEach_nil⟩
  have hserved : (start TreePrefix.long default ∅).Throughout Served
      [.update 7 "a".toUTF8 "1".toUTF8] := served_inMemory rfl _
  obtain ⟨base, T, h⟩ :=
    steady_run rfl hserved (atEach_cons.mpr ⟨nofun, atEach_nil⟩) _ List.prefix_rfl
  exact h.clear_long hserved.last (by decide +kernel) (by decide +kernel)

end Run

end Session

end VersionedTrie
