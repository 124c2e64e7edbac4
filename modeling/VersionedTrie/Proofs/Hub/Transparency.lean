import VersionedTrie.Proofs.Hub.Coherence
import VersionedTrie.Proofs.Traversal.Sweep

/-! # A cache shared by all

Handles and traversals on one store may all go through one node cache. A concourse is a hub with the
traversals that are under way on its store. One and the same run of it, through the cache and
without it, tells the same and leaves the same store, handles, journals and traversals
(`Concourse.transparent`), and the cache never holds a node that the store does not have under its
node key. The anchors of roots have to keep clear of the node keys that are written, since the cache
knows nothing of anchors: an anchor written over a node leaves the node in the cache.
-/

set_option autoImplicit false

namespace VersionedTrie

open Log

/-! ## Traversals through twin accesses -/

namespace Traversal

variable {find : NodeKey → Except Error Node} {a b : Access}

theorem reads_advance (t : Traversal) (a : Access) : a.Reads (t.advance a).2 := by
  obtain ⟨u, h⟩ | ⟨k, h⟩ := t.advance_cases
  · rw [h]
    exact refl_of Access.Reads a
  · rw [h, visit_eq]
    exact preserves_readThroughCache k a

theorem advance_twin (t : Traversal) (hab : a.Twin find b) :
    (t.advance b).1 = (t.advance a).1 ∧ (t.advance a).2.Twin find (t.advance b).2 := by
  obtain ⟨u, h⟩ | ⟨k, h⟩ := t.advance_cases
  · rw [h, h]
    exact ⟨rfl, hab⟩
  · obtain ⟨hsame, hab'⟩ := Access.matches_readThroughCache k a b hab
    rw [h, h, visit_eq, visit_eq, hsame]
    exact ⟨rfl, hab'⟩

theorem matches_start (root : Digest) (o : TraversalOptions) :
    Matches (Access.Twin find) (start root o) (start root o) := by
  unfold start
  split
  · exact matches_pure _
  · exact (Access.matches_readAnchor root).bind fun k => matches_pure _

theorem preserves_start (root : Digest) (o : TraversalOptions) :
    Preserves Access.Reads (start root o) := by
  unfold start
  split
  · exact preserves_pure _
  · exact (preserves_readAnchor root).bind fun k => preserves_pure _

end Traversal

namespace Sweep

variable {find : NodeKey → Except Error Node} {b : Access}

theorem reads_make (s : Sweep) (event : Traversal.Event) :
    s.access.Reads (s.make event).access := by
  cases event with
  | work => exact s.traversal.reads_advance s.access
  | receive => exact refl_of Access.Reads s.access
  | stop => exact refl_of Access.Reads s.access
  | expire => exact refl_of Access.Reads s.access

theorem make_twin (s : Sweep) (hab : s.access.Twin find b) (event : Traversal.Event) :
    ({ s with access := b }.make event).traversal = (s.make event).traversal ∧
      ({ s with access := b }.make event).received = (s.make event).received ∧
      (s.make event).access.Twin find ({ s with access := b }.make event).access := by
  cases event with
  | work =>
    obtain ⟨hsame, hab'⟩ := s.traversal.advance_twin hab
    exact ⟨hsame, rfl, hab'⟩
  | receive => exact ⟨rfl, rfl, hab⟩
  | stop => exact ⟨rfl, rfl, hab⟩
  | expire => exact ⟨rfl, rfl, hab⟩

end Sweep

/-! ## Concourses -/

/-- A hub, and the traversals that have been started on its store. -/
structure Concourse where
  hub : Hub
  /-- The traversals are counted from the first, which is 0. -/
  traversals : List Traversal

namespace Concourse

inductive Act where
  | turn (deed : Deed)
  /-- Opens a handle at a root, whether it has been committed or not. -/
  | load (root : Digest)
  | start (root : Digest) (o : TraversalOptions)
  | event (traversal : Nat) (event : Traversal.Event)

/-- What is told of an act. -/
inductive Notice where
  | hub (r : Option (Except Error Report))
  | opened (r : Except Error Unit)
  /-- What the consumer has received, and how the traversal has ended, if it has. -/
  | swept (received : List Item) (outcome : Option Outcome)
  | absent

/-- What is told of an act under a fault plan, and what it leaves. For a handle that is loaded at a
root, no account is kept of the entries that it should have. -/
def perform (cache : Option Nat) (c : Concourse) (r : FaultPlan × Act) : Notice × Concourse :=
  match r.2 with
  | .turn deed =>
    (.hub (c.hub.told ⟨r.1, cache, deed⟩), { c with hub := c.hub.after ⟨r.1, cache, deed⟩ })
  | .load root =>
    match Trie.load root (c.hub.access r.1 cache) with
    | (.ok t, a) => (.opened (.ok ()), { c with hub := (c.hub.settle cache a).enroll t ∅ })
    | (.error e, a) => (.opened (.error e), { c with hub := c.hub.settle cache a })
  | .start root o =>
    match Traversal.start root o (c.hub.access r.1 cache) with
    | (.ok t, a) => (.opened (.ok ()), ⟨c.hub.settle cache a, c.traversals ++ [t]⟩)
    | (.error e, a) => (.opened (.error e), { c with hub := c.hub.settle cache a })
  | .event n event =>
    match c.traversals[n]? with
    | none => (.absent, c)
    | some t =>
      let s := Sweep.make ⟨t, c.hub.access r.1 cache, []⟩ event
      (.swept s.received s.traversal.outcome,
        ⟨c.hub.settle cache s.access, c.traversals.set n s.traversal⟩)

def after (cache : Option Nat) (c : Concourse) (r : FaultPlan × Act) : Concourse :=
  (c.perform cache r).2

def run (cache : Option Nat) (c : Concourse) (acts : List (FaultPlan × Act)) : Concourse :=
  acts.foldl (after cache) c

def told (cache : Option Nat) : Concourse → List (FaultPlan × Act) → List Notice
  | _, [] => []
  | c, r :: acts => (c.perform cache r).1 :: told cache (c.after cache r) acts

variable {c c' : Concourse} {cache cache' : Option Nat} {n : Nat} {r : FaultPlan × Act}
  {acts : List (FaultPlan × Act)}

/-! ### What an act leaves of the hub -/

/-- An act that is no turn only reads; it opens no handle but one that it loads. -/
theorem reads_after (c : Concourse) (cache : Option Nat) (hturn : ∀ deed, r.2 ≠ .turn deed) :
    c.hub.Reads (c.after cache r).hub ∧
      ∀ t m, (t, m) ∈ (c.after cache r).hub.handles → (t, m) ∈ c.hub.handles ∨
        ∃ root, r.2 = .load root ∧ (Trie.load root (c.hub.access r.1 cache)).1 = .ok t := by
  obtain ⟨plan, act⟩ := r
  unfold after perform
  cases act with
  | turn deed => exact absurd rfl (hturn deed)
  | load root =>
    have hread := Trie.load_agrees root (c.hub.access plan cache)
    simp only
    cases hr : Trie.load root (c.hub.access plan cache) with
    | mk o a =>
      rw [hr] at hread
      have hsettled : c.hub.Reads (c.hub.settle cache a) := Hub.reads_settle hread
      cases o with
      | error e => exact ⟨hsettled, fun _ _ => .inl⟩
      | ok t =>
        refine ⟨hsettled.enroll t ∅, fun u m hu => ?_⟩
        obtain hu | hu := List.mem_append.mp hu
        · exact .inl hu
        · obtain ⟨rfl, -⟩ := Prod.mk.inj (List.mem_singleton.mp hu)
          exact .inr ⟨root, rfl, by rw [hr]⟩
  | start root o =>
    have hread := (Traversal.preserves_start root o (c.hub.access plan cache)).agrees
    simp only
    cases hr : Traversal.start root o (c.hub.access plan cache) with
    | mk out a =>
      rw [hr] at hread
      cases out <;> exact ⟨Hub.reads_settle hread, fun _ _ => .inl⟩
  | event n event =>
    simp only
    cases c.traversals[n]? with
    | none => exact ⟨c.hub.reads_refl, fun _ _ => .inl⟩
    | some t =>
      exact ⟨Hub.reads_settle (Sweep.reads_make ⟨t, c.hub.access plan cache, []⟩ event).agrees,
        fun _ _ => .inl⟩

theorem commits_after (c : Concourse) (cache : Option Nat) (r : FaultPlan × Act) :
    c.hub.commits <+: (c.after cache r).hub.commits := by
  by_cases hturn : ∃ deed, r.2 = .turn deed
  · obtain ⟨plan, _⟩ := r
    obtain ⟨deed, rfl⟩ := hturn
    exact c.hub.commits_kept [⟨plan, cache, deed⟩]
  · obtain ⟨hreads, -⟩ := c.reads_after cache fun deed h => hturn ⟨deed, h⟩
    exact ⟨[], by rw [List.append_nil, hreads.commits]⟩

theorem commits_kept (c : Concourse) (cache : Option Nat) (acts : List (FaultPlan × Act)) :
    c.hub.commits <+: (c.run cache acts).hub.commits := by
  induction acts generalizing c with
  | nil => exact List.prefix_rfl
  | cons r acts ih => exact (c.commits_after cache r).trans (ih (c.after cache r))

theorem journals_kept (c : Concourse) (cache : Option Nat) (acts : List (FaultPlan × Act)) :
    c.hub.journals <+: (c.run cache acts).hub.journals :=
  (c.commits_kept cache acts).map Prod.fst

/-! ### Two concourses side by side -/

/-- The concourses have the same store, the same account of it, the same handles and the same
traversals; what their caches hold may differ. -/
structure Abreast (c c' : Concourse) : Prop where
  hub : c.hub.Abreast c'.hub
  traversals : c'.traversals = c.traversals

/-- Concourses that find the same nodes are told the same and stay abreast. -/
theorem Abreast.perform (hl : c.Abreast c') (hfind : c'.hub.find cache' = c.hub.find cache)
    (hcalm : r.1.reads = none) :
    (c'.perform cache' r).1 = (c.perform cache r).1 ∧
      (c.after cache r).Abreast (c'.after cache' r) := by
  obtain ⟨plan, act⟩ := r
  have htwin := hl.hub.level.twin hfind hcalm
  unfold after Concourse.perform
  cases act with
  | turn deed =>
    obtain ⟨htold, hafter⟩ := hl.hub.perform hfind hcalm deed
    exact ⟨congrArg Notice.hub htold, hafter, hl.traversals⟩
  | load root =>
    have hload := Access.matches_load root _ _ htwin
    simp only
    cases ha : Trie.load root (c.hub.access plan cache) with
    | mk o a =>
      cases hb : Trie.load root (c'.hub.access plan cache') with
      | mk o' b =>
        rw [ha, hb] at hload
        obtain ⟨rfl, hab⟩ : o' = o ∧ a.Twin (c.hub.find cache) b := hload
        have hsettled := hl.hub.settle hab.volume hab.medium cache cache'
        cases o' with
        | ok t => exact ⟨rfl, hsettled.enroll t ∅, hl.traversals⟩
        | error e => exact ⟨rfl, hsettled, hl.traversals⟩
  | start root o =>
    have hstart := Traversal.matches_start root o _ _ htwin
    simp only
    cases ha : Traversal.start root o (c.hub.access plan cache) with
    | mk out a =>
      cases hb : Traversal.start root o (c'.hub.access plan cache') with
      | mk out' b =>
        rw [ha, hb] at hstart
        obtain ⟨rfl, hab⟩ : out' = out ∧ a.Twin (c.hub.find cache) b := hstart
        have hsettled := hl.hub.settle hab.volume hab.medium cache cache'
        cases out' with
        | ok t => exact ⟨rfl, hsettled, congrArg (· ++ [t]) hl.traversals⟩
        | error e => exact ⟨rfl, hsettled, hl.traversals⟩
  | event n event =>
    simp only [hl.traversals]
    cases c.traversals[n]? with
    | none => exact ⟨rfl, hl⟩
    | some t =>
      obtain ⟨htraversal, hreceived, hab⟩ :=
        Sweep.make_twin ⟨t, c.hub.access plan cache, []⟩ htwin event
      refine ⟨?_, hl.hub.settle hab.volume hab.medium cache cache', ?_⟩
      · show Notice.swept _ _ = Notice.swept _ _
        rw [htraversal, hreceived]
      · exact congrArg (c.traversals.set n) htraversal

/-! ### Runs -/

/-- No root that is committed or loaded is the stored form of a node key that is written. -/
structure Separate (log : List Journal) (acts : List (FaultPlan × Act)) : Prop where
  apart : Apart log
  loaded : ∀ r, r ∈ acts → ∀ root, r.2 = .load root →
    ∀ j, j ∈ log → ∀ q, q ∈ j.written → q.1.encode ≠ root.bytes

theorem Separate.of_subset {log log' : List Journal} {acts' : List (FaultPlan × Act)}
    (h : Separate log' acts') (hl : log ⊆ log') (ha : acts ⊆ acts') : Separate log acts :=
  ⟨h.apart.of_subset hl, fun r hr root hroot j hj => h.loaded r (ha hr) root hroot j (hl hj)⟩

/-- What one act through the cache preserves. -/
theorem sound_after (hs : c.hub.Served) (hg : c.hub.Grounded) (hc : c.hub.Coherent n)
    (hprune : (∀ i, r.2 ≠ .turn (.prune i)) ∨ Isolated c.hub.journals)
    (hapart : Separate (c.after (some n) r).hub.journals [r]) :
    (c.after (some n) r).hub.Grounded ∧ (c.after (some n) r).hub.Coherent n := by
  have hclear := hc.clear hs
  have hbefore := hapart.of_subset ((c.commits_after (some n) r).map Prod.fst).subset fun _ => id
  by_cases hturn : ∃ deed, r.2 = .turn deed
  · obtain ⟨plan, _⟩ := r
    obtain ⟨deed, rfl⟩ := hturn
    have hgrounded : (c.hub.after ⟨plan, some n, deed⟩).Grounded :=
      hg.after hs hclear hbefore.apart
    have hcoherent : (c.hub.after ⟨plan, some n, deed⟩).Coherent n :=
      hc.after hg rfl (hprune.imp_left fun h i e => h i (congrArg Act.turn e)) hapart.apart
    exact ⟨hgrounded, hcoherent⟩
  · obtain ⟨hreads, hhandles⟩ := c.reads_after (some n) fun deed h => hturn ⟨deed, h⟩
    refine ⟨hg.reads hreads fun t m ht => ?_, hc.reads hreads⟩
    obtain ht | ⟨root, hroot, hload⟩ := hhandles t m ht
    · exact hg.handles t m ht
    · exact Trie.grounded_load hload fun k =>
        hg.anchored hs (hbefore.loaded r List.mem_cons_self root hroot)

/-- Through a coherent cache and without it, a run tells the same and stays abreast. -/
theorem Abreast.run (hl : c.Abreast c') (hg : c.hub.Grounded) (hc : c.hub.Coherent n)
    (hs : Always (after none) (fun c => c.hub.Served) c' acts)
    (hcalm : ∀ r, r ∈ acts → r.1.reads = none)
    (hprune : (∀ r, r ∈ acts → ∀ i, r.2 ≠ .turn (.prune i)) ∨
      Isolated (c'.run none acts).hub.journals)
    (hapart : Separate (c'.run none acts).hub.journals acts) :
    told (some n) c acts = told none c' acts ∧ ∀ pre, pre <+: acts →
      (c.run (some n) pre).Abreast (c'.run none pre) ∧ (c.run (some n) pre).hub.Coherent n := by
  induction acts generalizing c c' with
  | nil =>
    refine ⟨rfl, fun pre hpre => ?_⟩
    rw [List.prefix_nil.mp hpre]
    exact ⟨hl, hc⟩
  | cons r acts ih =>
    have hserved := hl.hub.served hs.first
    have hfind : c'.hub.find none = c.hub.find (some n) :=
      hl.hub.level.find_eq.trans (hc.clear hserved).symm
    obtain ⟨htold, hafter⟩ := hl.perform hfind (hcalm r List.mem_cons_self)
    have hrest : ∀ q, q ∈ acts → q ∈ r :: acts := fun _ => List.mem_cons_of_mem r
    have hkept : c.hub.journals <+: (c'.run none (r :: acts)).hub.journals := by
      have hkept := c'.journals_kept none (r :: acts)
      rwa [Hub.journals, hl.hub.level.commits] at hkept
    have hkept' : (c.after (some n) r).hub.journals <+: (c'.run none (r :: acts)).hub.journals := by
      have hkept := (c'.after none r).journals_kept none acts
      rwa [Hub.journals, hafter.hub.level.commits] at hkept
    obtain ⟨hg', hc'⟩ := sound_after hserved hg hc
      (hprune.imp (fun h => h r List.mem_cons_self) fun h => h.sublist hkept.sublist)
      (hapart.of_subset hkept'.subset fun q hq => by
        rw [List.mem_singleton.mp hq]
        exact List.mem_cons_self)
    obtain ⟨hsame, hpoints⟩ := ih hafter hg' hc' hs.tail (fun q hq => hcalm q (hrest q hq))
      (hprune.imp_left fun h q hq => h q (hrest q hq)) (hapart.of_subset (fun _ => id) hrest)
    refine ⟨by rw [told, told, htold, hsame], fun pre hpre => ?_⟩
    obtain rfl | ⟨pre', rfl, hpre'⟩ := List.prefix_cons_iff.mp hpre
    · exact ⟨hl, hc⟩
    · exact hpoints pre' hpre'

/-- The concourse on a store that has been used without a cache. -/
def opened (volume : Volume) (store : Store) (capacity : Nat → Nat) (before : List Turn) :
    Concourse :=
  ⟨(Hub.start volume store capacity ∅).run before, []⟩

/-- On a store that has been used without a cache so far, and answers, all handles and traversals go
on through one cache, of any capacity; no read is planned to fail, but any batch may. If no deletes
are applied then, or no two commits write at one version, and if no root is the stored form of a node
key that is written, everything that is told is as without the cache, and so are, at every point,
the store, the handles with all that is pending on them, the journals and the traversals. And at
every point, what the cache holds under a node key is what the store has there. -/
theorem transparent (volume : Volume) (store : Store) (capacity : Nat → Nat) (n : Nat)
    (before : List Turn) (acts : List (FaultPlan × Act))
    (hbefore : ∀ turn, turn ∈ before → turn.cache = none)
    (hserved : (Hub.start volume store capacity ∅).Throughout Hub.Served before ∧
      Always (after none) (fun c => c.hub.Served) (opened volume store capacity before) acts)
    (hcalm : ∀ r, r ∈ acts → r.1.reads = none)
    (hprune : (∀ r, r ∈ acts → ∀ i, r.2 ≠ .turn (.prune i)) ∨
      Isolated ((opened volume store capacity before).run none acts).hub.journals)
    (hapart : Separate ((opened volume store capacity before).run none acts).hub.journals acts) :
    told (some n) (opened volume store capacity before) acts =
        told none (opened volume store capacity before) acts ∧
      ∀ pre, pre <+: acts →
        ((opened volume store capacity before).run (some n) pre).Abreast
          ((opened volume store capacity before).run none pre) ∧
        ∀ (k : NodeKey) (x : Node),
          (((opened volume store capacity before).run (some n) pre).hub.caches n).node?
            (k.version, k) = some x →
          ((opened volume store capacity before).run (some n) pre).hub.store.lookup
            ((opened volume store capacity before).run (some n) pre).hub.volume k.encode =
              .ok (some x.encode) := by
  obtain ⟨hs, hs'⟩ := hserved
  have hkept := (opened volume store capacity before).journals_kept none acts
  have hg : (opened volume store capacity before).hub.Grounded :=
    (Hub.grounded_start volume store capacity).run hs hbefore
      (hapart.apart.of_subset hkept.subset)
  have hsame : (opened volume store capacity before).Abreast (opened volume store capacity before) :=
    ⟨Hub.abreast_refl _, rfl⟩
  obtain ⟨htold, hpoints⟩ :=
    hsame.run hg (Hub.coherent_run hbefore n) hs' hcalm hprune hapart
  refine ⟨htold, fun pre hpre => ?_⟩
  obtain ⟨habreast, hcoherent⟩ := hpoints pre hpre
  refine ⟨habreast, fun k x hx => ?_⟩
  rw [habreast.hub.served (hs' pre hpre), (hcoherent k x hx).kept.1]

/-! ### Stores in memory -/

theorem inMemory_after (hm : c.hub.InMemory) (cache : Option Nat) (r : FaultPlan × Act) :
    (c.after cache r).hub.InMemory := by
  by_cases hturn : ∃ deed, r.2 = .turn deed
  · obtain ⟨plan, _⟩ := r
    obtain ⟨deed, rfl⟩ := hturn
    exact hm.after ⟨plan, cache, deed⟩
  · obtain ⟨hr, -⟩ := c.reads_after cache fun deed h => hturn ⟨deed, h⟩
    exact (hr.medium.trans hm).trans (congrArg Medium.memory hr.contents.symm)

/-- A store in memory always answers, whatever handles and traversals do. -/
theorem served_inMemory (hm : c.hub.InMemory) (cache : Option Nat)
    (acts : List (FaultPlan × Act)) : Always (after cache) (fun c => c.hub.Served) c acts :=
  fun pre _ => Hub.InMemory.served (foldl_induction (Q := fun _ (c : Concourse) => c.hub.InMemory) hm
    (fun _ r _ hm => inMemory_after hm cache r) pre List.prefix_rfl)

/-- A key is committed without a cache. -/
def groundwork : List Turn :=
  [⟨FaultPlan.none, none, .create TreePrefix.empty⟩,
    ⟨FaultPlan.none, none, .update 0 1 "a".toUTF8 "x".toUTF8⟩,
    ⟨FaultPlan.none, none, .commit 0⟩]

/-- The key is set anew, which is committed at the second attempt, what this supersedes is deleted,
and the new root is read and traversed. -/
def bustle : List (FaultPlan × Act) :=
  [(FaultPlan.none, .turn (.load 0)),
    (FaultPlan.none, .turn (.update 1 2 "a".toUTF8 "y".toUTF8)),
    (⟨none, some 0⟩, .turn (.commit 1)),
    (FaultPlan.none, .turn (.commit 1)),
    (FaultPlan.none, .turn (.prune 1)),
    (FaultPlan.none, .turn (.load 1)),
    (FaultPlan.none, .turn (.ask 2 (.value "a".toUTF8))),
    (FaultPlan.none, .start (Node.leaf (Leaf.make (Path.ofKey "a".toUTF8) "y".toUTF8)).digest
      ⟨1, none, false⟩),
    (FaultPlan.none, .event 0 .work),
    (FaultPlan.none, .event 0 .work),
    (FaultPlan.none, .event 0 .receive)]

/-- The concourse of the example, through a cache of two places. -/
def prepared : Concourse := opened default default (fun _ => 2) groundwork

theorem transparent_bustle :
    (Isolated (prepared.run none bustle).hub.journals ∧
      Apart (prepared.run none bustle).hub.journals ∧
      (prepared.run none bustle).hub.journals.length = 2) ∧
    told (some 0) prepared bustle = told none prepared bustle := by
  have hlog : Isolated (prepared.run none bustle).hub.journals ∧
      Apart (prepared.run none bustle).hub.journals ∧
      (prepared.run none bustle).hub.journals.length = 2 := by
    decide +kernel
  obtain ⟨hisolated, hapart, hlength⟩ := hlog
  have hmemory : (Hub.start default default (fun _ => 2) ∅).InMemory := rfl
  have hprepared : prepared.hub.InMemory :=
    foldl_induction (l := groundwork) (Q := fun _ (h : Hub) => h.InMemory) hmemory
      (fun _ turn _ hm => hm.after turn) groundwork List.prefix_rfl
  exact ⟨⟨hisolated, hapart, hlength⟩,
    (transparent default default (fun _ => 2) 0 groundwork bustle (by simp [groundwork])
      ⟨Hub.served_inMemory hmemory groundwork, served_inMemory hprepared none bustle⟩
      (by simp [bustle, FaultPlan.none]) (.inr hisolated) ⟨hapart, by simp [bustle]⟩).1⟩

end Concourse

end VersionedTrie
