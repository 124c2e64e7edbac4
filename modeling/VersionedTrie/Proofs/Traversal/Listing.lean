import VersionedTrie.Proofs.Traversal.Course
import VersionedTrie.Proofs.Canonical
import VersionedTrie.Proofs.Hub.Isolation
import VersionedTrie.Proofs.Hub.Retention

/-! # What a traversal lists

Whatever is stored, a traversal that is left alone comes to an end. It meets no node key and no path
twice, takes up the node keys in one order, and is completed if all nodes that are reached can be
read; otherwise it fails at the first that cannot (`Traversal.Surveys`).

In a tree whose leaves are the entries of a map, the leaves that are reached are these entries, each
under one node key only (`Tree.Owns.eq_of_leaf`). So the leaves of a root that has been committed,
and is still there, are what its handle reads (`Access.Enumerates`): after any commit of a session
whose nodes remain (`Session.Stands.enumerates`), and at any time on a store with a clean log.
-/

set_option autoImplicit false

namespace VersionedTrie

open VersionedTrie.Tree

/-! ## All that can be read -/

namespace Traversal

variable {root : Option NodeKey} {o : TraversalOptions} {a : Access}
  {visited before : List (NodeKey × Node)} {stop : Option (NodeKey × Error)}

/-- What a traversal that is left alone visits, and where it fails. -/
structure Surveys (root : Option NodeKey) (o : TraversalOptions) (a : Access)
    (visited : List (NodeKey × Node)) (stop : Option (NodeKey × Error)) : Prop where
  course : Course o.leavesOnly (ofRoot root o).pending a visited stop
  only : ∀ visited' stop', Course o.leavesOnly (ofRoot root o).pending a visited' stop' →
    visited' = visited ∧ stop' = stop
  drained : ((ofRoot root o).drain a).1.1 = emissions o.leavesOnly visited ∧
    ((ofRoot root o).drain a).1.2.outcome = some (ending stop)
  keys : (popped visited stop).Nodup
  paths : ((popped visited stop).map NodeKey.path).Nodup
  /-- Whatever becomes pending has not been pending before. -/
  met : (root.toList ++ visited.flatMap fun r => childKeys r.1 r.2).Nodup
  order : ∀ n k, (popped visited stop)[n]? = some k → Next root (visited.take n) k
  found : ∀ r, r ∈ visited → Reached a.find root r.1 ∧ a.find r.1 = .ok r.2
  complete : stop = none → ∀ k, Reached a.find root k → k ∈ visited.map Prod.fst
  failing : ∀ k e, stop = some (k, e) → Reached a.find root k ∧
    (a.find k = .error e ∨ a.Doubtful ∨
      ∃ x, a.find k = .ok x ∧ emission o.leavesOnly k x = .error e)
  nodes : o.leavesOnly = false →
    emissions o.leavesOnly visited = visited.map fun r => .node r.1 r.2
  completed : o.leavesOnly = false → ¬ a.Doubtful →
    (stop = none ↔ ∀ k, Reached a.find root k → ∃ x, a.find k = .ok x)

/-- A course ends early only where it fails. -/
theorem stop_eq_none_iff
    (hcomplete : stop = none → ∀ k, Reached a.find root k → k ∈ visited.map Prod.fst)
    (hfound : ∀ r, r ∈ visited → Reached a.find root r.1 ∧ a.find r.1 = .ok r.2)
    (hfailing : ∀ k e, stop = some (k, e) → Reached a.find root k ∧ a.find k = .error e) :
    stop = none ↔ ∀ k, Reached a.find root k → ∃ x, a.find k = .ok x := by
  constructor
  · intro hstop k hk
    obtain ⟨r, hr, rfl⟩ := List.mem_map.mp (hcomplete hstop k hk)
    exact ⟨r.2, (hfound r hr).2⟩
  · intro hall
    cases hstop : stop with
    | none => rfl
    | some r =>
      obtain ⟨hk, he⟩ := hfailing r.1 r.2 hstop
      obtain ⟨x, hx⟩ := hall r.1 hk
      rw [hx] at he
      cases he

/-- What is taken up is reached: what is visited, and the node key at which the traversal fails. -/
theorem reached_of_popped
    (hfound : ∀ r, r ∈ visited → Reached a.find root r.1 ∧ a.find r.1 = .ok r.2)
    (hfailing : ∀ k e, stop = some (k, e) → Reached a.find root k) {k : NodeKey}
    (hk : k ∈ popped visited stop) : Reached a.find root k := by
  obtain hk | hk := List.mem_append.mp hk
  · obtain ⟨r, hr, rfl⟩ := List.mem_map.mp hk
    exact (hfound r hr).1
  · obtain ⟨r, hr, rfl⟩ := Option.map_eq_some_iff.mp (Option.mem_toList.mp hk)
    exact hfailing r.1 r.2 hr

theorem nodup_popped (hvisited : (visited.map Prod.fst).Nodup)
    (hnew : ∀ k e, stop = some (k, e) → k ∉ visited.map Prod.fst) :
    (popped visited stop).Nodup := by
  cases stop with
  | none => simpa [popped] using hvisited
  | some r =>
    rw [popped, List.nodup_append]
    refine ⟨hvisited, List.nodup_singleton _, ?_⟩
    rintro j hj i hi rfl
    obtain rfl : j = r.1 := by simpa using hi
    exact hnew r.1 r.2 rfl hj

/-- Every traversal comes to an end of its own, in one way. -/
theorem exists_surveys (root : Option NodeKey) (o : TraversalOptions) (a : Access) :
    ∃ visited stop, Surveys root o a visited stop := by
  have hf := frontier_ofRoot a.find root o
  obtain ⟨visited, stop, hcourse⟩ := exists_course o.leavesOnly hf
  refine ⟨visited, stop, ?_⟩
  obtain ⟨left, hleft, hdone, hstop⟩ := hcourse.frontier hf
  rw [List.nil_append] at hleft
  have hfailing : ∀ k e, stop = some (k, e) → Reached a.find root k ∧
      (a.find k = .error e ∨ a.Doubtful ∨
        ∃ x, a.find k = .ok x ∧ emission o.leavesOnly k x = .error e) := by
    intro k e h
    obtain ⟨hmax, hwhy⟩ := hstop k e h
    exact ⟨(hleft.fresh k (Std.ExtTreeSet.max?_mem hmax)).1, hwhy⟩
  have hcomplete : stop = none → ∀ k, Reached a.find root k → k ∈ visited.map Prod.fst := by
    intro h k hk
    rw [hdone h] at hleft
    exact (hleft.complete fun j => Std.ExtTreeSet.not_mem_empty).mpr hk
  have hkeys : (popped visited stop).Nodup := by
    refine nodup_popped hleft.nodup fun k e h => ?_
    exact (hleft.fresh k (Std.ExtTreeSet.max?_mem (hstop k e h).1)).2
  have hreached : ∀ k, k ∈ popped visited stop → Reached a.find root k :=
    fun k hk => reached_of_popped hleft.found (fun k e h => (hfailing k e h).1) hk
  obtain ⟨hchildren, hnew⟩ := hcourse.met_once hf
  constructor
  case course => exact hcourse
  case only => exact fun visited' stop' h => hcourse.unique h
  case drained => exact hcourse.drain (ready_ofRoot root o) hf
  case keys => exact hkeys
  case paths =>
    exact List.Nodup.map_on (fun j hj k hk => (hreached j hj).path_inj (hreached k hk)) hkeys
  case met =>
    rw [List.nodup_append]
    refine ⟨?_, hchildren, ?_⟩
    · cases root with
      | none => exact List.nodup_nil
      | some r => exact List.nodup_singleton _
    · rintro j hj i hi rfl
      refine (hnew j hi).2 (hf.pending_iff.mpr ⟨List.not_mem_nil, .inl ?_⟩)
      exact Option.mem_toList.mp hj
  case order => exact hcourse.next hf
  case found => exact hleft.found
  case complete => exact hcomplete
  case failing => exact hfailing
  case nodes =>
    intro hmode
    rw [hmode]
    exact emissions_nodes visited
  case completed =>
    intro hmode hsure
    rw [hmode] at hfailing
    refine stop_eq_none_iff hcomplete hleft.found fun k e h => ?_
    obtain ⟨hk, he | hd | ⟨x, -, hx⟩⟩ := hfailing k e h
    · exact ⟨hk, he⟩
    · exact absurd hd hsure
    · cases hx

end Traversal

/-! ## Entries -/

namespace Traversal

variable {visited : List (NodeKey × Node)} {stop : Option (NodeKey × Error)} {item : Item}

theorem emission_entry (k : NodeKey) (key value : ByteArray) :
    emission true k (.leaf (Leaf.make (Path.ofKey key) value)) = .ok (some (.entry key value)) := by
  have hkey : (Leaf.make (Path.ofKey key) value).key.toKey? = some key := Path.toKey?_ofKey key
  rw [emission, hkey]
  rfl

section Entries

variable {o : TraversalOptions} {a : Access} {tree : TreePrefix} {T : Tree} {m : Entries}

/-- A leaf of a tree is the leaf of an entry that the tree holds. -/
theorem entry_of_owns {k : NodeKey} {l : Leaf} (hT : T.Compact []) (hm : T.Holds m)
    (hk : Owns tree [] T k (.leaf l)) : ∃ key value, m[key]? = some value ∧
      l = Leaf.make (Path.ofKey key) value :=
  (hm l).mp (hk.has_leaf hT rfl).1

variable (h : Surveys (T.key? tree []) o a visited stop) (hw : T.Whole tree a.find)
include h hw

/-- In a tree that is whole nothing fails: its nodes are found, and its leaves can be emitted. -/
theorem Surveys.stop_eq_none (hmode : o.leavesOnly = true) (hsure : ¬ a.Doubtful)
    (hT : T.Compact []) (hm : T.Holds m) : stop = none := by
  cases hs : stop with
  | none => rfl
  | some r =>
    obtain ⟨hk, hwhy⟩ := h.failing r.1 r.2 hs
    obtain ⟨x, hx⟩ := hk.owns hw.sound
    rw [hmode] at hwhy
    obtain he | hd | ⟨y, hy, he⟩ := hwhy
    · rw [hw r.1 x hx] at he
      cases he
    · exact absurd hd hsure
    · obtain rfl : x = y := Except.ok.inj ((hw r.1 x hx).symm.trans hy)
      cases x with
      | branch b => cases he
      | leaf l =>
        obtain ⟨key, value, -, rfl⟩ := entry_of_owns hT hm hx
        rw [emission_entry] at he
        cases he

/-- What is emitted of a node visited is an entry, and the node is its leaf. -/
theorem Surveys.entry_of_emitted (hT : T.Compact []) (hm : T.Holds m) {r : NodeKey × Node}
    (hr : r ∈ visited) (hitem : emitted true r = some item) :
    ∃ key value, m[key]? = some value ∧ item = .entry key value ∧
      Owns tree [] T r.1 (.leaf (Leaf.make (Path.ofKey key) value)) ∧
      r.2 = .leaf (Leaf.make (Path.ofKey key) value) := by
  have howns := (owns_iff_reached hw).mpr (h.found r hr)
  obtain ⟨k, x⟩ := r
  cases x with
  | branch b => cases hitem
  | leaf l =>
    obtain ⟨key, value, hkey, rfl⟩ := entry_of_owns hT hm howns
    rw [emitted, emission_entry] at hitem
    exact ⟨key, value, hkey, (Option.some.inj hitem).symm, howns, rfl⟩

/-- The leaves of a tree that is whole are listed as the entries that it holds. -/
theorem Surveys.entries (hmode : o.leavesOnly = true) (hsure : ¬ a.Doubtful) (hT : T.Compact [])
    (hm : T.Holds m) : stop = none ∧ (emissions o.leavesOnly visited).Nodup ∧
      ∀ item, item ∈ emissions o.leavesOnly visited ↔
        ∃ key value, item = .entry key value ∧ m[key]? = some value := by
  have hstop := h.stop_eq_none hw hmode hsure hT hm
  rw [hmode]
  refine ⟨hstop, ?_, fun item => ?_⟩
  · have hkeys : visited.Nodup := (List.nodup_append.mp h.keys).1.of_map
    refine List.pairwise_filterMap.mpr (hkeys.imp_of_mem fun {r r'} hr hr' hne => ?_)
    rintro item hitem _ hitem' rfl
    obtain ⟨key, value, -, rfl, howns, hx⟩ := h.entry_of_emitted hw hT hm hr hitem
    obtain ⟨_, _, -, ⟨⟩, howns', hx'⟩ := h.entry_of_emitted hw hT hm hr' hitem'
    exact hne (Prod.ext (howns.eq_of_leaf hT howns') (hx.trans hx'.symm))
  · rw [emissions, List.mem_filterMap]
    constructor
    · rintro ⟨r, hr, hitem⟩
      obtain ⟨key, value, hkey, rfl, -⟩ := h.entry_of_emitted hw hT hm hr hitem
      exact ⟨key, value, rfl, hkey⟩
    · rintro ⟨key, value, rfl, hkey⟩
      obtain ⟨k, hk⟩ := (hm.has hkey).exists_owns tree []
      obtain ⟨hreached, hx⟩ := (owns_iff_reached hw).mp hk
      obtain ⟨r, hr, rfl⟩ := List.mem_map.mp (h.complete hstop k hreached)
      refine ⟨r, hr, ?_⟩
      rw [(h.found r hr).2] at hx
      obtain ⟨k, x⟩ := r
      cases hx
      rw [emitted, emission_entry]

end Entries

end Traversal

/-! ## Loading a root and starting from it -/

/-- A root that can be loaded can be traversed, from the root node of its handle. -/
theorem Traversal.start_of_load {root : Digest} {a : Access} {t : Trie} (hsure : ¬ a.Doubtful)
    (hload : (Trie.load root a).1 = .ok t) (o : TraversalOptions) :
    ∃ b, a.Agrees b ∧ start root o a = (.ok (ofRoot t.root o), b) := by
  have hstored := (Trie.load_answers_stored root a).eq_of_ok hload
  have hstart : Answers Access.Agrees a.Doubtful (start root o) a (.ok (ofRoot t.root o)) := by
    unfold start
    by_cases hp : root = Digest.placeholder
    · rw [if_pos hp] at hstored ⊢
      cases hstored
      exact answers_pure
    · rw [if_neg hp] at hstored ⊢
      cases hk : a.anchor root with
      | error e =>
        rw [hk] at hstored
        cases hstored
      | ok k =>
        have hanchor := a.readAnchor_answers root
        rw [hk] at hanchor
        refine hanchor.bind_ok fun b _ => ?_
        cases hx : a.stored k with
        | error e =>
          simp only [hk, hx, bind, Except.bind] at hstored
          cases hstored
        | ok x =>
          simp only [hk, hx, bind, Except.bind] at hstored
          split at hstored
          · cases hstored
            exact answers_pure
          · cases hstored
  exact ⟨_, hstart.1, Prod.ext (hstart.eq hsure) rfl⟩

/-- The entries are what can be read under the root, and what a traversal of the leaves gives. -/
structure Access.Enumerates (a : Access) (root : Digest) (m : Entries) : Prop where
  reads : ∀ key, ((Trie.load root >>= fun t => t.get key) a).1 = .ok m[key]?
  lists : ∀ o : TraversalOptions, o.leavesOnly = true →
    ∃ t b, Traversal.start root o a = (.ok t, b) ∧ (t.drain b).1.2.outcome = some .completed ∧
      (t.drain b).1.1.Nodup ∧ ∀ item, item ∈ (t.drain b).1.1 ↔
        ∃ key value, item = .entry key value ∧ m[key]? = some value

theorem Access.enumerates {a : Access} {root : Digest} {tree : TreePrefix} {T : Tree} {m : Entries}
    (hsure : ¬ a.Doubtful) (hload : (Trie.load root a).1 = .ok (Trie.opened tree T))
    (hback : a.Backed tree T) (hw : T.Whole tree a.find) (hT : T.Compact []) (hm : T.Holds m)
    (hb : m.Bounded) : a.Enumerates root m := by
  constructor
  case reads =>
    intro key
    have hloads := Trie.load_answers_stored root a
    rw [hloads.eq_of_ok hload] at hloads
    refine (hloads.bind_ok fun b hab => ?_).eq hsure
    have hrep := Trie.represents_opened tree hT
    refine (hrep.get_answers (hab.backed hback) hm hb key).mono fun hrisk => hab.reads ?_
    refine hrisk.resolve_left fun hn => hn (hrep.whole fun k x hk => ?_)
    rw [hab.find]
    exact hw k x hk
  case lists =>
    intro o hmode
    obtain ⟨b, hab, hstart⟩ := Traversal.start_of_load hsure hload o
    have hsure' : ¬ b.Doubtful := fun hd => hsure (hab.reads hd)
    have hw' : T.Whole tree b.find := by
      rwa [show b.find = a.find from funext hab.find]
    obtain ⟨visited, stop, h⟩ := Traversal.exists_surveys (T.key? tree []) o b
    obtain ⟨rfl, hnodup, hitems⟩ := h.entries hw' hmode hsure' hT hm
    refine ⟨_, b, hstart, h.drained.2, ?_, ?_⟩
    · rw [show (Trie.opened tree T).root = T.key? tree [] from rfl, h.drained.1]
      exact hnodup
    · rw [show (Trie.opened tree T).root = T.key? tree [] from rfl, h.drained.1]
      exact hitems

theorem Access.enumerates_placeholder {a : Access} (hsure : ¬ a.Doubtful) :
    a.Enumerates Digest.placeholder ∅ := by
  have hload : (Trie.load Digest.placeholder a).1 = .ok (Trie.opened TreePrefix.empty .vacant) := by
    rw [Trie.load_placeholder]
    rfl
  exact enumerates hsure hload (fun _ _ hk => absurd hk not_owns_vacant)
    (fun _ _ hk => absurd hk not_owns_vacant) .vacant holds_vacant Entries.bounded_empty

/-! ## Roots of a session -/

namespace Session

variable {s : Session} {base T : Tree} {m : Entries} {j : Journal} {t : Trie} {b : Access}

/-- What a commit of the handle leads to is there: the anchor, and all nodes of the handle. -/
structure Remains (s : Session) (j : Journal) (b : Access) : Prop where
  anchor : ∀ k, j.rootKey = some k → b.anchor j.root = .ok k
  nodes : ∀ k, s.Reaches k → ∃ x, s.fetched k = .ok x ∧ b.stored k = .ok x ∧
    ∀ y, b.peek k = some y → y = x

theorem Stands.enumerates (h : s.Stands base T m) (hh : s.Honest)
    (hcommit : (s.trie.commit s.access).1 = .ok (j, t)) (hr : s.Remains j b)
    (hsure : ¬ b.Doubtful) : ∃ m, b.Enumerates j.root m := by
  have hlive : s.trie.committed = false := by
    by_contra hc
    rw [Trie.commit_closed (Bool.not_eq_false _ ▸ hc)] at hcommit
    cases hcommit
  have hrep := h.represents hlive
  have hj : j = s.trie.journal T.digest := by
    obtain ⟨e, a, hrun, -⟩ | ⟨a, -, hrun⟩ := hrep.commit (h.backed hh)
    · rw [hrun] at hcommit
      cases hcommit
    · rw [hrun] at hcommit
      cases hcommit
      rfl
  subst hj
  have hsound := h.sound hh hlive
  have hwhole : T.Whole s.trie.tree (s.trie.find s.access) := by
    refine whole_of_reached hsound fun k hk => ?_
    rw [← hrep.root, ← fetched_eq_find, ← reaches_iff] at hk
    obtain ⟨x, hx, -⟩ := hr.nodes k hk
    exact ⟨x, (s.fetched_eq k).symm.trans hx⟩
  have hprovides : b.Provides s.trie.tree T := by
    intro k x hk
    obtain ⟨hk, hx⟩ := (owns_iff_reaches hrep hwhole).mp hk
    obtain ⟨y, hy, hstored, hpeek⟩ := hr.nodes k hk
    obtain rfl : x = y := Except.ok.inj (hx.symm.trans hy)
    exact ⟨hpeek, hstored⟩
  by_cases hd : T.digest = Digest.placeholder
  · refine ⟨∅, ?_⟩
    rw [show (s.trie.journal T.digest).root = Digest.placeholder from hd]
    exact Access.enumerates_placeholder hsure
  · obtain ⟨x, hx⟩ := exists_node?_of_digest hd
    obtain ⟨k, hk⟩ := key?_of_node? hx s.trie.tree []
    have hload := Trie.load_answers hk hd (hr.anchor k (hrep.root.trans hk)) fun x hown =>
      (hprovides k x hown).2
    exact ⟨m, Access.enumerates hsure (hload.eq hsure) hprovides.backed hprovides.whole h.compact
      h.holds h.bounded⟩

/-- Right after a commit all is there, unless the anchor has taken the place of a node. -/
theorem Steady.remains (h : s.Steady base T m) (hserved : s.Served)
    (hserved' : (s.perform .commit).Served)
    (hapart : ∀ k, s.Reaches k → k.encode ≠ T.digest.bytes) :
    ∃ j t b, s.trie.commit s.access = (.ok (j, t), b) ∧ ¬ b.Doubtful ∧ s.Remains j b := by
  obtain ⟨a, ha, hrun⟩ := h.commits hserved
  have hrep := h.stands.represents h.live
  have hcommit : s.commit = s.committedTo a T.digest := by
    rw [Session.commit, hrun]
    rfl
  have hafter : (s.committedTo a T.digest).Served := by
    obtain ⟨hread, hcontents⟩ := s.commit.reopen_agrees
    rw [← hcommit]
    exact (served_congr hread hcontents).mp hserved'
  have hfaultless : (s.committedTo a T.digest).Faultless :=
    Trie.faultless_committedTo (ha.faultless h.faultless)
  have hstands := h.stands.committedTo hserved.honest h.live ha
  refine ⟨_, _, _, hrun, hfaultless.not_doubtful, ?_, fun k hk => ?_⟩
  · exact fun k hk => hafter.anchor (Trie.getElem?_batch_anchor hk)
  · obtain ⟨x, hx⟩ := hk.owns hrep (h.whole hserved).sound
    have hkeeps : (s.committedTo a T.digest).contents.Keeps k x :=
      hrep.keeps_batch (h.stands.holds.admissible h.stands.bounded)
        (fun _ _ => h.firm.live h.live) hx (hapart k hk)
    exact ⟨x, ((owns_iff_reaches hrep (h.whole hserved)).mp hx).2, hafter.stored hkeeps,
      fun y => hstands.cached k x y hx⟩

/-- Under a long prefix no anchor takes the place of a node. -/
theorem remains_long {tree : TreePrefix} {a : Access} {c : Contents} {actions : List Action}
    (hserved : (start tree a c).Throughout Served (actions ++ [.commit]))
    (hsparing : (start tree a c).AtCommits Sparing actions) (hplan : a.store.plan = FaultPlan.none)
    (hs : s = (start tree a c).run actions) (hlive : s.trie.committed = false)
    (hlong : 23 < s.trie.tree.bytes.size) :
    ∃ j t b, s.trie.commit s.access = (.ok (j, t), b) ∧ ¬ b.Doubtful ∧ s.Remains j b := by
  subst hs
  obtain ⟨hlast, hcommit⟩ := hserved.around List.prefix_rfl
  have hbefore := hserved.before (List.prefix_append actions [.commit])
  obtain ⟨base, T, m, h, hf⟩ := firm_run hbefore hsparing _ List.prefix_rfl
  have hfaultless := (faultless_run hplan fun pre hpre => (hbefore pre hpre).honest).last
  have hsteady : ((start tree a c).run actions).Steady base T m := ⟨h, hf, hlive, hfaultless⟩
  exact hsteady.remains hlast hcommit fun k hk =>
    hk.encode_ne h hlast.honest hlive hlong T.digest

end Session

/-! ## Roots of a hub -/

namespace Hub

open Log

variable {h : Hub} {cleared : List Journal} {j : Journal} {m : Entries} {a : Access} {t : Trie}

/-- A root is there if it can be loaded and whatever is reached from it is found. -/
def Finds (a : Access) (root : Digest) : Prop :=
  ∃ t, (Trie.load root a).1 = .ok t ∧ ∀ k, Reached a.find t.root k → ∃ x, a.find k = .ok x

/-- With a clean log, a root that is there leads to what has been committed under it. -/
theorem Tended.enumerates (ht : h.Tended cleared) (hg : h.Grants a) (hj : (j, m) ∈ h.commits)
    (hsure : ¬ a.Doubtful) (hfinds : Finds a j.root) : a.Enumerates j.root m := by
  obtain ⟨t, hload, hall⟩ := hfinds
  obtain ⟨tree, T, rfl, hb⟩ := ht.load hg hj hload
  have hback := ht.backed hg hb.wrote
  have hsound : T.Sound tree a.find := fun k x y hk hy => (hback k x hk).find hy
  exact Access.enumerates hsure hload hback (whole_of_reached hsound hall) hb.compact hb.holds
    hb.bounded

/-- As long as no deletes are applied, every root is there. -/
theorem Intact.finds (hi : h.Intact) (hg : h.Grants a) (hj : (j, m) ∈ h.commits)
    (hsure : ¬ a.Doubtful) : Finds a j.root := by
  obtain ⟨tree, T, hshows, hb⟩ := hi.shown j m hj
  obtain ⟨tree', T', hb', hload⟩ := hi.load (List.mem_map_of_mem hj) hshows hb
  have hw : T'.Whole tree' a.find := fun k x hk => hi.found hg (hb'.wrote k x hk)
  refine ⟨_, (hload a hg).eq hsure, fun k hk => ?_⟩
  obtain ⟨x, hx⟩ := Reached.owns hk hw.sound
  exact ⟨x, hw k x hx⟩

end Hub

/-! ## Traversals -/

namespace Traversal

/-- Every traversal that is left alone ends, having met every node key once and in order, and over
nodes it is completed exactly if all that is reached can be read. Over leaves it lists the entries
of any root that has been committed and is still there: after a commit in a session, whatever
becomes of the store, and on a store with a clean log, where nothing gets lost as long as no deletes
are applied. -/
theorem lists_once :
    (∀ root o a, ∃ visited stop, Surveys root o a visited stop) ∧
    (∀ tree a c actions, (Session.start tree a c).Throughout Session.Honest actions →
      ∀ s, s = (Session.start tree a c).run actions →
        ∀ j t, (s.trie.commit s.access).1 = .ok (j, t) →
          ∀ b, s.Remains j b → ¬ b.Doubtful → ∃ m, b.Enumerates j.root m) ∧
    ∀ volume store capacity c turns,
      (Hub.start volume store capacity c).Throughout Hub.Served turns →
      ∀ h, h = (Hub.start volume store capacity c).run turns → Log.Clean h.journals →
        ((∀ turn, turn ∈ turns → ∀ n, turn.deed ≠ .prune n) →
          ∀ j m, (j, m) ∈ h.commits → ∀ cache, Hub.Finds (h.access FaultPlan.none cache) j.root) ∧
        ∀ j m, (j, m) ∈ h.commits → ∀ cache, Hub.Finds (h.access FaultPlan.none cache) j.root →
          (h.access FaultPlan.none cache).Enumerates j.root m := by
  refine ⟨exists_surveys, ?_, ?_⟩
  · rintro tree a c actions hhonest _ rfl j t hcommit b hr hsure
    obtain ⟨base, T, m, h⟩ := Session.stands_run hhonest _ List.prefix_rfl
    exact h.enumerates hhonest.last hcommit hr hsure
  · rintro volume store capacity c turns hserved _ rfl hclean
    have hsure : ∀ cache,
        ¬ (((Hub.start volume store capacity c).run turns).access FaultPlan.none cache).Doubtful :=
      fun _ hd => hd rfl
    refine ⟨fun hprune j m hj cache => ?_, fun j m hj cache hfinds => ?_⟩
    · have hi := ((Hub.intact_start volume store capacity c).run hserved hprune hclean).last
      exact hi.finds (hi.grants hserved.last _ cache) hj (hsure cache)
    · have ht := (Hub.tended_start volume store capacity c).run hserved hclean
      exact ht.enumerates (hserved.last.grants ht.cached _ cache) hj (hsure cache) hfinds

/-- Two keys are put under a long prefix. -/
def planted : Session :=
  (Session.start TreePrefix.long default ∅).run
    [.update 7 "a".toUTF8 "1".toUTF8, .update 7 "b".toUTF8 "2".toUTF8]

theorem lists_once_planted :
    (∃ visited stop, Surveys none ⟨1, none, true⟩ default visited stop) ∧
    (∃ j t b m, (planted.trie.commit planted.access).1 = .ok (j, t) ∧ planted.Remains j b ∧
      ¬ b.Doubtful ∧ b.Enumerates j.root m) ∧
    0 < (Hub.blank.run (Hub.parted.take 3)).commits.length ∧
    ∀ j m, (j, m) ∈ (Hub.blank.run (Hub.parted.take 3)).commits → ∀ cache,
      ((Hub.blank.run (Hub.parted.take 3)).access FaultPlan.none cache).Enumerates j.root m := by
  have hlog : (Log.Unambiguous (Hub.blank.run (Hub.parted.take 3)).journals ∧
      Log.Apart (Hub.blank.run (Hub.parted.take 3)).journals ∧
      Log.Distinct (Hub.blank.run (Hub.parted.take 3)).journals) ∧
        0 < (Hub.blank.run (Hub.parted.take 3)).commits.length := by
    decide +kernel
  have hplanted : planted.trie.committed = false ∧ 23 < planted.trie.tree.bytes.size := by
    decide +kernel
  obtain ⟨⟨hsame, hapart, hfree⟩, hcommits⟩ := hlog
  obtain ⟨hsurveys, hsession, hhub⟩ := lists_once
  refine ⟨hsurveys _ _ _, ?_, hcommits, ?_⟩
  · have hsparing : (Session.start TreePrefix.long default ∅).AtCommits Session.Sparing
        [.update 7 "a".toUTF8 "1".toUTF8, .update 7 "b".toUTF8 "2".toUTF8] := by
      simp [Session.AtCommits, atEach_cons, atEach_nil]
    obtain ⟨j, t, b, hrun, hsure, hr⟩ := Session.remains_long (s := planted)
      (Session.served_inMemory rfl _) hsparing rfl rfl hplanted.1 hplanted.2
    have hcommit : (planted.trie.commit planted.access).1 = .ok (j, t) := by
      rw [hrun]
    have hserved : (Session.start TreePrefix.long default ∅).Throughout Session.Served
        [.update 7 "a".toUTF8 "1".toUTF8, .update 7 "b".toUTF8 "2".toUTF8] :=
      Session.served_inMemory rfl _
    obtain ⟨m, hm⟩ := hsession _ _ _ _ (fun pre hpre => (hserved pre hpre).honest) planted rfl
      j t hcommit b hr hsure
    exact ⟨j, t, b, m, hcommit, hr, hsure, hm⟩
  · obtain ⟨hfinds, henumerates⟩ := hhub default default (fun _ => 8) ∅ (Hub.parted.take 3)
      (Hub.served_blank _) _ rfl ⟨hsame, hapart, hfree.free⟩
    exact fun j m hj cache => henumerates j m hj cache
      (hfinds (by simp [Hub.parted]) j m hj cache)

end Traversal

end VersionedTrie
