import VersionedTrie.Proofs.Changes.Provenance
import VersionedTrie.Proofs.Hub.Failure
import VersionedTrie.Proofs.Lineage.Ledger

/-! # Where what a hub has comes from

Whatever is in the contents of a hub has been put there by a commit, as a node or as an anchor, and
whatever its handles remember or have superseded has been found there (`Hub.Grounded`). Deletes take
away, and no update invents node keys, so this is kept by all turns, as long as no anchor is under a
byte string that is the stored form of a node key, and what is found through the cache is what is
stored. No tree is assumed, so handles that overwrite each other's nodes are no exception.
-/

set_option autoImplicit false

namespace VersionedTrie

namespace Log

variable {log log' : List Journal} {b : ByteArray} {k : NodeKey}

/-- Some commit has written an anchor or a node under the byte string. -/
def Used (log : List Journal) (b : ByteArray) : Prop :=
  ∃ j, j ∈ log ∧ (b = j.root.bytes ∨ ∃ r, r ∈ j.written ∧ b = r.1.encode)

theorem Used.mono (h : Used log b) (hl : log ⊆ log') : Used log' b := by
  obtain ⟨j, hj, hb⟩ := h
  exact ⟨j, hl hj, hb⟩

/-- The entry is that of a node which some commit has written, or an anchor that leads to where paths
begin. -/
def Accounts (log : List Journal) (b v : ByteArray) : Prop :=
  (∃ j, j ∈ log ∧ ∃ r, r ∈ j.written ∧ b = r.1.encode) ∨
    ∃ j, j ∈ log ∧ b = j.root.bytes ∧ ∃ k, v = NodeKey.encode k ∧ k.path = []

theorem Accounts.mono {v : ByteArray} (h : Accounts log b v) (hl : log ⊆ log') :
    Accounts log' b v := by
  obtain ⟨j, hj, hr⟩ | ⟨j, hj, hb⟩ := h
  · exact .inl ⟨j, hl hj, hr⟩
  · exact .inr ⟨j, hl hj, hb⟩

theorem Accounts.used {v : ByteArray} (h : Accounts log b v) : Used log b := by
  obtain ⟨j, hj, hr⟩ | ⟨j, hj, hroot, -⟩ := h
  · exact ⟨j, hj, .inr hr⟩
  · exact ⟨j, hj, .inl hroot⟩

/-- A node key that is used, and written by some commit, has been written by one of the commits by
which it is used. -/
theorem Used.exists_written (h : Used log k.encode) (hl : log ⊆ log') (hapart : Apart log')
    {j : Journal} (hj : j ∈ log') {v : ByteArray} (hk : (k, v) ∈ j.written) :
    ∃ i, i ∈ log ∧ ∃ r, r ∈ i.written ∧ r.1 = k := by
  obtain ⟨i, hi, hroot | ⟨r, hr, hkey⟩⟩ := h
  · exact absurd hroot (hapart i (hl hi) j hj (k, v) hk)
  · exact ⟨i, hi, r, hr, (NodeKey.encode_inj.mp hkey).symm⟩

end Log

open Log

/-! ## Handles -/

namespace Trie

/-- The root stands where paths begin, what is dirty can be stored, and what is remembered or
superseded has been written by some commit. -/
structure Grounded (log : List Journal) (t : Trie) : Prop where
  rooted : ∀ k, t.root = some k → k.tree = t.tree ∧ k.path = []
  dirty : ∀ (k : NodeKey) x, t.dirty[k]? = some x → x.Storable
  seen : ∀ (k : NodeKey) x, t.seen[k]? = some x → x.Storable ∧ Used log k.encode
  superseded : ∀ k, k ∈ t.superseded → t.dirty[k]? = none ∧ Used log k.encode

variable {log log' : List Journal} {t : Trie} {a : Access} {c : Changes} {k : NodeKey} {x : Node}

theorem Grounded.mono (h : t.Grounded log) (hl : log ⊆ log') : t.Grounded log' where
  rooted := h.rooted
  dirty := h.dirty
  seen k x hk := (h.seen k x hk).imp_right fun hu => hu.mono hl
  superseded k hk := (h.superseded k hk).imp_right fun hu => hu.mono hl

/-- A handle that has neither written nor read. -/
theorem grounded_fresh (h₁ : t.dirty = ∅) (h₂ : t.seen = ∅) (h₃ : t.superseded = ∅)
    (hroot : ∀ k, t.root = some k → k.tree = t.tree ∧ k.path = []) : t.Grounded log where
  rooted := hroot
  dirty k x hk := by
    rw [h₁, Std.ExtTreeMap.getElem?_empty] at hk
    cases hk
  seen k x hk := by
    rw [h₂, Std.ExtTreeMap.getElem?_empty] at hk
    cases hk
  superseded k hk := by
    rw [h₃] at hk
    exact absurd hk Std.ExtTreeSet.not_mem_empty

theorem grounded_created (log : List Journal) (tree : TreePrefix) :
    Grounded log { empty with tree } :=
  grounded_fresh rfl rfl rfl fun _ h => by cases h

theorem grounded_ended (log : List Journal) (t : Trie) : t.ended.Grounded log :=
  grounded_fresh rfl rfl rfl fun _ h => by cases h

/-- A handle loaded through an anchor that leads to where paths begin. -/
theorem grounded_load {root : Digest} (hload : (load root a).1 = .ok t)
    (hanchor : ∀ k, a.anchor root = .ok k → k.path = []) : t.Grounded log := by
  obtain rfl | ⟨k, hk, rfl⟩ := load_eq_ok hload
  · exact grounded_created log TreePrefix.empty
  · refine grounded_fresh rfl rfl rfl fun j hj => ?_
    cases hj
    exact ⟨rfl, hanchor k hk⟩

/-! ### Updates -/

/-- A handle finds nodes that can be stored; what it does not find among the dirty ones has been
written by some commit. -/
theorem Grounded.found (ht : t.Grounded log)
    (ha : ∀ k x, a.find k = .ok x → x.Storable ∧ Used log k.encode) (hk : t.find a k = .ok x) :
    x.Storable ∧ (t.dirty[k]? = none → Used log k.encode) := by
  rw [find] at hk
  cases hd : t.dirty[k]? with
  | some y =>
    simp only [hd] at hk
    cases hk
    exact ⟨ht.dirty k x hd, fun h => by cases h⟩
  | none =>
    simp only [hd] at hk
    cases hs : t.seen[k]? with
    | some y =>
      simp only [hs] at hk
      cases hk
      exact (ht.seen k x hs).imp_right fun h _ => h
    | none =>
      simp only [hs] at hk
      exact (ha k x hk).imp_right fun h _ => h

theorem seen_of_apply (h : (t.apply c).seen[k]? = some x) : t.seen[k]? = some x := by
  refine apply_induction (P := fun u => u.seen[k]? = some x → t.seen[k]? = some x) id
    (fun u j _ hu hk => hu ?_) (fun _ _ _ _ hu => hu) h
  unfold drop at hk
  split at hk
  · exact hk
  · rw [Std.ExtTreeMap.getElem?_erase] at hk
    split at hk
    · cases hk
    · exact hk

theorem Grounded.apply (ht : t.Grounded log) {find : NodeKey → Except Error Node}
    (hc : c.Sourced find []) (hfind : ∀ k x, find k = .ok x → t.dirty[k]? = none → Used log k.encode)
    (version : Version) (rooted : Bool) :
    Grounded log { t.apply c with
      root := if rooted then some (.ofPath version t.tree []) else none } where
  rooted k hk := by
    cases rooted with
    | false => cases hk
    | true =>
      cases hk
      exact ⟨(tree_apply t c).symm, NodeKey.path_ofPath _ _ _⟩
  dirty k x hk := by
    cases hw : c.written[k]? with
    | some y =>
      obtain rfl : y = x := Option.some.inj ((dirty_apply_written hw).symm.trans hk)
      exact hc.storable k y hw
    | none =>
      have hk : (t.apply c).dirty[k]? = some x := hk
      rw [dirty_apply hw] at hk
      split at hk
      · cases hk
      · exact ht.dirty k x hk
  seen k x hk := ht.seen k x (seen_of_apply hk)
  superseded k hk := by
    obtain ⟨hw, hk⟩ := (mem_superseded_apply hc.nodup).mp hk
    show (t.apply c).dirty[k]? = none ∧ _
    rw [dirty_apply hw]
    obtain hk | ⟨hretired, hclean⟩ := hk
    · obtain ⟨hclean, hused⟩ := ht.superseded k hk
      refine ⟨?_, hused⟩
      rw [hclean, ite_self]
    · obtain ⟨x, hx⟩ := hc.found k hretired
      exact ⟨if_pos hretired, hfind k x hx hclean⟩

/-- An update keeps a handle grounded if what is found has been written. -/
theorem Grounded.update (ht : t.Grounded log)
    (ha : ∀ k x, a.find k = .ok x → x.Storable ∧ Used log k.encode) (version : Version)
    (key value : ByteArray) : (t.update version key value a).1.2.Grounded log := by
  cases hc : t.committed with
  | true =>
    rw [update_closed hc]
    exact ht
  | false =>
    cases hr : refusal key value with
    | some e =>
      rw [update_refused hc hr]
      exact ht
    | none =>
      have hfound : ∀ k x, Draft.find t ⟨a, t.seen⟩ k = .ok x →
          x.Storable ∧ (t.dirty[k]? = none → Used log k.encode) :=
        fun k x hk => ht.found ha hk
      have hlearns := t.learns_plan version key value ⟨a, t.seen⟩
      have hplan := plan_yields (d := ⟨a, t.seen⟩) version hr
        (fun k x hk => (hfound k x hk).1) ht.rooted
      cases hp : t.plan version key value ⟨a, t.seen⟩ with
      | mk o d =>
        rw [hp] at hlearns
        rw [update_planned hc hr hp]
        have hread : Grounded log { t with seen := d.seen } := by
          refine ⟨ht.rooted, ht.dirty, fun k x hk => ?_, ht.superseded⟩
          exact (hlearns.seen hk).elim (ht.seen k x) (ha k x)
        cases o with
        | error e => exact hread
        | ok found =>
          cases found with
          | none => exact hread
          | some r =>
            obtain ⟨c, rooted⟩ := r
            have hsourced := hplan.of_ok (by rw [hp]) c rooted rfl
            exact hread.apply hsourced (fun k x hk => (hfound k x hk).2) version rooted

end Trie

/-! ## Hubs -/

namespace Hub

variable {h h' : Hub} {turn : Turn} {t : Trie} {m : Entries} {j : Journal}

/-- Everything comes from commits: the nodes and anchors in the contents, and what handles remember
or have superseded. -/
structure Grounded (h : Hub) : Prop where
  stored : ∀ b v, h.contents[b]? = some v → Accounts h.journals b v
  superseded : ∀ j, j ∈ h.journals → ∀ k, k ∈ j.superseded → Used h.journals k.encode
  handles : ∀ t m, (t, m) ∈ h.handles → t.Grounded h.journals

/-- What is found through the cache is what is stored. -/
def Clear (h : Hub) (cache : Option Nat) : Prop := h.find cache = h.find none

theorem grounded_start (volume : Volume) (store : Store) (capacity : Nat → Nat) :
    (start volume store capacity ∅).Grounded where
  stored b v hb := by
    rw [show (start volume store capacity ∅).contents = ∅ from rfl,
      Std.ExtTreeMap.getElem?_empty] at hb
    cases hb
  superseded _ hj := absurd hj List.not_mem_nil
  handles _ _ ht := absurd ht List.not_mem_nil

theorem Grounded.reads (hg : h.Grounded) (hr : h.Reads h')
    (hhandles : ∀ t m, (t, m) ∈ h'.handles → t.Grounded h.journals) : h'.Grounded := by
  refine ⟨?_, ?_, ?_⟩
  · rw [hr.contents, hr.journals]
    exact hg.stored
  · rw [hr.journals]
    exact hg.superseded
  · rw [hr.journals]
    exact hhandles

theorem Grounded.opened (hg : h.Grounded) (ht : t.Grounded h.journals) :
    ∀ u m', (u, m') ∈ h.handles ++ [(t, m)] → u.Grounded h.journals := by
  intro u m' hu
  obtain hu | hu := List.mem_append.mp hu
  · exact hg.handles u m' hu
  · obtain ⟨rfl, -⟩ := Prod.mk.inj (List.mem_singleton.mp hu)
    exact ht

theorem Grounded.replaced (hg : h.Grounded) {i : Nat} (ht : t.Grounded h.journals) :
    ∀ u m', (u, m') ∈ h.handles.set i (t, m) → u.Grounded h.journals := by
  intro u m' hu
  obtain hu | hu := List.mem_or_eq_of_mem_set hu
  · exact hg.handles u m' hu
  · obtain ⟨rfl, -⟩ := Prod.mk.inj hu
    exact ht

section Found

variable (hg : h.Grounded) (hs : h.Served)
include hg hs

/-- What is found has been written by some commit. -/
theorem Grounded.found {plan : FaultPlan} {cache : Option Nat} (hclear : h.Clear cache) {k : NodeKey}
    {x : Node} (hk : (h.access plan cache).find k = .ok x) :
    x.Storable ∧ Used h.journals k.encode := by
  have hfind : h.find cache k = .ok x := hk
  rw [hclear] at hfind
  obtain ⟨b, hb, hdecode⟩ := Access.stored_eq_ok.mp ((Access.find_uncached rfl k).symm.trans hfind)
  have hb : h.contents[k.encode]? = some b := Except.ok.inj ((hs k.encode).symm.trans hb)
  exact ⟨(Node.decode_eq_ok.mp hdecode).2, (hg.stored _ _ hb).used⟩

/-- An anchor leads to where paths begin, unless there is a node in its place. -/
theorem Grounded.anchored {plan : FaultPlan} {cache : Option Nat} {root : Digest}
    (hroot : ∀ j, j ∈ h.journals → ∀ r, r ∈ j.written → r.1.encode ≠ root.bytes) {k : NodeKey}
    (hk : (h.access plan cache).anchor root = .ok k) : k.path = [] := by
  obtain ⟨b, hb, hdecode⟩ := Access.anchor_eq_ok.mp hk
  have hb : h.contents[root.bytes]? = some b := Except.ok.inj ((hs root.bytes).symm.trans hb)
  obtain ⟨j, hj, r, hr, hkey⟩ | ⟨j, -, -, rk, rfl, hpath⟩ := hg.stored _ _ hb
  · exact absurd hkey.symm (hroot j hj r hr)
  · rw [NodeKey.decode_encode] at hdecode
    cases hdecode
    exact hpath

end Found

/-- What a commit writes is accounted for by its own journal. -/
theorem Grounded.stored_batch (hg : h.Grounded) (ht : t.Grounded h.journals) (root : Digest)
    {b v : ByteArray} (hb : (((t.journal root).batch false).apply h.contents)[b]? = some v) :
    Accounts (h.journals ++ [t.journal root]) b v := by
  have hlast : t.journal root ∈ h.journals ++ [t.journal root] :=
    List.mem_append_right _ List.mem_cons_self
  by_cases hanchor : t.root ≠ none ∧ b = root.bytes
  · obtain ⟨hne, rfl⟩ := hanchor
    obtain ⟨rk, hrk⟩ := Option.ne_none_iff_exists'.mp hne
    rw [Trie.getElem?_batch_anchor hrk] at hb
    exact .inr ⟨_, hlast, rfl, rk, (Option.some.inj hb).symm, (ht.rooted rk hrk).2⟩
  · rw [Trie.getElem?_batch_ne fun hne e => hanchor ⟨hne, e⟩] at hb
    by_cases hd : ∃ (k : NodeKey) (x : Node), t.dirty[k]? = some x ∧ k.encode = b
    · obtain ⟨k, x, hd, rfl⟩ := hd
      exact .inl ⟨_, hlast, (k, x.encode), Trie.mem_written.mpr ⟨x, hd, rfl⟩, rfl⟩
    · rw [Trie.getElem?_nodePuts_ne fun k x hk e => hd ⟨k, x, hk, e⟩] at hb
      exact (hg.stored b v hb).mono (List.subset_append_left _ _)

theorem Grounded.commit {cache : Option Nat} {i : Nat} {a : Access}
    (hg : h.Grounded) (ht : t.Grounded h.journals) (root : Digest) :
    (((h.settle cache (t.committedTo a root)).replace i t.ended m).record
      (t.journal root) m).Grounded := by
  have hsub : h.journals ⊆ h.journals ++ [t.journal root] := List.subset_append_left _ _
  have hjournals : (((h.settle cache (t.committedTo a root)).replace i t.ended m).record
      (t.journal root) m).journals = h.journals ++ [t.journal root] :=
    journals_record _ _ _
  refine ⟨fun b v hb => ?_, fun j hj k hk => ?_, fun u m' hu => ?_⟩
  · rw [hjournals]
    exact hg.stored_batch ht root hb
  · rw [hjournals] at hj ⊢
    obtain hj | hj := List.mem_append.mp hj
    · exact (hg.superseded j hj k hk).mono hsub
    · rw [List.mem_singleton.mp hj] at hk
      exact (ht.superseded k hk).2.mono hsub
  · rw [hjournals]
    exact (hg.replaced (Trie.grounded_ended h.journals t) u m' hu).mono hsub

/-- What one turn preserves. -/
theorem Grounded.after (hg : h.Grounded) (hs : h.Served) (hclear : h.Clear turn.cache)
    (hapart : Apart h.journals) : (h.after turn).Grounded := by
  have hmakes := h.makes_after turn
  generalize h.after turn = h' at hmakes
  cases hmakes with
  | reads hr hh =>
    refine hg.reads hr ?_
    rw [hh]
    exact hg.handles
  | opens ht hr hh =>
    refine hg.reads hr ?_
    rw [hh]
    refine hg.opened ?_
    obtain ⟨tree, -, rfl, -⟩ | ⟨n, j, -, hj, hload⟩ := ht
    · exact Trie.grounded_created _ tree
    · have hmem : j ∈ h.journals := List.mem_map_of_mem (List.mem_of_getElem? hj)
      exact Trie.grounded_load hload fun k => hg.anchored hs fun i hi r hr => hapart j hmem i hi r hr
  | updates hd ht hr hh =>
    refine hg.reads hr ?_
    rw [hh]
    refine hg.replaced ?_
    exact (hg.handles _ _ (List.mem_of_getElem? ht)).update (fun k x => hg.found hs hclear) _ _ _
  | commits hd ht => exact hg.commit (hg.handles _ _ (List.mem_of_getElem? ht)) _
  | prunes =>
    exact ⟨fun b v hb => hg.stored b v (Journal.getElem?_of_deletes hb), hg.superseded, hg.handles⟩

/-- What turns without a cache preserve. -/
theorem Grounded.run {turns : List Turn} (hg : h.Grounded) (hs : h.Throughout Served turns)
    (hcache : ∀ turn, turn ∈ turns → turn.cache = none) (hapart : Apart (h.run turns).journals) :
    (h.run turns).Grounded := by
  refine foldl_induction (l := turns) (Q := fun _ (h : Hub) => h.Grounded) hg ?_ turns
    List.prefix_rfl
  intro pre turn hpre hg
  have hbefore : pre <+: turns := (List.prefix_append pre [turn]).trans hpre
  refine hg.after (hs pre hbefore) ?_ (hapart.of_subset (journals_run_subset hbefore))
  rw [hcache turn (hpre.subset (by simp))]
  rfl

end Hub

end VersionedTrie
