import VersionedTrie.Proofs.Commit
import VersionedTrie.Proofs.Vouching
import Mathlib.Data.List.Pairwise

/-! # What the journals of a store say

The journals of all commits on a store tell which nodes have been written under which node keys. Two
commits that write at the same version may write different nodes under one node key; a log is clean
if none do, if no root digest is the stored form of a node key, and if the nodes do not collide.

A log bears a tree if it has written all its nodes. Two trees with one digest that a clean log bears
hold the same entries (`Bears.entries_eq`). A handle that began with such a tree carries on from the
log (`Carries`); its commit adds a journal, after which the log bears the handle's tree.
-/

set_option autoImplicit false

namespace VersionedTrie

open VersionedTrie.Tree

/-- The journal is that of a commit of the tree. -/
structure Journal.Shows (j : Journal) (tree : TreePrefix) (T : Tree) : Prop where
  root : j.root = T.digest
  rootKey : j.rootKey = T.key? tree []

/-- The anchor of the second journal's root leads to the root node of the first, which is `k`. -/
structure Journal.Anchors (j' j : Journal) (k : NodeKey) (held : Contents) : Prop where
  root : j'.root = j.root
  rootKey : j'.rootKey = some k
  anchor : held[j.root.bytes]? = some k.encode

theorem Trie.anchors_batch {t : Trie} {root : Digest} {rk : NodeKey} {j : Journal}
    (hrk : t.root = some rk) (hj : j.root = root) (held : Contents) :
    (t.journal root).Anchors j rk (((t.journal root).batch false).apply held) := by
  refine ⟨hj.symm, hrk, ?_⟩
  rw [hj]
  exact Trie.getElem?_batch_anchor hrk

namespace Log

/-- Some commit has written the node under the node key. -/
def Wrote (log : List Journal) (k : NodeKey) (x : Node) : Prop :=
  ∃ j, j ∈ log ∧ (k, x.encode) ∈ j.written ∧ x.Storable

/-- What the nodes written digest. -/
def Hashes (log : List Journal) (b : ByteArray) : Prop := ∃ k x, Wrote log k x ∧ b = x.preimage

/-- Whatever is written under one node key is the same. -/
def Unambiguous (log : List Journal) : Prop :=
  ∀ i, i ∈ log → ∀ j, j ∈ log → ∀ r, r ∈ i.written → ∀ r', r' ∈ j.written →
    r.1 = r'.1 → r.2 = r'.2

instance (log : List Journal) : Decidable (Unambiguous log) :=
  inferInstanceAs (Decidable (∀ i, i ∈ log → ∀ j, j ∈ log → ∀ r, r ∈ i.written →
    ∀ r', r' ∈ j.written → r.1 = r'.1 → r.2 = r'.2))

/-- No root digest is the stored form of a node key. -/
def Apart (log : List Journal) : Prop :=
  ∀ i, i ∈ log → ∀ j, j ∈ log → ∀ r, r ∈ j.written → r.1.encode ≠ i.root.bytes

instance (log : List Journal) : Decidable (Apart log) :=
  inferInstanceAs (Decidable (∀ i, i ∈ log → ∀ j, j ∈ log → ∀ r, r ∈ j.written →
    r.1.encode ≠ i.root.bytes))

/-- No two commits write at the same version. -/
def Isolated (log : List Journal) : Prop :=
  log.Pairwise fun i j => ∀ r, r ∈ i.written → ∀ r', r' ∈ j.written → r.1.version ≠ r'.1.version

instance (log : List Journal) : Decidable (Isolated log) :=
  inferInstanceAs (Decidable (log.Pairwise fun i j => ∀ r, r ∈ i.written → ∀ r', r' ∈ j.written →
    r.1.version ≠ r'.1.version))

structure Clean (log : List Journal) : Prop where
  unambiguous : Unambiguous log
  apart : Apart log
  free : ¬ Collides (Hashes log)

/-- All nodes of the tree, which holds the entries, have been written. -/
structure Bears (log : List Journal) (tree : TreePrefix) (T : Tree) (m : Entries) : Prop where
  holds : T.Holds m
  bounded : m.Bounded
  compact : T.Compact []
  wrote : ∀ k x, Owns tree [] T k x → Wrote log k x

variable {log log' : List Journal} {k : NodeKey} {x y : Node} {tree tree' : TreePrefix} {T T' : Tree}
  {m m' : Entries}

theorem Wrote.mono (h : Wrote log k x) (hl : log ⊆ log') : Wrote log' k x := by
  obtain ⟨j, hj, hk⟩ := h
  exact ⟨j, hl hj, hk⟩

theorem Bears.mono (h : Bears log tree T m) (hl : log ⊆ log') : Bears log' tree T m :=
  { h with wrote := fun k x hk => (h.wrote k x hk).mono hl }

theorem Apart.of_subset (h : Apart log') (hl : log ⊆ log') : Apart log :=
  fun i hi j hj => h i (hl hi) j (hl hj)

theorem Hashes.mono (hl : log ⊆ log') (b : ByteArray) (h : Hashes log b) : Hashes log' b := by
  obtain ⟨k, x, hk, rfl⟩ := h
  exact ⟨k, x, hk.mono hl, rfl⟩

theorem Clean.of_subset (h : Clean log') (hl : log ⊆ log') : Clean log :=
  ⟨fun i hi j hj => h.unambiguous i (hl hi) j (hl hj), h.apart.of_subset hl,
    fun hc => h.free (hc.mono (Hashes.mono hl))⟩

theorem Apart.encode_ne (h : Apart log) {j : Journal} (hj : j ∈ log) (hk : Wrote log k x) :
    k.encode ≠ j.root.bytes := by
  obtain ⟨i, hi, hw, _⟩ := hk
  exact h j hj i hi (k, x.encode) hw

theorem not_wrote_nil : ¬ Wrote [] k x := fun ⟨_, hj, _⟩ => nomatch hj

theorem clean_nil : Clean [] where
  unambiguous := nofun
  apart := nofun
  free h := by
    obtain ⟨_, _, ⟨_, _, hk, _⟩, _⟩ | ⟨_, ⟨_, _, hk, _⟩, _⟩ := h <;> exact not_wrote_nil hk

/-- The nodes that have been written. -/
def nodes (log : List Journal) : List Node :=
  (log.flatMap Journal.written).filterMap fun r => (Node.decode r.2).toOption

theorem Wrote.mem_nodes (h : Wrote log k x) : x ∈ nodes log := by
  obtain ⟨j, hj, hk, hs⟩ := h
  refine List.mem_filterMap.mpr ⟨(k, x.encode), List.mem_flatMap.mpr ⟨j, hj, hk⟩, ?_⟩
  rw [Node.decode_encode hs]
  rfl

/-- That the nodes written do not collide, in a form that can be computed. -/
def Distinct (log : List Journal) : Prop :=
  (∀ x, x ∈ nodes log → x.digest ≠ Digest.placeholder) ∧
    (nodes log).Pairwise fun x y => x.preimage = y.preimage ∨ x.digest ≠ y.digest

instance (log : List Journal) : Decidable (Distinct log) :=
  inferInstanceAs (Decidable ((∀ x, x ∈ nodes log → x.digest ≠ Digest.placeholder) ∧
    (nodes log).Pairwise fun x y => x.preimage = y.preimage ∨ x.digest ≠ y.digest))

theorem Distinct.free (h : Distinct log) : ¬ Collides (Hashes log) := by
  have hsymm : Std.Symm fun x y : Node => x.preimage = y.preimage ∨ x.digest ≠ y.digest :=
    ⟨fun _ _ hxy => hxy.imp Eq.symm Ne.symm⟩
  have hpairs := h.2.forall_of_forall fun _ _ => .inl rfl
  rintro (⟨_, _, ⟨_, x, hx, rfl⟩, ⟨_, y, hy, rfl⟩, hne, hd⟩ | ⟨_, ⟨_, x, hx, rfl⟩, hd⟩)
  · rw [← x.digest_eq_of, ← y.digest_eq_of] at hd
    exact (hpairs hx.mem_nodes hy.mem_nodes).elim hne fun hn => hn hd
  · rw [← x.digest_eq_of] at hd
    exact h.1 x hx.mem_nodes hd

theorem Clean.wrote_unique (h : Clean log) (hx : Wrote log k x) (hy : Wrote log k y) : x = y := by
  obtain ⟨i, hi, hki, hsx⟩ := hx
  obtain ⟨j, hj, hkj, hsy⟩ := hy
  have hdecode := Node.decode_encode hsx
  rw [show x.encode = y.encode from h.unambiguous i hi j hj (k, _) hki (k, _) hkj rfl,
    Node.decode_encode hsy] at hdecode
  exact (Except.ok.inj hdecode).symm

/-- What is found under a node key if nothing has been deleted. -/
def find (log : List Journal) (k : NodeKey) : Except Error Node :=
  Access.deciphered (.nodeMissing k) Node.decode
    (((log.flatMap Journal.written).find? fun r => r.1 = k).map Prod.snd)

theorem Clean.find_eq (h : Clean log) (hk : Wrote log k x) : find log k = .ok x := by
  obtain ⟨j, hj, hw, hs⟩ := hk
  rw [find]
  cases hf : (log.flatMap Journal.written).find? fun r => r.1 = k with
  | none =>
    have hnone := List.find?_eq_none.mp hf (k, x.encode) (List.mem_flatMap.mpr ⟨j, hj, hw⟩)
    exact absurd (decide_eq_true rfl) hnone
  | some r =>
    obtain ⟨i, hi, hr⟩ := List.mem_flatMap.mp (List.mem_of_find?_eq_some hf)
    have hkey : r.1 = k := by simpa using List.find?_some hf
    have hbytes : r.2 = x.encode := h.unambiguous i hi j hj r hr (k, x.encode) hw hkey
    rw [Option.map_some, hbytes, Access.deciphered, Node.decode_encode hs]

/-- A tree that counts as the one without entries is that one. -/
theorem Bears.eq_vacant (h : Bears log tree T m) (hc : Clean log)
    (hd : T.digest = Digest.placeholder) : T = .vacant := by
  cases hx : T.node? with
  | none => exact node?_eq_none.mp hx
  | some x =>
    obtain ⟨k, hk⟩ := key?_of_node? hx tree []
    refine absurd (.inr ⟨x.preimage, ⟨k, x, h.wrote k x (owns_self hk hx), rfl⟩, ?_⟩) hc.free
    rw [← x.digest_eq_of, ← digest_eq hx, hd]

/-- Trees with one digest hold the same entries, since their walks along every key are vouched for
by that digest. -/
theorem Bears.entries_eq (h : Bears log tree T m) (h' : Bears log tree' T' m') (hc : Clean log)
    (hd : T.digest = T'.digest) : m = m' := by
  have hwhole : T.Whole tree (find log) := fun k x hk => hc.find_eq (h.wrote k x hk)
  have hwhole' : T'.Whole tree' (find log) := fun k x hk => hc.find_eq (h'.wrote k x hk)
  refine Std.ExtTreeMap.ext_getElem? fun key => ?_
  obtain ⟨w, hw, hv⟩ := hwhole.exists_value? h.compact h.holds key
  obtain ⟨w', hw', hv'⟩ := hwhole'.exists_value? h'.compact h'.holds key
  have hvouches : Vouches (find log) (Hashes log) T.digest (T.key? tree []) (Path.ofKey key) := by
    refine vouches_of_tree hwhole.sound fun x hx => ?_
    obtain ⟨k, hk⟩ := hx.owned hwhole.sound
    exact ⟨k, x, h.wrote k x hk, rfl⟩
  have hvouches' : Vouches (find log) (Hashes log) T.digest (T'.key? tree' []) (Path.ofKey key) := by
    rw [hd]
    refine vouches_of_tree hwhole'.sound fun x hx => ?_
    obtain ⟨k, hk⟩ := hx.owned hwhole'.sound
    exact ⟨k, x, h'.wrote k x hk, rfl⟩
  rw [← hv, ← hv']
  refine (value?_eq_or_collides hw hw' hvouches hvouches' ?_).resolve_right hc.free
  intro l _ hl _ _
  obtain ⟨k, hk⟩ := (met_leaf hw hl).owned hwhole.sound
  obtain ⟨_, _, _, hs⟩ := h.wrote k _ hk
  exact .inl hs

/-! ## Handles -/

/-- The handle stands for the tree, which holds the entries, over a tree that has been written. -/
structure Carries (log : List Journal) (t : Trie) (base T : Tree) (m : Entries) : Prop where
  represents : t.Represents base T
  holds : T.Holds m
  bounded : m.Bounded
  wrote : ∀ k x, Owns t.tree [] base k x → Wrote log k x

variable {t : Trie} {base : Tree} {j : Journal} {root : Digest}

theorem Bears.carries (hb : Bears log tree T m) :
    Carries log (Trie.opened tree T) T T m :=
  ⟨Trie.represents_opened tree hb.compact, hb.holds, hb.bounded, hb.wrote⟩

theorem carries_empty (log : List Journal) (tree : TreePrefix) :
    Carries log { Trie.empty with tree } .vacant .vacant ∅ :=
  ⟨Trie.represents_opened tree .vacant, holds_vacant, Entries.bounded_empty,
    fun _ _ hk => absurd hk not_owns_vacant⟩

theorem Carries.mono (hc : Carries log t base T m)
    (hl : log ⊆ log') : Carries log' t base T m :=
  { hc with wrote := fun k x hk => (hc.wrote k x hk).mono hl }

section Reading

variable {a : Access} (hc : Carries log t base T m) (ha : a.Backed t.tree base)
include hc ha

theorem Carries.digest_eq (hroot : (t.rootDigest a).1 = .ok root) : T.digest = root :=
  Except.ok.inj ((hc.represents.rootDigest_answers ha).eq_of_ok hroot)

theorem Carries.update (version : Version) (key value : ByteArray) :
    ∃ T', Carries log (t.update version key value a).1.2 base T'
      (m.reported key value (t.update version key value a).1.1) := by
  obtain ⟨T', hbecomes, hholds, hbounded⟩ :=
    hc.represents.update_reported ha hc.holds hc.bounded version key value
  refine ⟨T', hbecomes.represents, hholds, hbounded, ?_⟩
  rw [hbecomes.tree]
  exact hc.wrote

end Reading

/-- Every handle that is not committed carries on from the log. -/
def Live (log : List Journal) (handles : List (Trie × Entries)) : Prop :=
  ∀ t m, (t, m) ∈ handles → t.committed = false → ∃ base T, Carries log t base T m

section Live

variable {handles : List (Trie × Entries)}

theorem Live.mono (h : Live log handles) (hl : log ⊆ log') : Live log' handles := by
  intro t m ht hlive
  obtain ⟨base, T, hc⟩ := h t m ht hlive
  exact ⟨base, T, hc.mono hl⟩

theorem Live.concat (h : Live log handles) (ht : ∃ base T, Carries log t base T m) :
    Live log (handles ++ [(t, m)]) := by
  intro u m' hu hlive
  obtain hu | hu := List.mem_append.mp hu
  · exact h u m' hu hlive
  · obtain ⟨rfl, rfl⟩ := Prod.mk.inj (List.mem_singleton.mp hu)
    exact ht

theorem Live.set (h : Live log handles) (i : Nat)
    (ht : t.committed = false → ∃ base T, Carries log t base T m) :
    Live log (handles.set i (t, m)) := by
  intro u m' hu hlive
  obtain hu | hu := List.mem_or_eq_of_mem_set hu
  · exact h u m' hu hlive
  · obtain ⟨rfl, rfl⟩ := Prod.mk.inj hu
    exact ht hlive

/-- An update of a handle that is not misled, or of one that has been committed. -/
theorem Live.update (h : Live log handles) {i : Nat} (ht : handles[i]? = some (t, m)) {a : Access}
    (hbacked : ∀ base T, Carries log t base T m → a.Backed t.tree base) (version : Version)
    (key value : ByteArray) :
    Live log (handles.set i ((t.update version key value a).1.2,
      m.reported key value (t.update version key value a).1.1)) := by
  refine h.set i fun hlive => ?_
  cases hclosed : t.committed with
  | true =>
    rw [Trie.update_closed hclosed, hclosed] at hlive
    cases hlive
  | false =>
    obtain ⟨base, T, hc⟩ := h t m (List.mem_of_getElem? ht) hclosed
    exact ⟨base, hc.update (hbacked base T hc) version key value⟩

end Live

/-! ## Committing -/

theorem Carries.storable (hc : Carries log t base T m) (hd : t.dirty[k]? = some x) :
    x.Storable :=
  storable_of_owns hc.represents.compact (hc.holds.admissible hc.bounded)
    (hc.represents.dirty k x hd)

theorem Carries.wrote_dirty (hc : Carries log t base T m) (hd : t.dirty[k]? = some x) :
    Wrote (log ++ [t.journal root]) k x :=
  ⟨t.journal root, List.mem_append_right _ List.mem_cons_self, Trie.mem_written.mpr ⟨x, hd, rfl⟩,
    hc.storable hd⟩

/-- What has been written after a commit is dirty before, or was written already. -/
theorem Carries.wrote_cases (hc : Carries log t base T m) (hclean : Clean (log ++ [t.journal root]))
    (hk : Wrote (log ++ [t.journal root]) k x) :
    t.dirty[k]? = some x ∨ t.dirty[k]? = none ∧ Wrote log k x := by
  cases hd : t.dirty[k]? with
  | some y => exact .inl (congrArg some (hclean.wrote_unique (hc.wrote_dirty hd) hk))
  | none =>
    obtain ⟨i, hi, hw, hs⟩ := hk
    obtain hi | hi := List.mem_append.mp hi
    · exact .inr ⟨rfl, i, hi, hw, hs⟩
    · rw [List.mem_singleton.mp hi, Trie.mem_written, hd] at hw
      obtain ⟨_, hw, _⟩ := hw
      cases hw

theorem Carries.bears (hc : Carries log t base T m) :
    Bears (log ++ [t.journal root]) t.tree T m := by
  refine ⟨hc.holds, hc.bounded, hc.represents.compact, fun k x hk => ?_⟩
  cases hd : t.dirty[k]? with
  | some y =>
    rw [hk.unique (hc.represents.dirty k y hd)]
    exact hc.wrote_dirty hd
  | none =>
    exact (hc.wrote k x (hc.represents.kept k x hk hd).1).mono (List.subset_append_left _ _)

section Held

variable {held : Contents} (hc : Carries log t base T m)
  (hclean : Clean (log ++ [t.journal root]))
include hc hclean

/-- What the store has under a node key after a commit: the node that is written, or what it had. -/
theorem Carries.batch_cases (held : Contents) (hk : Wrote (log ++ [t.journal root]) k x) :
    (((t.journal root).batch false).apply held).Keeps k x ∨
      Wrote log k x ∧
        (((t.journal root).batch false).apply held)[k.encode]? = held[k.encode]? := by
  have hapart : k.encode ≠ root.bytes :=
    hclean.apart.encode_ne (List.mem_append_right _ List.mem_cons_self) hk
  rw [Contents.Keeps, Trie.getElem?_batch_ne fun _ => hapart]
  obtain hd | ⟨hd, hk⟩ := hc.wrote_cases hclean hk
  · exact .inl ⟨Trie.getElem?_nodePuts_dirty hd, hc.storable hd⟩
  · exact .inr ⟨hk, Trie.getElem?_nodePuts_clean hd⟩

theorem Carries.keeps (hkept : Wrote log k x → held.Keeps k x)
    (hk : Wrote (log ++ [t.journal root]) k x) :
    (((t.journal root).batch false).apply held).Keeps k x := by
  obtain hnew | ⟨hold, hsame⟩ := hc.batch_cases hclean held hk
  · exact hnew
  · exact ⟨hsame.trans (hkept hold).1, (hkept hold).2⟩

theorem Carries.backs (hbacks : Wrote log k x → held.Backs k x)
    (hk : Wrote (log ++ [t.journal root]) k x) :
    (((t.journal root).batch false).apply held).Backs k x := by
  obtain hnew | ⟨hold, hsame⟩ := hc.batch_cases hclean held hk
  · exact hnew.backs
  · intro b y hb
    exact hbacks hold b y (hsame.symm.trans hb)

end Held

theorem Carries.meets (hc : Carries log t base T m) {c : NodeCache} (h : c.Meets k (Wrote log k)) :
    (c.renew t.dirty.toList t.superseded.toList).Meets k (Wrote (log ++ [t.journal root]) k) :=
  NodeCache.meets_renew (fun _ hd => hc.wrote_dirty hd)
    fun _ _ y hy => (h y hy).mono (List.subset_append_left _ _)

/-- What is stored under the bytes of a root stays, unless it is the anchor that is written now. -/
theorem Clean.getElem?_anchor {held : Contents} (hclean : Clean (log ++ [t.journal root]))
    (hj : j ∈ log) (hroot : t.root ≠ none → j.root ≠ root) :
    (((t.journal root).batch false).apply held)[j.root.bytes]? = held[j.root.bytes]? := by
  rw [Trie.getElem?_batch_ne fun hne e => hroot hne (Digest.ext e)]
  refine Trie.getElem?_nodePuts_ne fun k x hd => ?_
  have hw : (k, x.encode) ∈ (t.journal root).written := Trie.mem_written.mpr ⟨x, hd, rfl⟩
  exact hclean.apart j (List.mem_append_left _ hj) (t.journal root)
    (List.mem_append_right _ List.mem_cons_self) (k, x.encode) hw

/-- The anchor of a root leads to the commit that writes it now, or stays. -/
theorem Clean.anchors (hclean : Clean (log ++ [t.journal root])) (held : Contents) (hj : j ∈ log) :
    (∃ rk, (t.journal root).Anchors j rk (((t.journal root).batch false).apply held)) ∨
      (((t.journal root).batch false).apply held)[j.root.bytes]? = held[j.root.bytes]? := by
  by_cases hroot : t.root ≠ none ∧ j.root = root
  · obtain ⟨rk, hrk⟩ := Option.ne_none_iff_exists'.mp hroot.1
    exact .inl ⟨rk, Trie.anchors_batch hrk hroot.2 held⟩
  · exact .inr (hclean.getElem?_anchor hj fun hne e => hroot ⟨hne, e⟩)

end Log

end VersionedTrie
