import VersionedTrie.Proofs.Refinement
import VersionedTrie.Proofs.Tree.Stamp

/-! # Inclusion proofs are sound

A proof that is accepted for the root of a handle proves an entry of the handle, whoever has made it
and whatever it consists of; otherwise two different byte strings with one digest are at hand, or
one that digests to the placeholder, among what the nodes of the handle and the nodes of the proof
digest (`Session.Digests`). The proof is followed down the tree of the handle: as long as its
branches say of their slots what the branches of the tree say, it stays on the path of its key, and
the first difference is a collision.
-/

set_option autoImplicit false

namespace VersionedTrie

open VersionedTrie.Tree

theorem Inclusion.follows_eq_true {leaf expected : Digest} {rest : Path} {entries : List ByteArray} :
    follows leaf rest expected entries = true ↔
      (∃ e l, entries = [e] ∧ Node.decode e = .ok (.leaf l) ∧ leaf = expected) ∨
      ∃ e entries' b n rest' c, entries = e :: entries' ∧ Node.decode e = .ok (.branch b) ∧
        b.digest = expected ∧ rest = n :: rest' ∧ b.child? n = some c ∧
        follows leaf rest' c.digest entries' = true := by
  constructor
  · intro h
    cases entries with
    | nil => cases rest <;> cases h
    | cons e entries =>
      rw [follows] at h
      cases hd : Node.decode e with
      | error defect =>
        rw [hd] at h
        cases h
      | ok x =>
        rw [hd] at h
        cases x with
        | leaf l =>
          simp only [Bool.and_eq_true, List.isEmpty_iff, decide_eq_true_eq] at h
          exact .inl ⟨e, l, by rw [h.1], hd, h.2⟩
        | branch b =>
          simp only [Bool.and_eq_true, decide_eq_true_eq] at h
          obtain ⟨hb, h⟩ := h
          cases rest with
          | nil => cases h
          | cons n rest =>
            cases hc : b.child? n with
            | none =>
              simp only [hc] at h
              cases h
            | some c =>
              simp only [hc] at h
              exact .inr ⟨e, entries, b, n, rest, c, rfl, hd, hb, rfl, hc, h⟩
  · rintro (⟨e, l, rfl, hd, rfl⟩ | ⟨e, entries', b, n, rest', c, rfl, hd, rfl, rfl, hc, h⟩)
    · rw [follows, hd]
      simp
    · rw [follows, hd]
      simp [hc, h]

theorem Inclusion.verify_eq_true {root : Digest} {p : Option Inclusion}
    (h : verify root p = .ok true) :
    ∃ q key value, p = some q ∧ q.key = some key ∧ key.size ≠ 0 ∧ q.value = some value ∧
      follows (leafDigest (Path.ofKey key) value) (Path.ofKey key) root q.nodes = true := by
  unfold verify at h
  cases p with
  | none => cases h
  | some q =>
    simp only at h
    cases hk : q.key with
    | none =>
      rw [hk] at h
      cases h
    | some key =>
      simp only [hk] at h
      by_cases hsize : key.size = 0
      · rw [if_pos hsize] at h
        cases h
      · rw [if_neg hsize] at h
        cases hv : q.value with
        | none =>
          rw [hv] at h
          cases h
        | some value =>
          simp only [hv] at h
          exact ⟨q, key, value, rfl, hk, hsize, hv, Except.ok.inj h⟩

/-- A leaf right below a branch is proved by the two of them. -/
theorem Inclusion.verify_below {b : Branch} {n : Nibble} {c : Child} {rest : Path}
    {key value : ByteArray} (hpath : Path.ofKey key = n :: rest) (hc : b.child? n = some c)
    (hd : leafDigest (Path.ofKey key) value = c.digest)
    (hs : (Node.leaf (Leaf.make (Path.ofKey key) value)).Storable) :
    verify b.digest (some ⟨some key, some value, [(Node.branch b).encode,
      (Node.leaf (Leaf.make (Path.ofKey key) value)).encode]⟩) = .ok true := by
  have hsize : key.size ≠ 0 := by
    intro h
    have hlength := Path.length_ofKey key
    rw [hpath, h] at hlength
    cases hlength
  have hb : Node.decode (Node.branch b).encode = .ok (.branch b) :=
    Node.decode_encode (Branch.isEmpty_children_eq_false.mpr ⟨n, c, hc⟩)
  simp only [verify, if_neg hsize]
  refine congrArg Except.ok
    (follows_eq_true.mpr (.inr ⟨_, _, b, n, rest, c, rfl, hb, rfl, hpath, hc, ?_⟩))
  exact follows_eq_true.mpr (.inl ⟨_, _, rfl, Node.decode_encode hs, hd⟩)

namespace Session

/-- What is digested by the nodes of the handle, by the branches of a proof, and by the leaf that
the proof claims. -/
inductive Digests (s : Session) (q : Inclusion) : ByteArray → Prop
  | node {k : NodeKey} {x : Node} (hk : s.Reaches k) (hx : s.fetched k = .ok x) :
    Digests s q x.preimage
  | entry {e : ByteArray} {b : Branch} (he : e ∈ q.nodes) (hb : Node.decode e = .ok (.branch b)) :
    Digests s q b.preimage
  | leaf {key value : ByteArray} (hk : q.key = some key) (hv : q.value = some value) :
    Digests s q (leafPreimage (Path.ofKey key) value)

variable {s : Session} {base T : Tree} {m : Entries}

section Follow

variable {inputs : ByteArray → Prop} {path : Path} {value : ByteArray}

theorem fetched_of_walk {S : Tree} {p rest : Path} {x : Node} {version : Version}
    (hsound : ∀ k x y, Owns s.trie.tree p S k x → s.fetched k = .ok y → y = x)
    (hwalk : ∃ steps d, descend s.fetched (S.key? s.trie.tree p) rest steps = .ok d)
    (hx : S.node? = some x) (hv : S.version? = some version) :
    s.fetched (.ofPath version s.trie.tree p) = .ok x := by
  have hk : S.key? s.trie.tree p = some (.ofPath version s.trie.tree p) := by
    rw [key?, hv]
    rfl
  obtain ⟨steps, d, hd⟩ := hwalk
  rw [hk] at hd
  obtain ⟨y, hy⟩ := exists_find_of_descend hd
  rw [← hsound _ _ _ (owns_self hk hx) hy]
  exact hy

/-- An accepted rest of a proof leads to a leaf with the claimed contents, or to a collision. -/
theorem has_of_follows {S : Tree} {p rest : Path} {entries : List ByteArray}
    (hsound : ∀ k x y, Owns s.trie.tree p S k x → s.fetched k = .ok y → y = x)
    (hroot : ∀ k, S.key? s.trie.tree p = some k → s.Reaches k)
    (hwalk : ∃ steps d, descend s.fetched (S.key? s.trie.tree p) rest steps = .ok d)
    (hnode : ∀ k x, s.Reaches k → s.fetched k = .ok x → inputs x.preimage)
    (hentry : ∀ e b, e ∈ entries → Node.decode e = .ok (.branch b) → inputs b.preimage)
    (hleaf : inputs (leafPreimage path value))
    (hf : Inclusion.follows (leafDigest path value) rest S.digest entries = true) :
    (∃ l, S.Has l ∧ leafPreimage l.key l.value = leafPreimage path value) ∨ Collides inputs := by
  induction S generalizing p rest entries with
  | vacant =>
    obtain ⟨_, _, _, _, hd⟩ | ⟨e, _, b, _, _, _, rfl, hb, hd, _⟩ :=
      Inclusion.follows_eq_true.mp hf
    · exact .inr (.inr ⟨_, hleaf, hd⟩)
    · exact .inr (.inr ⟨_, hentry e b List.mem_cons_self hb, hd⟩)
  | leaf version l =>
    have hl := hnode _ _ (hroot _ rfl) (fetched_of_walk hsound hwalk rfl rfl)
    have hdigest : (Tree.leaf version l).digest = Digest.of (Node.leaf l).preimage :=
      (Node.leaf l).digest_eq_of
    rw [hdigest] at hf
    obtain ⟨_, _, _, _, hd⟩ | ⟨e, _, b, _, _, _, rfl, hb, hd, _⟩ :=
      Inclusion.follows_eq_true.mp hf
    · exact (eq_or_collides hl hleaf hd.symm).imp_left fun h => ⟨l, .leaf, h⟩
    · obtain h | h := eq_or_collides (hentry e b List.mem_cons_self hb) hl hd
      · exact absurd h (preimage_ne_leafPreimage b l.key l.value)
      · exact .inr h
  | branch version below ih =>
    have hfetched := fetched_of_walk hsound hwalk rfl rfl
    have hx := hnode _ _ (hroot _ rfl) hfetched
    rw [digest_branch] at hf
    obtain ⟨_, _, _, _, hd⟩ | ⟨e, entries', b, n, rest', c, rfl, hb, hd, rfl, hc, hf⟩ :=
      Inclusion.follows_eq_true.mp hf
    · obtain h | h := eq_or_collides hx hleaf hd.symm
      · exact absurd h (preimage_ne_leafPreimage _ path value)
      · exact .inr h
    · obtain h | h := eq_or_collides (hentry e b List.mem_cons_self hb) hx hd
      · -- the slots agree, so the proof goes on below the same nibble
        have hslot := congrFun (Branch.preimage_inj.mp h) n
        rw [digestAt_joining, Branch.digestAt, hc] at hslot
        have hchild := key?_child s.trie.tree version below p n
        have hroot' : ∀ k, (below n).key? s.trie.tree (p ++ [n]) = some k → s.Reaches k := by
          intro k hk
          rw [← hchild] at hk
          obtain ⟨c', hc', rfl⟩ := Option.map_eq_some_iff.mp hk
          exact .child (hroot _ rfl) hfetched hc'
        obtain ⟨steps, d, hwalk⟩ := hwalk
        rw [key?, version?, Option.map_some, descend_branch hfetched, hchild] at hwalk
        have hbelow := ih n (fun k x y hk => hsound k x y (.child n hk)) hroot' ⟨_, d, hwalk⟩
          (fun e b he => hentry e b (List.mem_cons_of_mem _ he)) (hslot ▸ hf)
        refine hbelow.imp_left ?_
        rintro ⟨l, hl, hpre⟩
        exact ⟨l, .branch n hl, hpre⟩
      · exact .inr h

end Follow

/-- An accepted proof proves what the handle has under its key, or shows a collision. Where the run
follows the entries that its updates describe, these have the value that the proof claims. -/
theorem verify_sound (tree : TreePrefix) (a : Access) (c : Contents) (actions : List Action)
    (hh : (start tree a c).Throughout Honest actions) {root : Digest}
    (hroot : ((start tree a c).run actions).rootDigest = .ok root) {p : Option Inclusion}
    (hp : Inclusion.verify root p = .ok true) :
    ∃ q key value, p = some q ∧ q.key = some key ∧ q.value = some value ∧
      (((∀ found, ((start tree a c).run actions).get key = .ok found → found = some value) ∧
          (a.store.plan = FaultPlan.none → (start tree a c).Throughout Served actions →
            (start tree a c).AtCommits Clear actions →
            (actions.foldl Entries.after ∅)[key]? = some value)) ∨
        Collides (((start tree a c).run actions).Digests q)) := by
  obtain ⟨base, T, m, h⟩ := stands_run hh _ List.prefix_rfl
  obtain rfl := h.rootDigest_eq hh.last hroot
  have hlive := live_of_rootDigest hroot
  obtain ⟨q, key, value, rfl, hkey, hsize, hvalue, hf⟩ := Inclusion.verify_eq_true hp
  refine ⟨q, key, value, rfl, hkey, hvalue, ?_⟩
  cases hget : ((start tree a c).run actions).get key with
  | error e =>
    refine .inl ⟨nofun, fun hplan hserved hclear => ?_⟩
    rw [reads_run hplan hserved hclear key] at hget
    cases hget
  | ok found =>
    have hfound := h.get_eq hh.last hget
    have hfetched := funext ((start tree a c).run actions).fetched_eq
    have hwalk := exists_descend_of_get hget hsize
    rw [← hfetched, (h.represents hlive).root] at hwalk
    have hsound := h.sound hh.last hlive
    rw [← hfetched] at hsound
    obtain ⟨l, hl, hpre⟩ | hcollides := has_of_follows hsound
      (fun k hk => .root ((h.represents hlive).root.trans hk)) ⟨[], hwalk⟩
      (fun k x => Digests.node (q := q)) (fun e b => Digests.entry) (Digests.leaf hkey hvalue) hf
    · obtain ⟨hlength, hbound⟩ := h.holds.admissible h.bounded l hl
      have hsizes : 2 * maxKeySize + maxValueSize < Bytes.span 8 := by decide
      obtain ⟨hpath, rfl⟩ := leafPreimage_inj (by omega) (by omega) hpre
      rw [h.holds.getElem? hl hpath] at hfound
      subst hfound
      refine .inl ⟨fun found hfound => (Except.ok.inj hfound).symm, fun hplan hserved hclear => ?_⟩
      rw [reads_run hplan hserved hclear key] at hget
      exact Except.ok.inj hget
    · exact .inr hcollides

def forking : List Action :=
  [.update 3 "a".toUTF8 "x".toUTF8, .update 3 "q".toUTF8 "w".toUTF8]

/-- The root of a trie with two leaves. -/
def fork : Branch :=
  (Branch.empty.set (.high 0x61) ⟨leafDigest (Path.ofKey "a".toUTF8) "x".toUTF8, 3, true⟩).set
    (.high 0x71) ⟨leafDigest (Path.ofKey "q".toUTF8) "w".toUTF8, 3, true⟩

/-- The proof of one of its two keys. -/
def forkProof : Inclusion :=
  ⟨some "a".toUTF8, some "x".toUTF8, [(Node.branch fork).encode,
    (Node.leaf (Leaf.make (Path.ofKey "a".toUTF8) "x".toUTF8)).encode]⟩

theorem child?_fork : fork.child? (.high 0x61) =
    some ⟨leafDigest (Path.ofKey "a".toUTF8) "x".toUTF8, 3, true⟩ := by
  rw [fork, Branch.child?_set, if_neg (by decide), Branch.child?_set, if_pos rfl]

theorem verify_sound_forkProof :
    ((start TreePrefix.empty default ∅).Throughout Honest forking ∧
      ((start TreePrefix.empty default ∅).run forking).rootDigest = .ok fork.digest ∧
      Inclusion.verify fork.digest (some forkProof) = .ok true ∧
      ((start TreePrefix.empty default ∅).run forking).get "a".toUTF8 =
        .ok (some "x".toUTF8)) ∧
    ∃ q key value, some forkProof = some q ∧ q.key = some key ∧ q.value = some value ∧
      ((forking.foldl Entries.after ∅)[key]? = some value ∨
        Collides (((start TreePrefix.empty default ∅).run forking).Digests q)) := by
  have hserved : (start TreePrefix.empty default ∅).Throughout Served forking :=
    served_inMemory rfl _
  have hclear : (start TreePrefix.empty default ∅).AtCommits Clear forking := by
    simp [forking, AtCommits, atEach_cons, atEach_nil]
  have hh : (start TreePrefix.empty default ∅).Throughout Honest forking :=
    fun pre hpre => (hserved pre hpre).honest
  have hroot : ((start TreePrefix.empty default ∅).run forking).rootDigest =
      .ok fork.digest := by
    have hdirty : ((start TreePrefix.empty default ∅).run forking).trie.committed = false ∧
        ((start TreePrefix.empty default ∅).run forking).trie.root =
          some (.ofPath 3 TreePrefix.empty []) ∧
        ((start TreePrefix.empty default ∅).run forking).trie.dirty[
          NodeKey.ofPath 3 TreePrefix.empty []]? = some (.branch fork) := by
      decide +kernel
    exact rootDigest_of_dirty hdirty.1 hdirty.2.1 hdirty.2.2
  have hpath : Path.ofKey "a".toUTF8 = [.high 0x61, .low 0x61] := by decide +kernel
  have hverify : Inclusion.verify fork.digest (some forkProof) = .ok true :=
    Inclusion.verify_below hpath child?_fork rfl ⟨by decide +kernel, by decide +kernel⟩
  have hentry : (forking.foldl Entries.after ∅)["a".toUTF8]? = some "x".toUTF8 := by
    decide +kernel
  have hget : ((start TreePrefix.empty default ∅).run forking).get "a".toUTF8 =
      .ok (some "x".toUTF8) := by
    rw [← hentry]
    exact reads_run rfl hserved hclear "a".toUTF8
  obtain ⟨q, key, value, hq, hkey, hvalue, hproved⟩ := verify_sound _ _ _ _ hh hroot hverify
  exact ⟨⟨hh, hroot, hverify, hget⟩, q, key, value, hq, hkey, hvalue,
    hproved.imp_left fun hproved => hproved.2 rfl hserved hclear⟩

end Session

end VersionedTrie
