import VersionedTrie.Proofs.Session
import VersionedTrie.Inclusion

/-! # What a session shows

Everything that is claimed of a session is said in terms of what its handle answers: the value of a
key (`get`), the digest of the root (`rootDigest`), the node under a node key (`fetched`), and the
node keys that are reached from the root through the slots of branches (`Reaches`). The answers are
those that are given apart from planned faults.

A session that stands at a tree answers with nodes of that tree (`Reaches.owns`), and where the tree
is whole it reaches all of them (`owns_iff_reaches`).
-/

set_option autoImplicit false

namespace VersionedTrie

open VersionedTrie.Tree

/-- A prefix under which every node key is longer than a digest. -/
def TreePrefix.long : TreePrefix := ⟨(List.replicate 24 (0 : UInt8)).toByteArray, by decide⟩

namespace Session

def get (s : Session) (key : ByteArray) : Except Error (Option ByteArray) :=
  (s.trie.get key s.access.calm).1

def rootDigest (s : Session) : Except Error Digest := (s.trie.rootDigest s.access.calm).1

def fetched (s : Session) (k : NodeKey) : Except Error Node := (s.trie.fetch k s.access.calm).1

inductive Reaches (s : Session) : NodeKey → Prop
  | root {k : NodeKey} (h : s.trie.root = some k) : Reaches s k
  | child {k : NodeKey} {b : Branch} {n : Nibble} {c : Child} (h : Reaches s k)
    (hb : s.fetched k = .ok (.branch b)) (hc : b.child? n = some c) :
    Reaches s (k.child c.version n)

def Reads (s : Session) (m : Entries) : Prop := ∀ key : ByteArray, s.get key = .ok m[key]?

variable {s : Session} {base T : Tree} {m m' : Entries} {k : NodeKey} {x y : Node}

theorem fetched_eq (s : Session) (k : NodeKey) : s.fetched k = s.trie.find s.access k := by
  rw [fetched, (s.trie.fetch_answers s.access.calm k).eq s.access.not_doubtful_calm]
  rfl

/-! ## Live handles -/

theorem live_of_get {key : ByteArray} {v : Option ByteArray} (h : s.get key = .ok v) :
    s.trie.committed = false :=
  Trie.live_of_get h

theorem live_of_rootDigest {d : Digest} (h : s.rootDigest = .ok d) : s.trie.committed = false :=
  Trie.live_of_rootDigest h

theorem rootDigest_of_dirty (hlive : s.trie.committed = false) (hroot : s.trie.root = some k)
    (hx : s.trie.dirty[k]? = some x) : s.rootDigest = .ok x.digest := by
  unfold rootDigest Trie.rootDigest Trie.fetch
  rw [Trie.ensureLive_eq hlive, pure_bind, hroot]
  simp only [hx]
  rfl

theorem get_eq (hlive : s.trie.committed = false) {key : ByteArray} (hk : key.size ≠ 0) :
    s.get key = (descend (s.trie.find s.access) s.trie.root (Path.ofKey key) [] >>=
      fun d => .ok (d.value? (Path.ofKey key))) :=
  (Trie.get_over hlive hk).eq s.access.not_doubtful_calm

theorem exists_descend_of_get {key : ByteArray} {v : Option ByteArray} (h : s.get key = .ok v)
    (hk : key.size ≠ 0) :
    ∃ d, descend (s.trie.find s.access) s.trie.root (Path.ofKey key) [] = .ok d :=
  (Trie.exists_value?_of_get h hk).imp fun _ => And.left

/-! ## Answers and trees -/

theorem Stands.represents (h : s.Stands base T m) (hlive : s.trie.committed = false) :
    s.trie.Represents base T :=
  (h.live hlive).2

theorem Stands.sound (h : s.Stands base T m) (hh : s.Honest) (hlive : s.trie.committed = false) :
    T.Sound s.trie.tree (s.trie.find s.access) :=
  (h.represents hlive).sound (h.backed hh)

theorem backed_calm {a : Access} {tree : TreePrefix} (h : a.Backed tree base) :
    a.calm.Backed tree base := h

theorem Stands.get_answers (h : s.Stands base T m) (hh : s.Honest)
    (hlive : s.trie.committed = false) (key : ByteArray) :
    Answers Access.Agrees (¬ T.Whole s.trie.tree (s.trie.find s.access) ∨ s.access.calm.Doubtful)
      (s.trie.get key) s.access.calm (.ok m[key]?) :=
  (h.represents hlive).get_answers (backed_calm (h.backed hh)) h.holds h.bounded key

theorem Stands.rootDigest_answers (h : s.Stands base T m) (hh : s.Honest)
    (hlive : s.trie.committed = false) :
    Answers Access.Agrees (¬ T.Whole s.trie.tree (s.trie.find s.access) ∨ s.access.calm.Doubtful)
      s.trie.rootDigest s.access.calm (.ok T.digest) :=
  (h.represents hlive).rootDigest_answers (backed_calm (h.backed hh))

/-- A key reads as what the map has under it, if it can be read at all. -/
theorem Stands.get_eq (h : s.Stands base T m) (hh : s.Honest) {key : ByteArray}
    {v : Option ByteArray} (hv : s.get key = .ok v) : v = m[key]? :=
  (Except.ok.inj ((h.get_answers hh (live_of_get hv) key).eq_of_ok hv)).symm

theorem Stands.rootDigest_eq (h : s.Stands base T m) (hh : s.Honest) {d : Digest}
    (hd : s.rootDigest = .ok d) : d = T.digest :=
  (Except.ok.inj ((h.rootDigest_answers hh (live_of_rootDigest hd)).eq_of_ok hd)).symm

theorem Stands.reads (h : s.Stands base T m) (hh : s.Honest) (hlive : s.trie.committed = false)
    (hw : T.Whole s.trie.tree (s.trie.find s.access)) : s.Reads m := fun key =>
  (h.get_answers hh hlive key).eq fun hf => hf.elim (fun hn => hn hw) s.access.not_doubtful_calm

theorem Stands.rootDigest (h : s.Stands base T m) (hh : s.Honest)
    (hlive : s.trie.committed = false) (hw : T.Whole s.trie.tree (s.trie.find s.access)) :
    s.rootDigest = .ok T.digest :=
  (h.rootDigest_answers hh hlive).eq fun hf => hf.elim (fun hn => hn hw) s.access.not_doubtful_calm

theorem Stands.entries_eq (h : s.Stands base T m) (hh : s.Honest) (hr : s.Reads m') : m' = m :=
  Std.ExtTreeMap.ext_getElem? fun key => h.get_eq hh (hr key)

/-- Everything is found in a tree whose keys can all be read. -/
theorem Stands.whole_of_reads (h : s.Stands base T m) (hh : s.Honest) (hr : s.Reads m') :
    T.Whole s.trie.tree (s.trie.find s.access) := by
  have hlive := live_of_get (hr ByteArray.empty)
  refine whole_of_descend (h.sound hh hlive) h.compact fun l hl => ?_
  obtain ⟨key, value, hm, rfl⟩ := (h.holds l).mp hl
  rw [← (h.represents hlive).root]
  exact exists_descend_of_get (hr key) (Nat.ne_of_gt (h.bounded key value hm).1.1)

theorem Firm.whole (h : s.Firm base) (hs : s.Stands base T m) (hlive : s.trie.committed = false)
    (hserved : s.Served) : T.Whole s.trie.tree (s.trie.find s.access) := by
  refine (hs.represents hlive).whole fun k x hk => ?_
  rw [Access.find]
  cases hy : s.access.peek k with
  | some y => rw [hs.cached k x y hk hy]
  | none => exact hserved.stored (h.live hlive hk)

/-- If a committed tree can be read without a cache, its anchor has not replaced a node. -/
theorem Stands.ne_of_reads (h : s.Stands base T m) (hh : s.Honest)
    (hlive : s.trie.committed = false) {a b : Access} (ha : s.access.Agrees a)
    (hhonest : (s.committedTo a T.digest).Honest)
    (hb : (s.committedTo a T.digest).access.Agrees b) (hcache : s.access.cache = none)
    (hr : ((s.committedTo a T.digest).loadedAs b T).Reads m') (hk : Owns s.trie.tree [] T k x) :
    k.encode ≠ T.digest.bytes := by
  have hstands := (h.committedTo hh hlive ha).loadedAs rfl hb
  have hw := hstands.whole_of_reads ((honest_loadedAs hb).mpr hhonest) hr
  have hstored : (s.committedTo a T.digest).access.stored k = .ok x := by
    rw [← hb.stored, ← Access.find_uncached (hb.uncached ?_), ← hw k x hk]
    · exact (Trie.find_opened _ T b k).symm
    · exact Trie.uncached_committedTo (ha.uncached hcache)
  exact (h.represents hlive).ne_of_keeps hk (hhonest.keeps hstored)

/-! ## Reaching -/

theorem reaches_iff : s.Reaches k ↔ Reached s.fetched s.trie.root k := by
  constructor
  · intro hk
    induction hk with
    | root h => exact .root h
    | child _ hb hc ih => exact .child ih hb hc
  · intro hk
    induction hk with
    | root h => exact .root h
    | child _ hb hc ih => exact .child ih hb hc

theorem fetched_eq_find (s : Session) : s.fetched = s.trie.find s.access := funext s.fetched_eq

theorem Reaches.owns (hk : s.Reaches k) (hr : s.trie.Represents base T)
    (hs : T.Sound s.trie.tree (s.trie.find s.access)) : ∃ x, Owns s.trie.tree [] T k x := by
  rw [reaches_iff, fetched_eq_find, hr.root] at hk
  exact Reached.owns hk hs

/-- Under a long prefix no node key is as short as a digest. -/
theorem Reaches.encode_ne (hk : s.Reaches k) (h : s.Stands base T m) (hh : s.Honest)
    (hlive : s.trie.committed = false) (hlong : 23 < s.trie.tree.bytes.size) (d : Digest) :
    k.encode ≠ d.bytes := by
  intro e
  obtain ⟨x, hx⟩ := hk.owns (h.represents hlive) (h.sound hh hlive)
  have hsize := k.size_encode
  rw [e, d.size_bytes, hx.tree_eq] at hsize
  omega

theorem owns_iff_reaches (hr : s.trie.Represents base T)
    (hw : T.Whole s.trie.tree (s.trie.find s.access)) :
    Owns s.trie.tree [] T k x ↔ s.Reaches k ∧ s.fetched k = .ok x := by
  rw [reaches_iff, fetched_eq_find, hr.root]
  exact owns_iff_reached hw

/-! ## Steady sessions -/

/-- The session has a live handle, and every node of its trie is there. -/
structure Steady (s : Session) (base T : Tree) (m : Entries) : Prop where
  stands : s.Stands base T m
  firm : s.Firm base
  live : s.trie.committed = false
  faultless : s.Faultless

theorem Steady.whole (h : s.Steady base T m) (hserved : s.Served) :
    T.Whole s.trie.tree (s.trie.find s.access) :=
  h.firm.whole h.stands h.live hserved

theorem Faultless.calm_eq (h : s.Faultless) : s.access.calm = s.access := by
  rw [Access.calm, ← h]

theorem Faultless.not_doubtful (h : s.Faultless) : ¬ s.access.Doubtful := by
  rw [Access.Doubtful, h]
  exact fun hn => hn rfl

theorem Faultless.agrees {s' : Session} (h : s.Faultless) (ha : s.access.Agrees s'.access) :
    s'.Faultless :=
  ha.faultless h

theorem Steady.readable (h : s.Steady base T m) (hserved : s.Served) :
    ¬ (¬ T.Whole s.trie.tree (s.trie.find s.access) ∨ s.access.Doubtful) := by
  rintro (hw | hd)
  · exact hw (h.whole hserved)
  · exact h.faultless.not_doubtful hd

theorem Steady.commits (h : s.Steady base T m) (hserved : s.Served) :
    ∃ a, s.access.Agrees a ∧ s.trie.commit s.access =
      (.ok (s.trie.journal T.digest, s.trie.ended), s.trie.committedTo a T.digest) := by
  have hback := h.stands.backed hserved.honest
  obtain ⟨e, a, _, _, hwhy⟩ | hrun := (h.stands.represents h.live).commit hback
  · obtain hw | hd | hn := hwhy
    · exact absurd (.inl hw) (h.readable hserved)
    · exact absurd (.inr hd) (h.readable hserved)
    · rw [h.faultless] at hn
      exact absurd rfl hn
  · exact hrun

/-- After a commit of a steady session only its root remains to be loaded. -/
theorem Steady.perform_commit (h : s.Steady base T m) (hserved : s.Served)
    (hserved' : (s.perform .commit).Served) :
    ∃ a, s.access.Agrees a ∧ s.perform .commit = (s.committedTo a T.digest).reopen ∧
      (s.committedTo a T.digest).Stands T T m ∧ (s.committedTo a T.digest).Faultless ∧
      (s.committedTo a T.digest).Served := by
  obtain ⟨a, ha, hrun⟩ := h.commits hserved
  have hcommit : s.commit = s.committedTo a T.digest := by
    rw [Session.commit, hrun]
    rfl
  have hperform : s.perform .commit = (s.committedTo a T.digest).reopen := by
    rw [perform, hcommit]
  refine ⟨a, ha, hperform, h.stands.committedTo hserved.honest h.live ha,
    Trie.faultless_committedTo (ha.faultless h.faultless), ?_⟩
  rw [hperform] at hserved'
  obtain ⟨hread, hcontents⟩ := (s.committedTo a T.digest).reopen_agrees
  exact (served_congr hread hcontents).mp hserved'

theorem Stands.reopens (h : s.Stands base T m) (hserved : s.Served) (hf : s.Faultless)
    (hc : s.trie.committed = true) (hne : T.digest ≠ Digest.placeholder)
    (hk : T.key? s.trie.tree [] = some k) (hx : T.node? = some x) (hkeeps : s.contents.Keeps k x) :
    ∃ a, s.access.Agrees a ∧ s.reopen = s.loadedAs a T := by
  obtain ⟨_, _, _, hwhy⟩ | ⟨a, ha, hload, _⟩ := h.reopen_cases hserved.honest hc hne hk hx
  · obtain hwhy | hd := hwhy
    · exact absurd ⟨hserved.anchor ((h.closed hc).2.2 k hk), hserved.stored hkeeps⟩ hwhy
    · exact absurd hd hf.not_doubtful
  · exact ⟨a, ha, hload⟩

end Session

end VersionedTrie
