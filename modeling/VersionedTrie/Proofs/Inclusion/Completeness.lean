import VersionedTrie.Proofs.Canonical
import VersionedTrie.Proofs.Inclusion

/-! # Inclusion proofs are complete

A live handle proves what it has. Getting a key, proving it and checking the proof are three walks
that are written apart; they agree because each meets the nodes of one list, which the tree of the
handle determines (`Tree.trail`): the nodes at the beginnings of the path, the root first. A key
that is there has a proof that ends with its leaf and is accepted for the root digest of the handle;
a key that is not there is given the nodes on its way and nothing that could be checked.

As for everything that is read (`canonical_run`), the nodes must be there: no commit may put its
anchor in the place of a node below its root, and without a node cache that is necessary too.
-/

set_option autoImplicit false

namespace VersionedTrie

open VersionedTrie.Tree

/-! ## The trail of a path in a tree -/

namespace Tree

/-- The nodes that a walk along a path meets, the topmost first. -/
def trail (tree : TreePrefix) (p : Path) (T : Tree) (rest : Path) : List (NodeKey × Node) :=
  match T with
  | vacant => []
  | leaf version l => [(.ofPath version tree p, .leaf l)]
  | branch version below =>
    (.ofPath version tree p, .branch (joining below)) ::
      match rest with
      | [] => []
      | n :: rest => trail tree (p ++ [n]) (below n) rest
termination_by structural T

variable {tree : TreePrefix} {T : Tree} {p rest : Path} {k : NodeKey} {x : Node}

theorem mem_trail : (k, x) ∈ T.trail tree p rest ↔ Owns tree p T k x ∧ k.path <+: p ++ rest := by
  induction T generalizing p rest with
  | vacant => exact ⟨nofun, fun h => absurd h.1 not_owns_vacant⟩
  | leaf version l =>
    rw [trail, List.mem_singleton, Prod.mk.injEq, owns_leaf]
    refine ⟨fun h => ⟨h, ?_⟩, And.left⟩
    rw [h.1, NodeKey.path_ofPath]
    exact List.prefix_append p rest
  | branch version below ih =>
    have hhead : Owns tree p (branch version below) k x ∧ k.path <+: p ++ rest ↔
        (k = .ofPath version tree p ∧ x = .branch (joining below)) ∨
          ∃ n rest', rest = n :: rest' ∧ Owns tree (p ++ [n]) (below n) k x ∧
            k.path <+: p ++ [n] ++ rest' := by
      rw [owns_branch]
      constructor
      · rintro ⟨h | ⟨n, hk⟩, hpath⟩
        · exact .inl h
        · obtain ⟨rest', hrest⟩ := hk.prefix_path.trans hpath
          rw [List.append_assoc, List.append_cancel_left_eq] at hrest
          refine .inr ⟨n, rest', hrest.symm, hk, ?_⟩
          rwa [List.append_assoc, hrest]
      · rintro (⟨rfl, rfl⟩ | ⟨n, rest', rfl, hk, hpath⟩)
        · refine ⟨.inl ⟨rfl, rfl⟩, ?_⟩
          rw [NodeKey.path_ofPath]
          exact List.prefix_append p rest
        · exact ⟨.inr ⟨n, hk⟩, by rwa [List.append_assoc] at hpath⟩
    rw [hhead]
    cases rest with
    | nil => simp [trail]
    | cons n rest => simp [trail, ih]

theorem sorted_trail (tree : TreePrefix) (p : Path) (T : Tree) (rest : Path) :
    (T.trail tree p rest).Pairwise fun a b => a.1.path.length < b.1.path.length := by
  induction T generalizing p rest with
  | vacant => exact .nil
  | leaf version l => exact List.pairwise_singleton _ _
  | branch version below ih =>
    cases rest with
    | nil => exact List.pairwise_singleton _ _
    | cons n rest =>
      refine List.pairwise_cons.mpr ⟨fun b hb => ?_, ih n (p ++ [n]) rest⟩
      have hlength := (mem_trail.mp hb).1.prefix_path.length_le
      rw [List.length_append, List.length_singleton] at hlength
      rw [NodeKey.path_ofPath]
      exact hlength

/-- The empty path stops at the root. -/
theorem trail_nil (hk : T.key? tree p = some k) (hx : Owns tree p T k x) :
    T.trail tree p [] = [(k, x)] := by
  cases T with
  | vacant => cases hk
  | leaf version l =>
    obtain ⟨rfl, rfl⟩ := owns_leaf.mp hx
    rfl
  | branch version below =>
    cases hk
    rw [hx.unique .branch]
    rfl

/-- A walk through a tree in which everything is found meets the nodes of the trail. -/
theorem nodes_of_descend {find : NodeKey → Except Error Node} {steps : List Step} {d : Descent}
    (hw : ∀ k x, Owns tree p T k x → find k = .ok x)
    (hd : descend find (T.key? tree p) rest steps = .ok d) :
    d.nodes = (steps.reverse.map fun step => .branch step.branch) ++
      (T.trail tree p rest).map Prod.snd := by
  induction T generalizing p rest steps with
  | vacant =>
    rw [show key? tree p vacant = none from rfl, descend_none] at hd
    cases hd
    rw [trail, List.map_nil, List.append_nil]
    rfl
  | leaf version l =>
    rw [key?, version?, Option.map_some, descend_leaf (hw _ _ .leaf)] at hd
    cases hd
    rfl
  | branch version below ih =>
    rw [key?, version?, Option.map_some] at hd
    cases rest with
    | nil =>
      rw [descend_exhausted (hw _ _ .branch)] at hd
      cases hd
      rfl
    | cons n rest =>
      rw [descend_branch (hw _ _ .branch), key?_child] at hd
      rw [ih n (fun k x hk => hw k x (.child n hk)) hd, trail, List.reverse_cons, List.map_append,
        List.append_assoc]
      rfl

/-- The trail of the key of a leaf is accepted under the digest of the tree. -/
theorem follows_trail {l : Leaf} (hT : T.Compact p) (hl : T.Has l) (hkey : l.key = p ++ rest)
    (hs : ∀ k x, Owns tree p T k x → x.Storable) :
    Inclusion.follows (leafDigest l.key l.value) rest T.digest
      ((T.trail tree p rest).map fun node => node.2.encode) = true := by
  induction T generalizing p rest with
  | vacant => exact absurd hl not_has_vacant
  | leaf version m =>
    obtain rfl := has_leaf.mp hl
    have hdecode := Node.decode_encode (hs _ _ .leaf)
    exact Inclusion.follows_eq_true.mpr (.inl ⟨_, l, rfl, hdecode, l.digest_eq.symm⟩)
  | branch version below ih =>
    cases rest with
    | nil =>
      rw [List.append_nil] at hkey
      exact absurd hkey (hT.key_ne hl)
    | cons n rest =>
      obtain ⟨m, hm⟩ := has_branch.mp hl
      have hn : p ++ [n] <+: l.key := ⟨rest, by rw [hkey, List.append_assoc]; rfl⟩
      obtain rfl := Path.nibble_eq ((hT.child m).prefix_of_has hm) hn
      have hbelow := ih m (hT.child m) hm (by rw [hkey, List.append_assoc]; rfl)
        fun k x hk => hs k x (.child m hk)
      cases hslot : (below m).slot with
      | none =>
        rw [slot_eq_none.mp hslot] at hm
        exact absurd hm not_has_vacant
      | some c =>
        rw [digest, hslot] at hbelow
        have hdecode := Node.decode_encode (hs _ _ .branch)
        exact Inclusion.follows_eq_true.mpr (.inr ⟨_, _, joining below, m, rest, c, rfl, hdecode,
          (digest_branch version below).symm, rfl, (child?_joining below m).trans hslot, hbelow⟩)

end Tree

/-! ## Proving is a walk -/

namespace Descent

/-- What a walk along a key finds; nothing is found under the empty key. -/
def found (d : Descent) (key : ByteArray) : Option ByteArray :=
  if key.size = 0 then none else d.value? (Path.ofKey key)

/-- The proof that a walk along a key gives. -/
def proof (d : Descent) (key : ByteArray) : Inclusion :=
  ⟨(d.found key).map fun _ => key, d.found key, d.nodes.map Node.encode⟩

/-- A walk that comes to a value ends with the only leaf that it has met. -/
theorem nodes_of_value? {d : Descent} {path : Path} {value : ByteArray}
    (h : d.value? path = some value) :
    ∃ branches : List Branch,
      d.nodes = branches.map Node.branch ++ [.leaf (Leaf.make path value)] := by
  obtain ⟨steps, landing⟩ := d
  cases landing with
  | vacant => cases h
  | exhausted k b => cases h
  | leaf k l =>
    simp only [value?] at h
    split at h
    · next hkey =>
      obtain rfl := hkey
      cases h
      refine ⟨steps.reverse.map Step.branch, ?_⟩
      rw [Leaf.make_eq, List.map_map]
      rfl
    · cases h

end Descent

theorem Trie.prove_over {t : Trie} {a : Access} (hlive : t.committed = false) (key : ByteArray) :
    Answers Access.Agrees a.Doubtful (t.prove key) a
      (descend (t.find a) t.root (Path.ofKey key) [] >>= fun d => .ok (d.proof key)) := by
  unfold prove
  rw [ensureLive_eq hlive, pure_bind]
  refine (descend_answers (fun b k hb => ?_) _ _ _).bind fun d b _ => ?_
  · rw [← t.find_agrees hb]
    exact (t.fetch_answers b k).mono hb.reads
  · obtain ⟨steps, landing⟩ := d
    cases landing with
    | vacant => simpa [Descent.proof, Descent.found, Descent.value?] using answers_pure
    | exhausted k b => simpa [Descent.proof, Descent.found, Descent.value?] using answers_pure
    | leaf k l =>
      by_cases hsize : key.size = 0 <;> by_cases hkey : l.key = Path.ofKey key <;>
        simpa [Descent.proof, Descent.found, Descent.value?, hsize, hkey] using answers_pure

/-- The empty key has no entry, so that a walk finds under every key what the tree holds. -/
theorem Descent.found_eq {d : Descent} {m : Entries} {key : ByteArray} (hb : m.Bounded)
    (hvalue : d.value? (Path.ofKey key) = m[key]?) : d.found key = m[key]? := by
  unfold found
  split
  · next hsize =>
    cases hv : m[key]? with
    | none => rfl
    | some v => exact absurd hsize (Nat.ne_of_gt (hb key v hv).1.1)
  · exact hvalue

/-- The proof of a key that a tree holds is accepted under the digest of the tree. -/
theorem Tree.verify_trail (tree : TreePrefix) {T : Tree} {m : Entries} (hT : T.Compact [])
    (hm : T.Holds m) (hb : m.Bounded) {key value : ByteArray} (hv : m[key]? = some value) :
    Inclusion.verify T.digest (some ⟨some key, some value,
      (T.trail tree [] (Path.ofKey key)).map fun node => node.2.encode⟩) = .ok true := by
  have hsize : key.size ≠ 0 := Nat.ne_of_gt (hb key value hv).1.1
  have hs : ∀ k x, Owns tree [] T k x → x.Storable :=
    fun k x hk => storable_of_owns hT (hm.admissible hb) hk
  have hfollows := follows_trail hT (hm.has hv) rfl hs
  unfold Inclusion.verify
  simp only [if_neg hsize]
  exact congrArg Except.ok hfollows

/-! ## Live handles -/

namespace Session

def prove (s : Session) (key : ByteArray) : Except Error Inclusion :=
  (s.trie.prove key s.access.calm).1

/-- The nodes of the handle at the paths that are beginnings of a path, the root first. -/
structure Trail (s : Session) (path : Path) (nodes : List (NodeKey × Node)) : Prop where
  mem : ∀ k x, (k, x) ∈ nodes ↔ ∃ q, q <+: path ∧ s.NodeAt q k x
  sorted : nodes.Pairwise fun a b => a.1.path.length < b.1.path.length

/-- What the proof of a key is, beside the digest of the root and what is found under the key. -/
structure Proves (s : Session) (key : ByteArray) (root : Digest) (found : Option ByteArray)
    (p : Inclusion) : Prop where
  trail : ∃ nodes, s.Trail (Path.ofKey key) nodes ∧ p.nodes = nodes.map fun node => node.2.encode
  vacant : s.trie.root = none → p.nodes = []
  top : key.size = 0 → ∀ k, s.trie.root = some k → ∃ x, s.fetched k = .ok x ∧ p.nodes = [x.encode]
  present : ∀ value, found = some value →
    p.isConclusive = true ∧ p.key = some key ∧ p.value = some value ∧
      Inclusion.verify root (some p) = .ok true ∧
      ∃ branches : List Branch, p.nodes = branches.map (fun b => (Node.branch b).encode) ++
        [(Node.leaf (Leaf.make (Path.ofKey key) value)).encode]
  absent : found = none → p.key = none ∧ p.value = none ∧
    Inclusion.verify root (some p) = .error (.badProof .noKey)

/-- Every key is answered for, by what is found under it and by its proof. -/
def Complete (s : Session) : Prop :=
  ∃ root, s.rootDigest = .ok root ∧ ∀ key, ∃ found p, s.get key = .ok found ∧
    s.prove key = .ok p ∧ s.Proves key root found p

variable {s : Session} {base T : Tree} {m : Entries}

theorem Stands.trail (h : s.Stands base T m) (hlive : s.trie.committed = false)
    (hw : T.Whole s.trie.tree (s.trie.find s.access)) (path : Path) :
    s.Trail path (T.trail s.trie.tree [] path) where
  mem k x := by
    rw [mem_trail, owns_iff_reaches (h.represents hlive) hw, List.nil_append]
    constructor
    · rintro ⟨⟨hk, hx⟩, hpath⟩
      exact ⟨_, hpath, hk, rfl, hx⟩
    · rintro ⟨q, hpath, hk, rfl, hx⟩
      exact ⟨⟨hk, hx⟩, hpath⟩
  sorted := sorted_trail _ _ _ _

/-- A handle with all its nodes proves every key that it has, and only those. -/
theorem Stands.complete (h : s.Stands base T m) (hh : s.Honest) (hlive : s.trie.committed = false)
    (hw : T.Whole s.trie.tree (s.trie.find s.access)) : s.Complete := by
  refine ⟨T.digest, h.rootDigest hh hlive hw, fun key => ?_⟩
  have hrep := h.represents hlive
  obtain ⟨d, hd, hvalue⟩ := hw.exists_value? h.compact h.holds key
  have hfound : d.found key = m[key]? := Descent.found_eq h.bounded hvalue
  have hentries : d.nodes.map Node.encode =
      (T.trail s.trie.tree [] (Path.ofKey key)).map fun node => node.2.encode := by
    rw [nodes_of_descend hw hd, List.reverse_nil, List.map_nil, List.nil_append, List.map_map]
    rfl
  have hprove : s.prove key = .ok ⟨m[key]?.map fun _ => key, m[key]?,
      (T.trail s.trie.tree [] (Path.ofKey key)).map fun node => node.2.encode⟩ := by
    have hover := (Trie.prove_over hlive key).eq s.access.not_doubtful_calm
    rw [hrep.root, show s.trie.find s.access.calm = s.trie.find s.access from rfl, hd] at hover
    rw [← hfound, ← hentries]
    exact hover
  refine ⟨m[key]?, _, h.reads hh hlive hw key, hprove, ⟨_, h.trail hlive hw _, rfl⟩, ?_, ?_, ?_, ?_⟩
  case refine_1 =>
    intro hroot
    rw [hrep.root] at hroot
    rw [version?_eq_none.mp (Option.map_eq_none_iff.mp hroot)]
    rfl
  case refine_2 =>
    intro hsize k hroot
    rw [hrep.root] at hroot
    obtain ⟨x, hx, _⟩ := exists_owns_root hroot
    have hpath : Path.ofKey key = [] :=
      List.length_eq_zero_iff.mp (by rw [Path.length_ofKey, hsize])
    rw [hpath, trail_nil hroot hx]
    exact ⟨x, (s.fetched_eq k).trans (hw k x hx), rfl⟩
  case refine_3 =>
    intro value hv
    obtain ⟨branches, hbranches⟩ := Descent.nodes_of_value? (hvalue.trans hv)
    rw [hv]
    refine ⟨rfl, rfl, rfl, verify_trail _ h.compact h.holds h.bounded hv, branches, ?_⟩
    rw [← hentries, hbranches, List.map_append, List.map_map]
    rfl
  case refine_4 =>
    intro hv
    rw [hv]
    exact ⟨rfl, rfl, rfl⟩

/-- Wherever its handle is live, a session on a store that does not lie gets and proves every key
alike, as long as every commit spares the nodes below its root. -/
theorem prove_run (tree : TreePrefix) (a : Access) (c : Contents) (actions : List Action)
    (hserved : (start tree a c).Throughout Served actions) :
    ((start tree a c).AtCommits Sparing actions →
      (start tree a c).Throughout (fun s => s.trie.committed = false → s.Complete) actions) ∧
    (a.store.plan = FaultPlan.none → a.cache = none →
      (start tree a c).Throughout (fun s => s.trie.committed = false → s.Complete) actions →
      (start tree a c).AtCommits Sparing actions) := by
  constructor
  · intro hsparing pre hpre hlive
    obtain ⟨base, T, m, h, hf⟩ := firm_run hserved hsparing pre hpre
    have hserved' := hserved pre hpre
    exact h.complete hserved'.honest hlive (hf.whole h hlive hserved')
  · intro hplan hcache hcomplete
    refine sparing_of_reads hserved hplan hcache fun pre hpre hlive => ?_
    have hhonest : (start tree a c).Throughout Honest actions :=
      fun p hp => (hserved p hp).honest
    obtain ⟨base, T, m, h⟩ := stands_run hhonest pre hpre
    obtain ⟨_, _, hkeys⟩ := hcomplete pre hpre hlive
    refine ⟨m, fun key => ?_⟩
    obtain ⟨found, _, hget, _⟩ := hkeys key
    rw [hget, h.get_eq (hhonest pre hpre) hget]

/-- Under a long prefix, two keys are committed and one of them is removed from the loaded root. -/
theorem prove_run_reloaded :
    (start TreePrefix.long default ∅).Throughout Served
        [.update 7 "a".toUTF8 "1".toUTF8, .update 7 "b".toUTF8 "2".toUTF8, .commit,
          .update 7 "a".toUTF8 ByteArray.empty] ∧
      (start TreePrefix.long default ∅).Throughout
        (fun s => s.trie.committed = false → s.Complete)
        [.update 7 "a".toUTF8 "1".toUTF8, .update 7 "b".toUTF8 "2".toUTF8, .commit,
          .update 7 "a".toUTF8 ByteArray.empty] := by
  refine ⟨served_inMemory rfl _, (prove_run _ _ _ _ (served_inMemory rfl _)).1 ?_⟩
  simp only [AtCommits, atEach_cons, atEach_nil, reduceCtorEq, false_implies, true_implies, true_and,
    and_true]
  exact sparing_long

end Session

end VersionedTrie
