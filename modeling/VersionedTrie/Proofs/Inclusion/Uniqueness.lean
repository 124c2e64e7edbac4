import VersionedTrie.Proofs.Inclusion
import Mathlib.Data.List.Forall2

/-! # Accepted proofs are unique

Of a root digest and a key there is one accepted proof, apart from what no node digests: whatever
trie the root belongs to, if it belongs to any, two accepted proofs of the key have the same value
and concur entry by entry (`Inclusion.Concur`), so that no accepted proof can be edited into another
one. Otherwise the two verifications have digested two different byte strings to one digest
(`Inclusion.Clashes`), which is less than `Collides` asks for: no input has to be held against the
placeholder. Both lists are followed at once. They start from one expected digest, and equal digests
of equal preimages hand one expected digest to the entries that come next.
-/

set_option autoImplicit false

namespace VersionedTrie

namespace Inclusion

/-- What the verification of an accepted proof digests: its branches, and the leaf of its key and
value. -/
inductive Digested (p : Inclusion) : ByteArray → Prop
  | entry {e : ByteArray} {b : Branch} (he : e ∈ p.nodes) (hb : Node.decode e = .ok (.branch b)) :
    Digested p b.preimage
  | leaf {key value : ByteArray} (hk : p.key = some key) (hv : p.value = some value) :
    Digested p (leafPreimage (Path.ofKey key) value)

/-- Two different inputs have one digest. -/
def Clashes (inputs : ByteArray → Prop) : Prop :=
  ∃ a b, inputs a ∧ inputs b ∧ a ≠ b ∧ Digest.of a = Digest.of b

theorem eq_or_clashes {inputs : ByteArray → Prop} {a b : ByteArray} (ha : inputs a) (hb : inputs b)
    (h : Digest.of a = Digest.of b) : a = b ∨ Clashes inputs := by
  by_cases e : a = b
  · exact .inl e
  · exact .inr ⟨a, b, ha, hb, e, h⟩

/-- A branch and a leaf never digest one byte string. -/
theorem clashes_of_digest_eq {inputs : ByteArray → Prop} {b : Branch} {path : Path}
    {value : ByteArray} (hb : inputs b.preimage) (hl : inputs (leafPreimage path value))
    (h : b.digest = leafDigest path value) : Clashes inputs :=
  ⟨_, _, hb, hl, preimage_ne_leafPreimage b path value, h⟩

/-- Entries of one kind that say the same of their slots. Versions, marks and the contents of leaf
entries are free. -/
inductive Alike : ByteArray → ByteArray → Prop
  | branch {e e' : ByteArray} {b b' : Branch} (h : Node.decode e = .ok (.branch b))
      (h' : Node.decode e' = .ok (.branch b')) (hslots : ∀ n, b.digestAt n = b'.digestAt n) :
    Alike e e'
  | leaf {e e' : ByteArray} {l l' : Leaf} (h : Node.decode e = .ok (.leaf l))
      (h' : Node.decode e' = .ok (.leaf l')) :
    Alike e e'

theorem Alike.symm {e e' : ByteArray} (h : Alike e e') : Alike e' e := by
  cases h with
  | branch h h' hslots => exact .branch h' h fun n => (hslots n).symm
  | leaf h h' => exact .leaf h' h

/-- Lists of as many branches, alike one by one, each list with one leaf after them. -/
inductive Concur : List ByteArray → List ByteArray → Prop
  | leaf {e e' : ByteArray} {l l' : Leaf} (h : Node.decode e = .ok (.leaf l))
      (h' : Node.decode e' = .ok (.leaf l')) :
    Concur [e] [e']
  | branch {e e' : ByteArray} {b b' : Branch} {entries entries' : List ByteArray}
      (h : Node.decode e = .ok (.branch b)) (h' : Node.decode e' = .ok (.branch b'))
      (hslots : ∀ n, b.digestAt n = b'.digestAt n) (rest : Concur entries entries') :
    Concur (e :: entries) (e' :: entries')

theorem Concur.forall₂ {entries entries' : List ByteArray} (h : Concur entries entries') :
    List.Forall₂ Alike entries entries' := by
  induction h with
  | leaf h h' => exact .cons (.leaf h h') .nil
  | branch h h' hslots rest ih => exact .cons (.branch h h' hslots) ih

theorem Concur.length_eq {entries entries' : List ByteArray} (h : Concur entries entries') :
    entries.length = entries'.length :=
  h.forall₂.length_eq

theorem Concur.alike {entries entries' : List ByteArray} (h : Concur entries entries') {i : Nat}
    {e e' : ByteArray} (he : entries[i]? = some e) (he' : entries'[i]? = some e') : Alike e e' := by
  obtain ⟨hi, rfl⟩ := List.getElem?_eq_some_iff.mp he
  obtain ⟨hi', rfl⟩ := List.getElem?_eq_some_iff.mp he'
  exact h.forall₂.get hi hi'

/-- Another proof of the same key that is an edit of the first. -/
inductive Tampered (p : Inclusion) : Inclusion → Prop
  | value {value : Option ByteArray} (h : p.value ≠ value) : Tampered p { p with value := value }
  | dropped {nodes : List ByteArray} (h : nodes.Sublist p.nodes) (hne : nodes ≠ p.nodes) :
    Tampered p { p with nodes := nodes }
  | added {nodes : List ByteArray} (h : p.nodes.Sublist nodes) (hne : p.nodes ≠ nodes) :
    Tampered p { p with nodes := nodes }
  | swapped {i j : Nat} {e e' : ByteArray} (hi : p.nodes[i]? = some e) (hj : p.nodes[j]? = some e')
      (hne : ¬Alike e e') :
    Tampered p { p with nodes := (p.nodes.set i e').set j e }

theorem Tampered.key_eq {p q : Inclusion} (h : Tampered p q) : q.key = p.key := by
  cases h <;> rfl

/-- An edit leaves a trace in what unique proofs agree on. -/
theorem Tampered.not_concur {p q : Inclusion} (h : Tampered p q) :
    ¬(p.value = q.value ∧ Concur p.nodes q.nodes) := by
  rintro ⟨hvalue, hc⟩
  cases h with
  | value h => exact h hvalue
  | dropped h hne => exact hne (h.eq_of_length hc.length_eq.symm)
  | added h hne => exact hne (h.eq_of_length hc.length_eq)
  | swapped hi hj hne =>
    have hlt := (List.getElem?_eq_some_iff.mp hj).1
    refine hne (hc.alike hj (List.getElem?_set_self ?_)).symm
    rw [List.length_set]
    exact hlt

/-- Two lists of entries followed along one path from one expected digest. -/
theorem concur_of_follows {inputs : ByteArray → Prop} {path rest : Path} {value value' : ByteArray}
    {expected : Digest} {entries entries' : List ByteArray}
    (hentry : ∀ e b, e ∈ entries → Node.decode e = .ok (.branch b) → inputs b.preimage)
    (hentry' : ∀ e b, e ∈ entries' → Node.decode e = .ok (.branch b) → inputs b.preimage)
    (hleaf : inputs (leafPreimage path value)) (hleaf' : inputs (leafPreimage path value'))
    (hf : follows (leafDigest path value) rest expected entries = true)
    (hf' : follows (leafDigest path value') rest expected entries' = true) :
    (value = value' ∧ Concur entries entries') ∨ Clashes inputs := by
  induction entries generalizing entries' rest expected with
  | nil => obtain ⟨_, _, h, _⟩ | ⟨_, _, _, _, _, _, h, _⟩ := follows_eq_true.mp hf <;> cases h
  | cons e entries ih =>
    obtain ⟨_, l, h, hl, hd⟩ | ⟨_, _, b, n, rest', c, h, hb, hd, rfl, hc, hf⟩ :=
      follows_eq_true.mp hf
    · cases h
      obtain ⟨e', l', rfl, hl', hd'⟩ | ⟨e', _, b', _, _, _, rfl, hb', hd', _⟩ :=
        follows_eq_true.mp hf'
      · obtain h | h := eq_or_clashes hleaf hleaf' (hd.trans hd'.symm)
        · exact .inl ⟨leafPreimage_value_inj h, .leaf hl hl'⟩
        · exact .inr h
      · have hinput := hentry' e' b' List.mem_cons_self hb'
        exact .inr (clashes_of_digest_eq hinput hleaf (hd'.trans hd.symm))
    · cases h
      obtain ⟨_, _, _, _, hd'⟩ | ⟨e', entries', b', _, _, c', rfl, hb', hd', ⟨⟩, hc', hf'⟩ :=
        follows_eq_true.mp hf'
      · have hinput := hentry e b List.mem_cons_self hb
        exact .inr (clashes_of_digest_eq hinput hleaf' (hd.trans hd'.symm))
      · obtain h | h := eq_or_clashes (hentry e b List.mem_cons_self hb)
          (hentry' e' b' List.mem_cons_self hb') (hd.trans hd'.symm)
        · -- the slots agree, so both lists go on below one child with one expected digest
          have hslots := congrFun (Branch.preimage_inj.mp h)
          have hchild : c.digest = c'.digest := by
            have hslot := hslots n
            rw [Branch.digestAt, Branch.digestAt, hc, hc'] at hslot
            exact hslot
          have hbelow := ih (fun e b he => hentry e b (List.mem_cons_of_mem _ he))
            (fun e b he => hentry' e b (List.mem_cons_of_mem _ he)) hf (hchild ▸ hf')
          exact hbelow.imp_left fun hsame => ⟨hsame.1, .branch hb hb' hslots hsame.2⟩
        · exact .inr h

/-- An accepted proof is the only one of its key and root, up to what is not digested, and none of
its edits is accepted; otherwise the verifications show two inputs with one digest. -/
theorem verify_unique {root : Digest} {p : Inclusion} (hp : verify root (some p) = .ok true) :
    (∀ q : Inclusion, q.key = p.key → verify root (some q) = .ok true →
      (p.value = q.value ∧ Concur p.nodes q.nodes) ∨
        Clashes fun input => p.Digested input ∨ q.Digested input) ∧
    ∀ q : Inclusion, Tampered p q → verify root (some q) = .ok true →
      Clashes fun input => p.Digested input ∨ q.Digested input := by
  have hunique : ∀ q : Inclusion, q.key = p.key → verify root (some q) = .ok true →
      (p.value = q.value ∧ Concur p.nodes q.nodes) ∨
        Clashes fun input => p.Digested input ∨ q.Digested input := by
    intro q hkeys hq
    obtain ⟨_, key, value, ⟨⟩, hkey, _, hvalue, hf⟩ := verify_eq_true hp
    obtain ⟨_, key', value', ⟨⟩, hkey', _, hvalue', hf'⟩ := verify_eq_true hq
    obtain rfl : key' = key := Option.some.inj (by rw [← hkey', hkeys, hkey])
    rw [hvalue, hvalue', Option.some.injEq]
    exact concur_of_follows (fun e b he hb => .inl (.entry he hb))
      (fun e b he hb => .inr (.entry he hb)) (.inl (.leaf hkey hvalue))
      (.inr (.leaf hkey' hvalue')) hf hf'
  refine ⟨hunique, fun q hq hverify => ?_⟩
  exact (hunique q hq.key_eq hverify).resolve_left hq.not_concur

/-- A branch whose only child is the leaf of the key "ab" and the value "x". -/
def stepBranch (version : Version) : Branch :=
  Branch.empty.set 6 ⟨leafDigest (Path.ofKey "ab".toUTF8) "x".toUTF8, version, true⟩

/-- The proof of "ab" through that branch. -/
def stepProof (version : Version) : Inclusion :=
  ⟨some "ab".toUTF8, some "x".toUTF8, [(Node.branch (stepBranch version)).encode,
    (Node.leaf (Leaf.make (Path.ofKey "ab".toUTF8) "x".toUTF8)).encode]⟩

theorem decode_stepBranch (version : Version) :
    Node.decode (Node.branch (stepBranch version)).encode = .ok (.branch (stepBranch version)) :=
  Node.decode_encode (List.isEmpty_eq_false_iff.mpr
    (List.ne_nil_of_mem (Branch.mem_children.mpr (Branch.child?_set Branch.empty 6 6 _))))

theorem verify_stepProof (version version' : Version) :
    verify (stepBranch version).digest (some (stepProof version')) = .ok true := by
  have hpath : Path.ofKey "ab".toUTF8 = [6, 1, 6, 2] := by decide +kernel
  exact verify_below (b := stepBranch version') hpath (Branch.child?_set Branch.empty 6 6 _) rfl
    ⟨by decide, by decide⟩

/-- The branch of an accepted proof may record the leaf at another version, since no branch digests
the versions of its children; a proof without its branch is no proof. -/
theorem verify_unique_stepProof :
    (verify (stepBranch 3).digest (some (stepProof 3)) = .ok true ∧
      verify (stepBranch 3).digest (some (stepProof 5)) = .ok true ∧
      (stepProof 3).nodes ≠ (stepProof 5).nodes ∧
      Tampered (stepProof 3) { stepProof 3 with nodes := (stepProof 3).nodes.tail }) ∧
    (((stepProof 3).value = (stepProof 5).value ∧
        Concur (stepProof 3).nodes (stepProof 5).nodes) ∨
      Clashes fun input => (stepProof 3).Digested input ∨ (stepProof 5).Digested input) ∧
    (verify (stepBranch 3).digest
        (some { stepProof 3 with nodes := (stepProof 3).nodes.tail }) = .ok true →
      Clashes fun input => (stepProof 3).Digested input ∨
        Inclusion.Digested { stepProof 3 with nodes := (stepProof 3).nodes.tail } input) := by
  have hne : (stepProof 3).nodes ≠ (stepProof 5).nodes := by
    intro h
    have hdecode := decode_stepBranch 3
    rw [(List.cons.inj h).1, decode_stepBranch 5] at hdecode
    have hchild := congrArg (fun b => b.child? 6) (Node.branch.inj (Except.ok.inj hdecode))
    simp [stepBranch, Branch.child?_set] at hchild
  have htampered : Tampered (stepProof 3) { stepProof 3 with nodes := (stepProof 3).nodes.tail } :=
    .dropped (List.tail_sublist _) (by simp [stepProof])
  obtain ⟨hunique, hedits⟩ := verify_unique (verify_stepProof 3 3)
  exact ⟨⟨verify_stepProof 3 3, verify_stepProof 3 5, hne, htampered⟩,
    hunique (stepProof 5) rfl (verify_stepProof 3 5), hedits _ htampered⟩

end Inclusion

end VersionedTrie
