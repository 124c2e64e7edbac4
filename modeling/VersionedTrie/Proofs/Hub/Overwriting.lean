import VersionedTrie.Proofs.Hub.Intact

/-! # Overwriting

A node key says at which version, under which prefix and at which path a node was written, but not
which node it is. A commit at a version that another handle has used may take the place of nodes that
committed tries still refer to. Loading a root compares the root's own node with the digest that is
loaded; reading on from there compares nothing, so that a node which has been overwritten by another
one is taken for what it was.

What is read from a loaded root is therefore what was committed as long as the walk does not go
astray: every node that it comes to must have the digest by which it is reached. And no walk goes
astray on a store where no two commits have written different nodes under one node key.
-/

set_option autoImplicit false

namespace VersionedTrie

open VersionedTrie.Tree

namespace Trie

variable {t : Trie} {a : Access} {d : Digest}

theorem placeholder_of_rootDigest (h : (t.rootDigest a).1 = .ok d) (hn : t.root = none) :
    d = Digest.placeholder := by
  unfold rootDigest at h
  rw [ensureLive_eq (live_of_rootDigest h), pure_bind, hn] at h
  exact (Except.ok.inj h).symm

theorem placeholder_of_load (h : (load d a).1 = .ok t) (hn : t.root = none) :
    d = Digest.placeholder := by
  by_contra hd
  unfold load at h
  rw [if_neg hd, run_bind] at h
  cases hk : readAnchor d a with
  | mk o b =>
    rw [hk] at h
    cases o with
    | error e => cases h
    | ok k =>
      simp only [run_bind] at h
      cases hx : readNode k b with
      | mk o c =>
        rw [hx] at h
        cases o with
        | error e => cases h
        | ok x =>
          simp only at h
          split at h
          · cases h
            cases hn
          · cases h

theorem eq_none_of_get {key : ByteArray} {v : Option ByteArray} (h : (t.get key a).1 = .ok v)
    (hk : key.size = 0) : v = none := by
  unfold get at h
  rw [ensureLive_eq (live_of_get h), pure_bind, if_pos hk] at h
  exact (Except.ok.inj h).symm

/-- The sizes of a key and a value fit the fields that hold them. -/
def Fits (key : ByteArray) (v : Option ByteArray) : Prop :=
  2 * key.size < Bytes.span 8 ∧ ∀ value, v = some value → value.size < Bytes.span 8

theorem storable_of_value? {w : Descent} {key : ByteArray} {l : Leaf} {v : Option ByteArray}
    (hv : w.value? (Path.ofKey key) = v) (hf : Fits key v) (hl : w.leaf? = some l)
    (hkey : l.key = Path.ofKey key) : (Node.leaf l).Storable := by
  rw [Descent.value?_eq, hl, Option.bind_some, if_pos hkey] at hv
  refine ⟨?_, hf.2 l.value hv.symm⟩
  rw [hkey, Path.length_ofKey]
  exact hf.1

/-- What a key reads as through a root's digest does not depend on the store, unless a walk goes
astray. -/
theorem get_eq_or_astray {t u : Trie} {a b : Access} {key : ByteArray} {v w : Option ByteArray}
    (hv : (t.get key a).1 = .ok v) (hw : (u.get key b).1 = .ok w)
    (ht : t.root = none → d = Digest.placeholder) (hu : u.root = none → d = Digest.placeholder)
    (hfv : Fits key v) (hfw : Fits key w) :
    v = w ∨ Astray (t.find a) d t.root (Path.ofKey key) ∨
      Astray (u.find b) d u.root (Path.ofKey key) ∨
      Collides fun i => ∃ x, (Met (t.find a) t.root (Path.ofKey key) x ∨
        Met (u.find b) u.root (Path.ofKey key) x) ∧ i = x.preimage := by
  by_cases hk : key.size = 0
  · rw [eq_none_of_get hv hk, eq_none_of_get hw hk]
    exact .inl rfl
  · obtain ⟨wt, hwt, hvt⟩ := exists_value?_of_get hv hk
    obtain ⟨wu, hwu, hvu⟩ := exists_value?_of_get hw hk
    refine or_iff_not_imp_right.mpr fun hn => ?_
    rw [not_or, not_or] at hn
    obtain ⟨hta, hua, hfree⟩ := hn
    rw [← hvt, ← hvu]
    refine (value?_eq_or_collides hwt hwu ⟨ht, hta, fun x hx => ⟨x, .inl hx, rfl⟩⟩
      ⟨hu, hua, fun x hx => ⟨x, .inr hx, rfl⟩⟩ ?_).resolve_right hfree
    rintro l₁ l₂ hl₁ hl₂ (hkey | hkey)
    · exact .inl (storable_of_value? hvt hfv hl₁ hkey)
    · exact .inr (storable_of_value? hvu hfw hl₂ hkey)

end Trie

namespace Hub

open Log

variable {h : Hub} {t : Trie} {m : Entries} {j : Journal} {turn : Turn} {i : Nat}

theorem rootDigest_of_told (ht : h.handles[i]? = some (t, m)) (hd : turn.deed = .commit i)
    (hj : h.told turn = some (.ok (.committed j))) :
    (t.rootDigest (h.access turn.plan turn.cache)).1 = .ok j.root := by
  obtain ⟨plan, cache, deed⟩ := turn
  obtain rfl : deed = .commit i := hd
  obtain ⟨e, b, hrun, -⟩ | ⟨root, b, hroot, -, -, hrun⟩ := t.commit_cases (h.access plan cache)
  · rw [told, perform_commit_error ht hrun] at hj
    cases hj
  · rw [told, perform_commit_ok ht hrun] at hj
    cases hj
    rw [hroot]
    rfl

theorem mem_commits_of_told (ht : h.handles[i]? = some (t, m)) (hd : turn.deed = .commit i)
    (hj : h.told turn = some (.ok (.committed j))) : (j, m) ∈ (h.after turn).commits := by
  obtain ⟨plan, cache, deed⟩ := turn
  obtain rfl : deed = .commit i := hd
  obtain ⟨e, b, hrun, -⟩ | ⟨root, b, -, -, -, hrun⟩ := t.commit_cases (h.access plan cache)
  · rw [told, perform_commit_error ht hrun] at hj
    cases hj
  · rw [told, perform_commit_ok ht hrun] at hj
    cases hj
    rw [after, perform_commit_ok ht hrun]
    exact List.mem_append_right _ List.mem_cons_self

/-- What has been read of a trie when it was committed is read again from its root, whatever has
become of the store, unless a walk goes astray or nodes on the two walks collide. And where all nodes
that commits have written under one node key are the same, the commit is served from then on. -/
theorem reads_as_committed (h : Hub) (turn : Turn) (i : Nat) (t : Trie) (m : Entries) (j : Journal)
    (hd : turn.deed = .commit i) (ht : h.handles[i]? = some (t, m))
    (hj : h.told turn = some (.ok (.committed j))) :
    (∀ (a b c : Access) (u : Trie) (key : ByteArray) (v w : Option ByteArray),
      (t.get key a).1 = .ok v → (Trie.load j.root b).1 = .ok u → (u.get key c).1 = .ok w →
      Trie.Fits key v → Trie.Fits key w →
        v = w ∨ Astray (t.find a) j.root t.root (Path.ofKey key) ∨
          Astray (u.find c) j.root u.root (Path.ofKey key) ∨
          Collides fun i => ∃ x, (Met (t.find a) t.root (Path.ofKey key) x ∨
            Met (u.find c) u.root (Path.ofKey key) x) ∧ i = x.preimage) ∧
    ∀ (volume : Volume) (store : Store) (capacity : Nat → Nat) (c : Contents)
      (pre post : List Turn), h = (start volume store capacity c).run pre →
      (start volume store capacity c).Throughout Served (pre ++ turn :: post) →
      (∀ turn', turn' ∈ pre ++ turn :: post → ∀ n, turn'.deed ≠ .prune n) →
      Clean ((start volume store capacity c).run (pre ++ turn :: post)).journals →
        ((start volume store capacity c).run (pre ++ turn :: post)).Serves j.root m := by
  refine ⟨fun a b c u key v w hv hload hw hfv hfw => ?_,
    fun volume store capacity c pre post hrun hs hprune hclean => ?_⟩
  · exact Trie.get_eq_or_astray hv hw
      (Trie.placeholder_of_rootDigest (rootDigest_of_told ht hd hj))
      (Trie.placeholder_of_load hload) hfv hfw
  · have hsplit : pre ++ turn :: post = (pre ++ [turn]) ++ post := by
      rw [List.append_assoc, List.singleton_append]
    have hmem : (j, m) ∈ ((start volume store capacity c).run (pre ++ [turn])).commits := by
      rw [run_append, ← hrun]
      exact mem_commits_of_told ht hd hj
    rw [hsplit] at hs hprune hclean ⊢
    exact serves_later hs hprune hclean List.prefix_rfl hmem

/-- Two handles write the same at one version. -/
def twice : List Turn :=
  [⟨FaultPlan.none, none, .create TreePrefix.empty⟩,
    ⟨FaultPlan.none, none, .update 0 1 "a".toUTF8 "x".toUTF8⟩,
    ⟨FaultPlan.none, none, .commit 0⟩,
    ⟨FaultPlan.none, none, .create TreePrefix.empty⟩,
    ⟨FaultPlan.none, none, .update 1 1 "a".toUTF8 "x".toUTF8⟩,
    ⟨FaultPlan.none, none, .commit 1⟩]

/-- What a key reads as on a handle that is then committed, and what it reads as on another hub from
the root that was committed. -/
def reread (h h' : Hub) (turn : Turn) (i : Nat) (key : ByteArray) :
    Option (Option ByteArray × Option ByteArray) := do
  let (t, _) ← h.handles[i]?
  match h.told turn with
  | some (.ok (.committed j)) =>
    let v ← (t.get key (h.access FaultPlan.none none)).1.toOption
    let u ← (Trie.load j.root (h'.access FaultPlan.none none)).1.toOption
    let w ← (u.get key (h'.access FaultPlan.none none)).1.toOption
    some (v, w)
  | _ => none

theorem exists_of_reread {h' : Hub} {key : ByteArray} {v w : Option ByteArray}
    (hr : h.reread h' turn i key = some (v, w)) :
    ∃ t m j u, h.handles[i]? = some (t, m) ∧ h.told turn = some (.ok (.committed j)) ∧
      (t.get key (h.access FaultPlan.none none)).1 = .ok v ∧
      (Trie.load j.root (h'.access FaultPlan.none none)).1 = .ok u ∧
      (u.get key (h'.access FaultPlan.none none)).1 = .ok w := by
  obtain ⟨⟨t, m⟩, ht, hr⟩ := Option.bind_eq_some_iff.mp hr
  simp only at hr
  split at hr
  · next j hj =>
    obtain ⟨v', hv, hr⟩ := Option.bind_eq_some_iff.mp hr
    obtain ⟨u, hu, hr⟩ := Option.bind_eq_some_iff.mp hr
    obtain ⟨w', hw, hr⟩ := Option.bind_eq_some_iff.mp hr
    cases hr
    exact ⟨t, m, j, u, ht, hj, eq_ok_of_toOption hv, eq_ok_of_toOption hu, eq_ok_of_toOption hw⟩
  · cases hr

theorem reads_as_committed_twice :
    ∃ (t : Trie) (m : Entries) (j : Journal) (u : Trie) (v w : Option ByteArray),
      (blank.run (twice.take 2)).handles[0]? = some (t, m) ∧
      (blank.run (twice.take 2)).told ⟨FaultPlan.none, none, .commit 0⟩ =
        some (.ok (.committed j)) ∧
      (t.get "a".toUTF8 ((blank.run (twice.take 2)).access FaultPlan.none none)).1 = .ok v ∧
      (Trie.load j.root ((blank.run twice).access FaultPlan.none none)).1 = .ok u ∧
      (u.get "a".toUTF8 ((blank.run twice).access FaultPlan.none none)).1 = .ok w ∧
      Trie.Fits "a".toUTF8 v ∧ Trie.Fits "a".toUTF8 w ∧ Clean (blank.run twice).journals ∧
      (v = w ∨
        Astray (t.find ((blank.run (twice.take 2)).access FaultPlan.none none)) j.root t.root
          (Path.ofKey "a".toUTF8) ∨
        Astray (u.find ((blank.run twice).access FaultPlan.none none)) j.root u.root
          (Path.ofKey "a".toUTF8) ∨
        Collides fun i => ∃ x,
          (Met (t.find ((blank.run (twice.take 2)).access FaultPlan.none none)) t.root
            (Path.ofKey "a".toUTF8) x ∨
          Met (u.find ((blank.run twice).access FaultPlan.none none)) u.root
            (Path.ofKey "a".toUTF8) x) ∧ i = x.preimage) ∧
      (blank.run twice).Serves j.root m := by
  have hcomputed : (blank.run (twice.take 2)).reread (blank.run twice)
        ⟨FaultPlan.none, none, .commit 0⟩ 0 "a".toUTF8 = some (some "x".toUTF8, some "x".toUTF8) ∧
      Unambiguous (blank.run twice).journals ∧ Apart (blank.run twice).journals ∧
      Distinct (blank.run twice).journals := by
    decide +kernel
  obtain ⟨hreread, hsame, hapart, hfree⟩ := hcomputed
  have hclean : Clean (blank.run twice).journals := ⟨hsame, hapart, hfree.free⟩
  have hfits : Trie.Fits "a".toUTF8 (some "x".toUTF8) := by
    refine ⟨by decide, fun value hv => ?_⟩
    cases hv
    decide
  obtain ⟨t, m, j, u, ht, hj, hv, hu, hw⟩ := exists_of_reread hreread
  obtain ⟨hreads, hserves⟩ := reads_as_committed _ _ 0 t m j rfl ht hj
  refine ⟨t, m, j, u, _, _, ht, hj, hv, hu, hw, hfits, hfits, hclean,
    hreads _ _ _ u _ _ _ hv hu hw hfits hfits, ?_⟩
  exact hserves default default (fun _ => 8) ∅ (twice.take 2) (twice.drop 3) rfl
    (served_blank twice) (by simp [twice]) hclean

end Hub

end VersionedTrie
