import VersionedTrie.Proofs.Lineage.History

/-! # What pruning leaves in a store

The ledger of a store says what it has after some commits and the deletes of some of their journals:
every node that has been written, apart from those that the deletes have taken away; an anchor for
every root, which leads to a commit with that root, the same one or a later one; and nothing else.
A commit and the deletes of a journal each keep the ledger (`Ledger.commit`, `Ledger.prune`).

If the deletes are those of the first commits, what has been taken away is what no later tree has
(`Ledger.exists_iff`).
-/

set_option autoImplicit false

namespace VersionedTrie

open VersionedTrie.Tree

/-! ## The contents after deletes -/

theorem WriteOp.apply_delete_self (held : Contents) (b : ByteArray) :
    ((delete b).apply held)[b]? = none :=
  (apply_get? ..).trans (if_pos rfl)

theorem WriteOp.apply_delete_ne (held : Contents) {b b' : ByteArray} (h : b ≠ b') :
    ((delete b).apply held)[b']? = held[b']? :=
  (apply_get? ..).trans (if_neg h)

namespace Journal

variable {j : Journal} {held : Contents} {k : NodeKey} {b v : ByteArray}

theorem apply_deletes (j : Journal) (held : Contents) :
    j.deletes.apply held =
      j.superseded.toList.foldl (fun h k => (WriteOp.delete k.encode).apply h) held := by
  rw [deletes, WriteBatch.apply, List.foldl_map]

theorem getElem?_deletes_ne (h : ∀ k, k ∈ j.superseded → k.encode ≠ b) :
    (j.deletes.apply held)[b]? = held[b]? := by
  rw [apply_deletes]
  have hne : ∀ k, k ∈ j.superseded.toList → k.encode ≠ b := fun k hk =>
    h k (Std.ExtTreeSet.mem_toList.mp hk)
  generalize j.superseded.toList = keys at hne
  induction keys generalizing held with
  | nil => rfl
  | cons k keys ih =>
    rw [List.foldl_cons, ih fun k' hk' => hne k' (List.mem_cons_of_mem k hk')]
    exact WriteOp.apply_delete_ne held (hne k List.mem_cons_self)

theorem getElem?_deletes_mem (hk : k ∈ j.superseded) :
    (j.deletes.apply held)[k.encode]? = none := by
  rw [apply_deletes]
  have hmem : k ∈ j.superseded.toList ∨ held[k.encode]? = none :=
    .inl (Std.ExtTreeSet.mem_toList.mpr hk)
  generalize j.superseded.toList = keys at hmem
  induction keys generalizing held with
  | nil => exact hmem.resolve_left List.not_mem_nil
  | cons k' keys ih =>
    rw [List.foldl_cons]
    refine ih ?_
    by_cases hk' : k' = k
    · rw [hk']
      exact .inr (WriteOp.apply_delete_self held _)
    · rw [WriteOp.apply_delete_ne held (NodeKey.encode_inj.not.mpr hk')]
      exact hmem.imp_left fun hmem => (List.mem_cons.mp hmem).resolve_left (Ne.symm hk')

/-- Deletes leave nothing that was not there. -/
theorem getElem?_of_deletes (hb : (j.deletes.apply held)[b]? = some v) : held[b]? = some v := by
  by_cases h : ∃ k, k ∈ j.superseded ∧ k.encode = b
  · obtain ⟨k, hk, rfl⟩ := h
    rw [getElem?_deletes_mem hk] at hb
    cases hb
  · rwa [getElem?_deletes_ne fun k hk e => h ⟨k, hk, e⟩] at hb

end Journal

/-- One of the commits whose deletes have been applied has superseded the node key. -/
def Dropped (commits : List (Journal × Entries)) (pruned : List Nat) (k : NodeKey) : Prop :=
  ∃ p j m, p ∈ pruned ∧ commits[p]? = some (j, m) ∧ k ∈ j.superseded

structure Ledger (held : Contents) (commits : List (Journal × Entries)) (pruned : List Nat) :
    Prop where
  kept : ∀ k x, Log.Wrote (commits.map Prod.fst) k x → ¬ Dropped commits pruned k →
    held.Keeps k x
  gone : ∀ k, Dropped commits pruned k → held[k.encode]? = none
  only : ∀ b v, held[b]? = some v →
    (∃ j, j ∈ commits.map Prod.fst ∧ b = j.root.bytes) ∨
      ∃ k x, Log.Wrote (commits.map Prod.fst) k x ∧ b = k.encode
  anchored : ∀ i (j : Journal) m k, commits[i]? = some (j, m) → j.rootKey = some k →
    ∃ (i' : Nat) (j' : Journal) (m' : Entries) (k' : NodeKey), i ≤ i' ∧
      commits[i']? = some (j', m') ∧ j'.Anchors j k' held
  known : ∀ p, p ∈ pruned → p < commits.length

variable {commits : List (Journal × Entries)} {pruned : List Nat} {trees : Nat → Tree}
  {tree : TreePrefix} {t : Trie} {base T : Tree} {m : Entries} {k : NodeKey} {x y : Node}
  {held : Contents} {j : Journal} {n : Nat}

theorem dropped_append (hp : ∀ p, p ∈ pruned → p < commits.length) (c : Journal × Entries) :
    Dropped (commits ++ [c]) pruned k ↔ Dropped commits pruned k := by
  constructor
  · rintro ⟨p, j, m, hmem, hj, hk⟩
    rw [List.getElem?_append_left (hp p hmem)] at hj
    exact ⟨p, j, m, hmem, hj, hk⟩
  · rintro ⟨p, j, m, hmem, hj, hk⟩
    refine ⟨p, j, m, hmem, ?_, hk⟩
    rw [List.getElem?_append_left (hp p hmem)]
    exact hj

theorem dropped_cons (hj : commits[n]? = some (j, m)) :
    Dropped commits (n :: pruned) k ↔ k ∈ j.superseded ∨ Dropped commits pruned k := by
  constructor
  · rintro ⟨p, j', m', hmem, hj', hk⟩
    obtain rfl | hmem := List.mem_cons.mp hmem
    · rw [hj] at hj'
      cases hj'
      exact .inl hk
    · exact .inr ⟨p, j', m', hmem, hj', hk⟩
  · rintro (hk | ⟨p, j', m', hmem, hj', hk⟩)
    · exact ⟨n, j, m, List.mem_cons_self, hj, hk⟩
    · exact ⟨p, j', m', List.mem_cons_of_mem n hmem, hj', hk⟩

theorem History.exists_wrote_of_dropped (h : History tree commits trees)
    (hk : Dropped commits pruned k) : ∃ x, Log.Wrote (commits.map Prod.fst) k x := by
  obtain ⟨_, _, _, _, hj, hk⟩ := hk
  exact h.wrote_of_superseded hj hk

namespace Ledger

theorem nil : Ledger ∅ [] [] where
  kept _ _ hk := absurd hk Log.not_wrote_nil
  gone := fun _ ⟨_, _, _, hp, _⟩ => absurd hp List.not_mem_nil
  only b v hb := by
    rw [Std.ExtTreeMap.getElem?_empty] at hb
    cases hb
  anchored := nofun
  known := nofun

section Commit

variable (h : Ledger held commits pruned)
  (hclean : Log.Clean (commits.map Prod.fst ++ [t.journal T.digest]))
include h hclean

/-- The anchor of a root leads where it led before, or to the commit that writes it now. -/
theorem anchored_commit {i : Nat} {j : Journal} {m' : Entries}
    (hi : (commits ++ [(t.journal T.digest, m)])[i]? = some (j, m')) (hk : j.rootKey = some k) :
    ∃ i' j' m' k', i ≤ i' ∧ (commits ++ [(t.journal T.digest, m)])[i']? = some (j', m') ∧
      j'.Anchors j k' (((t.journal T.digest).batch false).apply held) := by
  obtain ⟨hlt, hi⟩ | ⟨rfl, hlast⟩ := getElem?_concat_cases hi
  · obtain ⟨rk, hrk⟩ | hsame :=
      hclean.anchors held (List.mem_map_of_mem (List.mem_of_getElem? hi))
    · exact ⟨commits.length, t.journal T.digest, m, rk, hlt.le, List.getElem?_concat_length, hrk⟩
    · obtain ⟨i', j', m₁, k', hle, hj', hroot, hk', hanchor⟩ := h.anchored i j m' k hi hk
      refine ⟨i', j', m₁, k', hle, ?_, hroot, hk', hsame.trans hanchor⟩
      rw [List.getElem?_append_left (List.getElem?_eq_some_iff.mp hj').1]
      exact hj'
  · obtain ⟨rfl, rfl⟩ := Prod.mk.inj hlast
    have hroot : (t.journal T.digest).root = T.digest := rfl
    exact ⟨commits.length, t.journal T.digest, m', k, le_rfl, List.getElem?_concat_length,
      Trie.anchors_batch hk hroot held⟩

/-- A commit adds its nodes and its anchor, and takes nothing away. -/
theorem commit (hist : History tree commits trees)
    (hc : Log.Carries (commits.map Prod.fst) t base T m)
    (hnew : ∀ k x y, t.dirty[k]? = some x → ¬ Log.Wrote (commits.map Prod.fst) k y) :
    Ledger (((t.journal T.digest).batch false).apply held) (commits ++ [(t.journal T.digest, m)])
      pruned := by
  have hlog : (commits ++ [(t.journal T.digest, m)]).map Prod.fst =
      commits.map Prod.fst ++ [t.journal T.digest] := List.map_append
  have hlast : t.journal T.digest ∈ commits.map Prod.fst ++ [t.journal T.digest] :=
    List.mem_append_right _ List.mem_cons_self
  have hsub : commits.map Prod.fst ⊆ commits.map Prod.fst ++ [t.journal T.digest] :=
    List.subset_append_left _ _
  refine ⟨fun k x hk hd => ?_, fun k hd => ?_, fun b v hb => ?_,
    fun _ _ _ _ => h.anchored_commit hclean, fun p hp => ?_⟩
  · rw [hlog] at hk
    rw [dropped_append h.known] at hd
    exact hc.keeps hclean (fun hold => h.kept k x hold hd) hk
  · rw [dropped_append h.known] at hd
    obtain ⟨x, hk⟩ := hist.exists_wrote_of_dropped hd
    have hclear : t.dirty[k]? = none :=
      Option.eq_none_iff_forall_ne_some.mpr fun y hy => hnew k y x hy hk
    have hapart : k.encode ≠ T.digest.bytes := hclean.apart.encode_ne hlast (hk.mono hsub)
    rw [Trie.getElem?_batch_ne fun _ => hapart, Trie.getElem?_nodePuts_clean hclear]
    exact h.gone k hd
  · rw [hlog]
    obtain hroot | ⟨k, x, hd, rfl⟩ | hb := Trie.getElem?_of_batch hb
    · exact .inl ⟨_, hlast, hroot⟩
    · exact .inr ⟨k, x, hc.wrote_dirty hd, rfl⟩
    · obtain ⟨j, hj, rfl⟩ | ⟨k, x, hk, rfl⟩ := h.only b v hb
      · exact .inl ⟨j, hsub hj, rfl⟩
      · exact .inr ⟨k, x, hk.mono hsub, rfl⟩
  · rw [List.length_append]
    exact Nat.lt_succ_of_lt (h.known p hp)

end Commit

/-- The deletes of a journal take away what its commit has superseded. -/
theorem prune (h : Ledger held commits pruned) (hist : History tree commits trees)
    (hapart : Log.Apart (commits.map Prod.fst)) (hj : commits[n]? = some (j, m)) :
    Ledger (j.deletes.apply held) commits (n :: pruned) := by
  refine ⟨fun k x hk hd => ?_, fun k hd => ?_, fun b v hb => ?_, fun i j' m' k hi hk => ?_,
    fun p hp => ?_⟩
  · rw [dropped_cons hj, not_or] at hd
    rw [Contents.Keeps, Journal.getElem?_deletes_ne]
    · exact h.kept k x hk hd.2
    · intro k' hk' e
      rw [NodeKey.encode_inj.mp e] at hk'
      exact hd.1 hk'
  · by_cases hk : k ∈ j.superseded
    · exact Journal.getElem?_deletes_mem hk
    · rw [Journal.getElem?_deletes_ne]
      · exact h.gone k (((dropped_cons hj).mp hd).resolve_left hk)
      · intro k' hk' e
        rw [NodeKey.encode_inj.mp e] at hk'
        exact hk hk'
  · exact h.only b v (Journal.getElem?_of_deletes hb)
  · obtain ⟨i', j₁, m₁, k', hle, hi', hsame, hk', hanchor⟩ := h.anchored i j' m' k hi hk
    refine ⟨i', j₁, m₁, k', hle, hi', hsame, hk', ?_⟩
    rw [← hanchor]
    refine Journal.getElem?_deletes_ne fun k₁ hk₁ => ?_
    obtain ⟨x, hx⟩ := hist.wrote_of_superseded hj hk₁
    exact hapart.encode_ne (List.mem_map_of_mem (List.mem_of_getElem? hi)) hx
  · obtain rfl | hp := List.mem_cons.mp hp
    · exact (List.getElem?_eq_some_iff.mp hj).1
    · exact h.known p hp

/-! ## Pruning the first commits -/

/-- The deletes of exactly the first `n` commits have been applied. -/
def Through (pruned : List Nat) (n : Nat) : Prop := ∀ p, p ∈ pruned ↔ p < n

theorem le_length (h : Ledger held commits pruned) (hfirst : Through pruned n) :
    n ≤ commits.length := by
  cases n with
  | zero => exact Nat.zero_le _
  | succ n => exact h.known n ((hfirst n).mpr (Nat.lt_succ_self n))

section First

variable (hist : History tree commits trees) (hn : n ≤ commits.length) (hfirst : Through pruned n)
include hist hn hfirst

/-- What the first deletes leave are the nodes of the trees from there on. -/
theorem not_dropped_iff (hk : Log.Wrote (commits.map Prod.fst) k x) :
    ¬ Dropped commits pruned k ↔
      ∃ i, n ≤ i + 1 ∧ i < commits.length ∧ Keyed tree (trees (i + 1)) k := by
  obtain ⟨_, hj, hb, _⟩ := hk
  obtain ⟨⟨j, m⟩, hmem, rfl⟩ := List.mem_map.mp hj
  obtain ⟨i, hi⟩ := List.mem_iff_getElem?.mp hmem
  rw [hist.exists_keyed_iff hi hb hn]
  constructor
  · exact fun hd p j m hp hj hk => hd ⟨p, j, m, (hfirst p).mpr hp, hj, hk⟩
  · rintro hkept ⟨p, j, m, hp, hj, hk⟩
    exact hkept p j m ((hfirst p).mp hp) hj hk

theorem keeps (h : Ledger held commits pruned) {i : Nat} (hni : n ≤ i + 1) (hi : i < commits.length)
    (hk : Owns tree [] (trees (i + 1)) k x) : held.Keeps k x := by
  have hwrote := hist.wrote hi hk
  exact h.kept k x hwrote ((not_dropped_iff hist hn hfirst hwrote).mpr ⟨i, hni, hi, x, hk⟩)

/-- All that the store has beside the anchors are the nodes of the trees that are retained. -/
theorem exists_iff (h : Ledger held commits pruned) (hapart : Log.Apart (commits.map Prod.fst))
    {b : ByteArray} :
    ((∃ v, held[b]? = some v) ∧ ∀ j, j ∈ commits.map Prod.fst → b ≠ j.root.bytes) ↔
      ∃ i k, n ≤ i + 1 ∧ i < commits.length ∧ Keyed tree (trees (i + 1)) k ∧ b = k.encode := by
  constructor
  · rintro ⟨⟨v, hv⟩, hb⟩
    obtain ⟨j, hj, rfl⟩ | ⟨k, x, hk, rfl⟩ := h.only b v hv
    · exact absurd rfl (hb j hj)
    · have hkept : ¬ Dropped commits pruned k := by
        intro hd
        rw [h.gone k hd] at hv
        cases hv
      obtain ⟨i, hni, hi, hkeyed⟩ := (not_dropped_iff hist hn hfirst hk).mp hkept
      exact ⟨i, k, hni, hi, hkeyed, rfl⟩
  · rintro ⟨i, k, hni, hi, ⟨x, hk⟩, rfl⟩
    refine ⟨⟨x.encode, (keeps hist hn hfirst h hni hi hk).1⟩, fun j hj => ?_⟩
    exact hapart.encode_ne hj (hist.wrote hi hk)

end First

end Ledger

end VersionedTrie
