import VersionedTrie.Proofs.Hub.Lockstep

/-! # Isolation

Handles that write at different versions do not get in each other's way. Whatever the others do, a
commit stays what it was: its root can be loaded at any time and reads as it was committed. And a
handle that is open is told the same as if it were alone (`Hub.isolated`).

That a read is planned to fail is left out for the handle that is compared: which read it is depends
on what the others have left in a common cache.
-/

set_option autoImplicit false

namespace VersionedTrie

open VersionedTrie.Tree

namespace Log

variable {log : List Journal}

/-- A log is unambiguous if no two commits write under the same node key. -/
theorem unambiguous_of_pairwise
    (h : log.Pairwise fun i j => ∀ r, r ∈ i.written → ∀ r', r' ∈ j.written → r.1 ≠ r'.1)
    (hj : ∀ j, j ∈ log → ∃ (t : Trie) (root : Digest), j = t.journal root) : Unambiguous log := by
  have hsymm : Std.Symm fun i j : Journal =>
      ∀ r, r ∈ i.written → ∀ r', r' ∈ j.written → r.1 = r'.1 → r.2 = r'.2 :=
    ⟨fun i j hij r hr r' hr' hk => (hij r' hr' r hr hk.symm).symm⟩
  have hself : ∀ j, j ∈ log → ∀ r, r ∈ j.written → ∀ r', r' ∈ j.written → r.1 = r'.1 →
      r.2 = r'.2 := by
    rintro j hmem ⟨k, b⟩ hb ⟨k', b'⟩ hb' rfl
    obtain ⟨t, root, rfl⟩ := hj j hmem
    obtain ⟨x, hx, rfl⟩ := Trie.mem_written.mp hb
    obtain ⟨y, hy, rfl⟩ := Trie.mem_written.mp hb'
    rw [hx] at hy
    rw [Option.some.inj hy]
  have hother : log.Pairwise fun i j =>
      ∀ r, r ∈ i.written → ∀ r', r' ∈ j.written → r.1 = r'.1 → r.2 = r'.2 :=
    h.imp fun hij r hr r' hr' hk => absurd hk (hij r hr r' hr')
  exact fun i hi j hj => hother.forall_of_forall hself hi hj

/-- Commits of handles at different versions write under different node keys. -/
theorem Isolated.unambiguous (h : Isolated log)
    (hj : ∀ j, j ∈ log → ∃ (t : Trie) (root : Digest), j = t.journal root) : Unambiguous log :=
  unambiguous_of_pairwise
    (h.imp fun hij r hr r' hr' hk => hij r hr r' hr' (congrArg NodeKey.version hk)) hj

end Log

namespace Hub

open Log

variable {volume : Volume} {store : Store} {capacity : Nat → Nat} {c : Contents}

theorem exists_handle_of_mem (turns : List Turn) :
    ∀ j, j ∈ ((start volume store capacity c).run turns).journals →
      ∃ (t : Trie) (root : Digest), j = t.journal root := by
  refine foldl_induction (Q := fun _ (h : Hub) => ∀ j, j ∈ h.journals →
    ∃ (t : Trie) (root : Digest), j = t.journal root) ?_ ?_ turns List.prefix_rfl
  · exact fun j hj => absurd hj List.not_mem_nil
  · intro pre turn _ ih j hj
    rw [journals] at hj
    obtain hc | ⟨t, root, m, hc⟩ :=
      commits_after (pre.foldl after (start volume store capacity c)) turn
    · rw [hc] at hj
      exact ih j hj
    · rw [hc, List.map_append, List.mem_append] at hj
      exact hj.elim (ih j) fun hj => ⟨t, root, List.mem_singleton.mp hj⟩

/-- On a store that no deletes are applied to, where no two commits write at one version, no root
digest is the stored form of a node key and the nodes do not collide: every commit can be loaded from
then on, and reads as committed; every handle reads as it should; and a handle is told what it would
be told if, from some moment on, it were alone. -/
theorem isolated (volume : Volume) (store : Store) (capacity : Nat → Nat) (c : Contents)
    (turns : List Turn)
    (hserved : ∀ some, some.Sublist turns → ((start volume store capacity c).run some).Served)
    (hprune : ∀ turn, turn ∈ turns → ∀ n, turn.deed ≠ .prune n)
    (hisolated : Isolated ((start volume store capacity c).run turns).journals)
    (hapart : Apart ((start volume store capacity c).run turns).journals)
    (hfree : ¬ Collides (Hashes ((start volume store capacity c).run turns).journals)) :
    (∀ pre post, pre ++ post <+: turns →
      ∀ j m, (j, m) ∈ ((start volume store capacity c).run pre).commits →
        ((start volume store capacity c).run (pre ++ post)).Serves j.root m) ∧
    (∀ pre, pre <+: turns →
      ∀ t m, (t, m) ∈ ((start volume store capacity c).run pre).handles → t.committed = false →
        ∀ cache key, (t.get key (((start volume store capacity c).run pre).access
          FaultPlan.none cache)).1 = .ok m[key]?) ∧
    ∀ pre post i, pre ++ post = turns →
      i < ((start volume store capacity c).run pre).handles.length →
      (∀ turn, turn ∈ post → turn.own i → turn.plan.reads = none) →
        heard i ((start volume store capacity c).run pre) post =
          heard i ((start volume store capacity c).run pre) (post.filter (Turn.own i)) := by
  have hclean : Clean ((start volume store capacity c).run turns).journals :=
    ⟨hisolated.unambiguous (exists_handle_of_mem turns), hapart, hfree⟩
  have hthroughout : (start volume store capacity c).Throughout Served turns :=
    fun pre hpre => hserved pre hpre.sublist
  have hintact := (intact_start volume store capacity c).run hthroughout hprune hclean
  refine ⟨fun pre post hpre j m hj => ?_, fun pre hpre t m ht hlive cache key => ?_, ?_⟩
  · exact serves_later hthroughout hprune hclean hpre hj
  · obtain ⟨base, T, hc⟩ := (hintact _ hpre).live t m ht hlive
    have hg := (hintact _ hpre).grants (hthroughout _ hpre) FaultPlan.none cache
    exact ((hintact _ hpre).get_answers hg hc key).eq fun hd => hd rfl
  · rintro pre post i rfl hi hcalm
    have hpre : pre <+: pre ++ post := List.prefix_append pre post
    have ht := List.getElem?_eq_getElem hi
    refine ((hintact _ hpre).lockstep ht).heard_eq ?_ ?_ hcalm ?_ ?_
    · intro p hp
      have hrun := hserved (pre ++ p) (hp.sublist.append_left pre)
      rw [run_append] at hrun
      exact hrun
    · intro p hp
      have hrun := hserved (pre ++ p) ((hp.sublist.trans List.filter_sublist).append_left pre)
      rw [run_append] at hrun
      exact hrun
    · exact fun turn hturn => hprune turn (List.mem_append_right _ hturn)
    · rw [run_append] at hclean
      exact hclean

/-- Two handles are opened on one commit. The first removes what the second still reads, and both
commit. -/
def parted : List Turn :=
  [⟨FaultPlan.none, some 0, .create TreePrefix.empty⟩,
    ⟨FaultPlan.none, some 0, .update 0 1 "a".toUTF8 "x".toUTF8⟩,
    ⟨FaultPlan.none, some 0, .commit 0⟩,
    ⟨FaultPlan.none, some 0, .load 0⟩,
    ⟨FaultPlan.none, some 0, .load 0⟩,
    ⟨FaultPlan.none, some 0, .update 1 2 "a".toUTF8 ByteArray.empty⟩,
    ⟨FaultPlan.none, some 0, .commit 1⟩,
    ⟨FaultPlan.none, some 0, .update 2 3 "a".toUTF8 "y".toUTF8⟩,
    ⟨FaultPlan.none, some 0, .commit 2⟩]

theorem isolated_parted :
    (Isolated (blank.run parted).journals ∧ Apart (blank.run parted).journals ∧
      ¬ Collides (Hashes (blank.run parted).journals) ∧
      2 < (blank.run (parted.take 5)).handles.length) ∧
    (∀ j m, (j, m) ∈ (blank.run (parted.take 3)).commits → (blank.run parted).Serves j.root m) ∧
    heard 2 (blank.run (parted.take 5)) (parted.drop 5) =
      heard 2 (blank.run (parted.take 5)) ((parted.drop 5).filter (Turn.own 2)) := by
  have hlog : (Isolated (blank.run parted).journals ∧ Apart (blank.run parted).journals ∧
      Distinct (blank.run parted).journals) ∧ 2 < (blank.run (parted.take 5)).handles.length := by
    decide +kernel
  obtain ⟨⟨hisolated, hapart, hfree⟩, hopen⟩ := hlog
  have hserved : ∀ turns, (blank.run turns).Served := fun turns => (served_blank turns).last
  obtain ⟨hserves, -, hheard⟩ := isolated default default (fun _ => 8) ∅ parted
    (fun some _ => hserved some) (by simp [parted]) hisolated hapart hfree.free
  refine ⟨⟨hisolated, hapart, hfree.free, hopen⟩, ?_, ?_⟩
  · exact hserves (parted.take 3) (parted.drop 3)
      ⟨[], by rw [List.append_nil, List.take_append_drop]⟩
  · exact hheard _ _ 2 (List.take_append_drop 5 parted) hopen (by decide)

end Hub

end VersionedTrie
