import VersionedTrie.Proofs.Batch
import VersionedTrie.Proofs.Changes.Apply
import VersionedTrie.Proofs.Observation

/-! # Journals applied again

The batches of a journal may be applied in any order and any number of times: once the nodes have
been put and the superseded ones deleted, what the store holds is settled (`Journal.settles`). Two
facts make it so. Batches without a key in common may be applied in any order and again
(`WriteBatch.foldl_apply`). And the puts and the deletes of a journal
have no store key in common, for no node key of a handle is dirty and superseded at once, whatever
the handle has read and whatever has been done with it (`Trie.Used.parted`).
-/

set_option autoImplicit false

namespace VersionedTrie

/-! ## Handles -/

namespace Trie

/-- The handle has been opened, for an empty trie or for any root, and worked with: whatever the
store and the cache answered each time, and whether or not the updates were made. -/
inductive Used : Trie → Prop
  | opened (tree : TreePrefix) : Used { empty with tree }
  | loaded {root : Digest} {a : Access} {t : Trie} (h : (load root a).1 = .ok t) : Used t
  | prefixed {t t' : Trie} {b : ByteArray} (h : t.withPrefix b = .ok t') (ht : Used t) : Used t'
  | updated {t : Trie} (version : Version) (key value : ByteArray) (a : Access) (ht : Used t) :
    Used (t.update version key value a).1.2

/-- No node key is dirty and superseded. -/
def Parted (t : Trie) : Prop := ∀ k, k ∈ t.superseded → t.dirty[k]? = none

variable {t : Trie}

theorem parted_of_not_mem (h : ∀ k, k ∉ t.superseded) : t.Parted := fun k hk => absurd hk (h k)

theorem Parted.apply (h : t.Parted) (c : Changes) : (t.apply c).Parted := by
  refine apply_induction (P := Parted) h (fun t k _ ht j hj => ?_) (fun t k x _ ht j hj => ?_)
  · rw [dirty_drop]
    obtain hj | ⟨-, hclean⟩ := (mem_superseded_drop t k j).mp hj
    · rw [ht j hj, ite_self]
    · rw [hclean, ite_self]
  · obtain ⟨hne, hj⟩ := (mem_superseded_add t k j x).mp hj
    rw [dirty_add, if_neg hne, ht j hj]

/-- The step of an update. -/
theorem Parted.update (h : t.Parted) (version : Version) (key value : ByteArray) (a : Access) :
    (t.update version key value a).1.2.Parted := by
  unfold Trie.update
  split
  · exact h
  · cases refusal key value with
    | some e => exact h
    | none =>
      obtain ⟨r, d⟩ := t.plan version key value ⟨a, t.seen⟩
      have hseen : ({ t with seen := d.seen } : Trie).Parted := h
      cases r with
      | error e => exact hseen
      | ok made =>
        cases made with
        | none => exact hseen
        | some made => exact hseen.apply made.1

theorem Used.parted (h : t.Used) : t.Parted := by
  induction h with
  | opened tree => exact parted_of_not_mem fun _ => Std.ExtTreeSet.not_mem_empty
  | loaded h =>
    obtain rfl | ⟨k, -, rfl⟩ := load_eq_ok h
    · exact parted_of_not_mem fun _ => Std.ExtTreeSet.not_mem_empty
    · exact parted_of_not_mem fun _ => Std.ExtTreeSet.not_mem_empty
  | prefixed h _ ih =>
    unfold withPrefix at h
    split at h
    · cases h
    · split at h
      · cases h
      · cases h
        exact ih
  | updated version key value a _ ih => exact ih.update version key value a

end Trie

/-! ## Journals -/

namespace Journal

/-- One of the batches that a journal gives. -/
inductive Portion where
  /-- The nodes and the anchor, on request after the deletes. -/
  | nodes (withDeletes : Bool)
  | deletes

namespace Portion

def batch (j : Journal) : Portion → WriteBatch
  | nodes withDeletes => j.batch withDeletes
  | deletes => j.deletes

def Puts : Portion → Prop
  | nodes _ => True
  | deletes => False

def Deletes : Portion → Prop
  | nodes withDeletes => withDeletes = true
  | deletes => True

/-- The batch as puts, for which `true` stands, and deletes. -/
def word : Portion → List Bool
  | nodes false => [true]
  | nodes true => [false, true]
  | deletes => [false]

theorem mem_word (p : Portion) : (true ∈ p.word ↔ p.Puts) ∧ (false ∈ p.word ↔ p.Deletes) := by
  cases p with
  | nodes withDeletes => cases withDeletes <;> simp [word, Puts, Deletes]
  | deletes => simp [word, Puts, Deletes]

theorem apply_batch (j : Journal) (p : Portion) (m : Contents) :
    (p.batch j).apply m =
      p.word.foldl (fun m first => WriteBatch.apply (if first then j.batch false else j.deletes) m)
        m := by
  cases p with
  | nodes withDeletes => cases withDeletes <;> simp [word, batch, Journal.batch, WriteBatch.apply_append]
  | deletes => simp [word, batch]

end Portion

/-- No store key of the journal is put and deleted. -/
theorem parted_deletes {j : Journal} (hdirty : ∀ k b, (k, b) ∈ j.written → k ∉ j.superseded)
    (hanchor : ∀ k, k ∈ j.superseded → k.encode ≠ j.root.bytes) :
    (j.batch false).Parted j.deletes := by
  intro op hop op' hop'
  obtain ⟨k, hk, rfl⟩ := List.mem_map.mp hop'
  rw [Std.ExtTreeSet.mem_toList] at hk
  rw [Journal.batch, if_neg Bool.false_ne_true, List.nil_append] at hop
  obtain hop | hop := List.mem_append.mp hop
  · obtain ⟨⟨k', b⟩, hk', rfl⟩ := List.mem_map.mp hop
    intro e
    obtain rfl : k' = k := NodeKey.encode_inj.mp e
    exact hdirty k' b hk' hk
  · unfold anchorPut at hop
    split at hop
    · rw [List.mem_singleton.mp hop]
      exact (hanchor k hk).symm
    · exact absurd hop List.not_mem_nil

theorem written_journal {t : Trie} (ht : t.Parted) (root : Digest) {k : NodeKey} {b : ByteArray}
    (hk : (k, b) ∈ (t.journal root).written) : k ∉ (t.journal root).superseded := by
  obtain ⟨⟨k', x⟩, hmem, he⟩ := List.mem_map.mp hk
  cases he
  intro hsuperseded
  rw [Std.ExtTreeMap.mem_toList_iff_getElem?_eq_some, ht k hsuperseded] at hmem
  cases hmem

/-- Whatever is applied of a journal, the puts count if they are among it, and so do the deletes. -/
theorem foldl_portions {j : Journal} (hparted : (j.batch false).Parted j.deletes)
    {portions : List Portion} (hputs : ∃ p ∈ portions, p.Puts)
    (hdeletes : ∃ p ∈ portions, p.Deletes) (held : Contents) :
    portions.foldl (fun m p => (p.batch j).apply m) held =
      j.deletes.apply ((j.batch false).apply held) := by
  have hword : portions.foldl (fun m p => (p.batch j).apply m) held =
      (portions.flatMap Portion.word).foldl
        (fun m first => WriteBatch.apply (if first then j.batch false else j.deletes) m) held := by
    rw [List.foldl_flatMap]
    simp only [Portion.apply_batch]
  obtain ⟨p, hp, hputs⟩ := hputs
  obtain ⟨q, hq, hqdeletes⟩ := hdeletes
  have htrue : true ∈ portions.flatMap Portion.word :=
    List.mem_flatMap.mpr ⟨p, hp, p.mem_word.1.mpr hputs⟩
  have hfalse : false ∈ portions.flatMap Portion.word :=
    List.mem_flatMap.mpr ⟨q, hq, q.mem_word.2.mpr hqdeletes⟩
  rw [hword, WriteBatch.foldl_apply hparted, if_pos htrue, if_pos hfalse]

end Journal

/-! ## Stores -/

namespace Access

variable {c : Access} {held : Contents}

/-- A store in memory that holds some contents and takes every batch. -/
structure Accepts (c : Access) (held : Contents) : Prop where
  medium : c.store.medium = .memory held
  willing : c.store.plan.writes = none

theorem Accepts.write (h : c.Accepts held) (batch : WriteBatch) :
    ∃ d, Access.write batch c = (.ok (), d) ∧ d.Accepts (batch.apply held) := by
  refine ⟨c.writeOnce.written batch, ?_, ?_, ?_⟩
  · rw [run_write, h.willing]
    rfl
  · show (c.writeOnce.store.write batch c.volume).1.medium = _
    rw [Store.write, show c.writeOnce.store.medium = .memory held from h.medium]
  · show (c.writeOnce.store.write batch c.volume).1.plan.writes = none
    rw [Trie.plan_write, writeOnce, h.willing]
    rfl

theorem Accepts.portions (h : c.Accepts held) (j : Journal) (portions : List Journal.Portion) :
    ∃ d, forM portions (fun p => Access.write (p.batch j)) c = (.ok ⟨⟩, d) ∧
      d.Accepts (portions.foldl (fun m p => (p.batch j).apply m) held) := by
  induction portions generalizing c held with
  | nil => exact ⟨c, rfl, h⟩
  | cons p portions ih =>
    obtain ⟨d, hrun, hd⟩ := h.write (p.batch j)
    obtain ⟨e, hrest, he⟩ := ih hd
    refine ⟨e, ?_, he⟩
    rw [List.forM_cons, run_bind, hrun]
    exact hrest

theorem Accepts.prune (h : c.Accepts held) (j : Journal) :
    ∃ d, j.prune c = (.ok j.superseded.size, d) ∧ d.Accepts (j.deletes.apply held) := by
  unfold Journal.prune
  by_cases hcount : 0 < j.superseded.size
  · obtain ⟨d, hrun, hd⟩ := h.write j.deletes
    refine ⟨d, ?_, hd⟩
    simp only [if_pos hcount, run_bind, hrun]
    rfl
  · have hnone : j.deletes = [] := by
      rw [Journal.deletes, List.map_eq_nil_iff, ← List.length_eq_zero_iff,
        Std.ExtTreeSet.length_toList]
      omega
    refine ⟨c, ?_, ?_⟩
    · simp only [if_neg hcount]
      rfl
    · rw [hnone]
      exact h

end Access

/-! ## Retrying -/

namespace Journal

variable {t t' : Trie} {a b : Access} {j : Journal}

/-- Whatever handle a commit has ended, of its journal the nodes and the deletes may be applied in
any order and any number of times, together or apart: if both have been applied at least once, the
store holds what putting the nodes and then pruning leaves there. -/
theorem settles (ht : t.Used) (hcommit : t.commit a = (.ok (j, t'), b))
    (hanchor : ∀ k, k ∈ j.superseded → k.encode ≠ j.root.bytes) {portions : List Portion}
    (hputs : ∃ p ∈ portions, p.Puts) (hdeletes : ∃ p ∈ portions, p.Deletes) (held : Contents) :
    portions.foldl (fun m p => (p.batch j).apply m) held =
        j.deletes.apply ((j.batch false).apply held) ∧
      ∀ c : Access, c.Accepts held → ∃ d d',
        forM portions (fun p => Access.write (p.batch j)) c = (.ok ⟨⟩, d) ∧
        (Access.write (j.batch false) >>= fun _ => j.prune) c = (.ok j.superseded.size, d') ∧
        d.store.medium = d'.store.medium := by
  have hparted : (j.batch false).Parted j.deletes := by
    refine parted_deletes (fun k bytes hk => ?_) hanchor
    obtain ⟨e, b, hrun, -, -⟩ | ⟨root, b, -, -, -, hrun⟩ := t.commit_cases a
    · rw [hrun] at hcommit
      cases hcommit
    · rw [hrun] at hcommit
      cases hcommit
      exact written_journal ht.parted root hk
  have hsettled := foldl_portions hparted hputs hdeletes held
  refine ⟨hsettled, fun c hc => ?_⟩
  obtain ⟨d, hportions, hd⟩ := hc.portions j portions
  obtain ⟨e, hwrite, he⟩ := hc.write (j.batch false)
  obtain ⟨d', hprune, hd'⟩ := he.prune j
  refine ⟨d, d', hportions, ?_, ?_⟩
  · rw [run_bind, hwrite]
    exact hprune
  · rw [hd.medium, hd'.medium, hsettled]

/-- A handle with one leaf. -/
def planted : Trie :=
  (({ Trie.empty with tree := .long } : Trie).update 0 "a".toUTF8 "1".toUTF8 default).1.2

/-- The leaf has been committed. -/
def ground : Access := (planted.commit default).2

/-- The leaf is loaded again and given another value at a later version, and that is committed. -/
def regrown? : Option (Trie × Journal) := do
  let (j, _) ← (planted.commit default).1.toOption
  let t ← (Trie.load j.root ground).1.toOption
  let t := (t.update 1 "a".toUTF8 "2".toUTF8 ground).1.2
  let (j, _) ← (t.commit ground).1.toOption
  pure (t, j)

/-- Deletes before there is anything to delete, then all at once, then the nodes again. -/
def hasty : List Portion := [.deletes, .nodes true, .nodes false]

theorem settles_hasty :
    ∃ (t : Trie) (j : Journal) (t' : Trie) (b : Access),
      (t.Used ∧ t.commit ground = (.ok (j, t'), b) ∧
      (∀ k, k ∈ j.superseded → k.encode ≠ j.root.bytes) ∧ (∃ p ∈ hasty, p.Puts) ∧
      (∃ p ∈ hasty, p.Deletes)) ∧ NodeKey.ofPath 0 .long [] ∈ j.superseded ∧
    ∀ held : Contents, hasty.foldl (fun m p => (p.batch j).apply m) held =
        j.deletes.apply ((j.batch false).apply held) ∧
      ∀ c : Access, c.Accepts held → ∃ d d',
        forM hasty (fun p => Access.write (p.batch j)) c = (.ok ⟨⟩, d) ∧
        (Access.write (j.batch false) >>= fun _ => j.prune) c = (.ok j.superseded.size, d') ∧
        d.store.medium = d'.store.medium := by
  have hcomputed : regrown?.any (fun r => NodeKey.ofPath 0 .long [] ∈ r.2.superseded ∧
      ∀ k ∈ r.2.superseded.toList, k.encode ≠ r.2.root.bytes) = true := by
    decide +kernel
  obtain ⟨⟨t, j⟩, hgrown, hj⟩ := (Option.any_eq_true _ _).mp hcomputed
  obtain ⟨hmem, hanchor⟩ := of_decide_eq_true hj
  simp only [regrown?, Option.bind_eq_bind, Option.bind_eq_some_iff, Option.pure_def,
    Option.some.injEq, Prod.exists, Prod.mk.injEq] at hgrown
  obtain ⟨i, u, -, s, hloaded, j', t', hcommit, rfl, rfl⟩ := hgrown
  have hused := Trie.Used.updated 1 "a".toUTF8 "2".toUTF8 ground
    (.loaded (eq_ok_of_toOption hloaded))
  generalize (s.update 1 "a".toUTF8 "2".toUTF8 ground).1.2 = t at hused hcommit
  have hrun : t.commit ground = (.ok (j', t'), (t.commit ground).2) :=
    Prod.ext (eq_ok_of_toOption hcommit) rfl
  have hspared : ∀ k, k ∈ j'.superseded → k.encode ≠ j'.root.bytes := fun k hk =>
    hanchor k (Std.ExtTreeSet.mem_toList.mpr hk)
  have hputs : ∃ p ∈ hasty, p.Puts := ⟨.nodes false, by simp [hasty], trivial⟩
  have hdeletes : ∃ p ∈ hasty, p.Deletes := ⟨.deletes, by simp [hasty], trivial⟩
  exact ⟨t, j', t', _, ⟨hused, hrun, hspared, hputs, hdeletes⟩, hmem,
    settles hused hrun hspared hputs hdeletes⟩

end Journal

end VersionedTrie
