import VersionedTrie.Proofs.Handle
import VersionedTrie.Inclusion
import VersionedTrie.Journal

/-! # What only reads

Whatever a handle stands for, asking it, updating it and loading a root only read: the store and the
cache hold afterwards what they held before, and no batch has been tried (`Access.Reads`). This is
said of every action apart from what it answers (`Preserves`), so it needs no tree.
-/

set_option autoImplicit false

namespace VersionedTrie

/-! ## Actions that preserve -/

section Preserves

variable {σ α β : Type} {R : σ → σ → Prop}

/-- However the action ends, the state it leaves is related to the one it found. -/
def Preserves (R : σ → σ → Prop) (x : ExceptT Error (StateM σ) α) : Prop := ∀ s, R s (x s).2

variable [IsPreorder σ R]

theorem preserves_pure (a : α) : Preserves R (pure a : ExceptT Error (StateM σ) α) :=
  fun s => refl_of R s

theorem preserves_throw (e : Error) : Preserves R (throw e : ExceptT Error (StateM σ) α) :=
  fun s => refl_of R s

theorem Preserves.bind {x : ExceptT Error (StateM σ) α} {f : α → ExceptT Error (StateM σ) β}
    (hx : Preserves R x) (hf : ∀ a, Preserves R (f a)) : Preserves R (x >>= f) := by
  intro s
  have hs := hx s
  rw [run_bind]
  cases hr : x s with
  | mk o s' =>
    rw [hr] at hs
    cases o with
    | ok a => exact trans_of R hs (hf a s')
    | error e => exact hs

theorem preserves_descend {load : NodeKey → ExceptT Error (StateM σ) Node}
    (h : ∀ k, Preserves R (load k)) (root : Option NodeKey) (path : Path) (steps : List Step) :
    Preserves R (descend load root path steps) := by
  induction path generalizing root steps with
  | nil =>
    cases root with
    | none => exact preserves_pure _
    | some k =>
      rw [descend]
      refine (h k).bind fun x => ?_
      cases x <;> exact preserves_pure _
  | cons n rest ih =>
    cases root with
    | none => exact preserves_pure _
    | some k =>
      rw [descend]
      refine (h k).bind fun x => ?_
      cases x with
      | leaf l => exact preserves_pure _
      | branch b => exact ih _ _

end Preserves

/-! ## Reading through an access -/

/-- The second access is the first one after some reading, with no batch tried. -/
structure Access.Reads (a b : Access) : Prop where
  agrees : a.Agrees b
  batches : b.store.plan.writes = a.store.plan.writes

instance : IsPreorder Access Access.Reads where
  refl a := ⟨refl_of Access.Agrees a, rfl⟩
  trans _ _ _ h h' := ⟨trans_of Access.Agrees h.agrees h'.agrees, h'.batches.trans h.batches⟩

theorem preserves_read (b : ByteArray) : Preserves Access.Reads (Access.read b) := by
  intro a
  rw [Access.run_read]
  split <;> exact ⟨a.agrees_readOnce, rfl⟩

theorem preserves_readNode (k : NodeKey) : Preserves Access.Reads (readNode k) := by
  refine (preserves_read k.encode).bind fun found => ?_
  cases found with
  | none => exact preserves_throw _
  | some b =>
    simp only
    cases Node.decode b with
    | ok x => exact preserves_pure x
    | error defect => exact preserves_throw _

theorem preserves_readAnchor (root : Digest) : Preserves Access.Reads (readAnchor root) := by
  refine (preserves_read root.bytes).bind fun found => ?_
  cases found with
  | none => exact preserves_throw _
  | some b =>
    simp only
    cases NodeKey.decode b with
    | ok k => exact preserves_pure k
    | error defect => exact preserves_throw _

theorem preserves_cached (k : NodeKey) : Preserves Access.Reads (Access.cached k) := by
  intro a
  refine ⟨(a.cached_answers k).1, ?_⟩
  obtain ⟨volume, store, cache⟩ := a
  cases cache <;> rfl

theorem preserves_readThroughCache (k : NodeKey) :
    Preserves Access.Reads (readThroughCache k) := by
  refine (preserves_cached k).bind fun found => ?_
  cases found with
  | none => exact preserves_readNode k
  | some x => exact preserves_pure x

namespace Trie

variable (t : Trie)

theorem preserves_fetch (k : NodeKey) : Preserves Access.Reads (t.fetch k) := by
  unfold fetch
  cases t.dirty[k]? with
  | some x => exact preserves_pure x
  | none =>
    cases t.seen[k]? with
    | some x => exact preserves_pure x
    | none => exact preserves_readThroughCache k

theorem preserves_ensureLive : Preserves Access.Reads t.ensureLive := by
  unfold ensureLive
  split
  · exact preserves_throw _
  · exact preserves_pure _

theorem rootDigest_closed {t : Trie} (h : t.committed = true) (a : Access) :
    t.rootDigest a = (.error .staleHandle, a) := by
  unfold rootDigest ensureLive
  rw [if_pos h]
  rfl

theorem live_of_rootDigest {t : Trie} {a : Access} {d : Digest}
    (h : (t.rootDigest a).1 = .ok d) : t.committed = false := by
  cases hc : t.committed with
  | false => rfl
  | true =>
    rw [rootDigest_closed hc] at h
    cases h

theorem preserves_rootDigest : Preserves Access.Reads t.rootDigest := by
  refine t.preserves_ensureLive.bind fun _ => ?_
  cases t.root with
  | none => exact preserves_pure _
  | some k => exact (t.preserves_fetch k).bind fun x => preserves_pure _

theorem preserves_get (key : ByteArray) : Preserves Access.Reads (t.get key) := by
  refine t.preserves_ensureLive.bind fun _ => ?_
  split
  · exact preserves_pure _
  · refine (preserves_descend t.preserves_fetch _ _ _).bind fun w => ?_
    obtain ⟨steps, landing⟩ := w
    cases landing <;> exact preserves_pure _

theorem preserves_prove (key : ByteArray) : Preserves Access.Reads (t.prove key) := by
  refine t.preserves_ensureLive.bind fun _ => ?_
  refine (preserves_descend t.preserves_fetch _ _ _).bind fun w => ?_
  obtain ⟨steps, landing⟩ := w
  cases landing with
  | leaf k l =>
    simp only
    split <;> exact preserves_pure _
  | vacant => exact preserves_pure _
  | exhausted k b => exact preserves_pure _

theorem preserves_load (root : Digest) : Preserves Access.Reads (load root) := by
  unfold load
  split
  · exact preserves_pure _
  · refine (preserves_readAnchor root).bind fun k => (preserves_readNode k).bind fun x => ?_
    split
    · exact preserves_pure _
    · exact preserves_throw _

end Trie

/-! ## Planning an update -/

/-- The second draft is the first one after some reading. -/
def Draft.Reads (d d' : Draft) : Prop := d.access.Reads d'.access

instance : IsPreorder Draft Draft.Reads where
  refl d := refl_of Access.Reads d.access
  trans _ _ _ h h' := trans_of Access.Reads h h'

theorem preserves_recall (t : Trie) (k : NodeKey) : Preserves Draft.Reads (t.recall k) := by
  intro d
  rw [Draft.run_recall]
  cases t.dirty[k]? with
  | some x => exact refl_of Draft.Reads d
  | none =>
    cases d.seen[k]? with
    | some x => exact refl_of Draft.Reads d
    | none =>
      have hread := preserves_readThroughCache k d.access
      cases hr : readThroughCache k d.access with
      | mk o a =>
        rw [hr] at hread
        cases o <;> exact hread

section Plan

variable {R : Draft → Draft → Prop} [IsPreorder Draft R] {t : Trie}
  (hrecall : ∀ k, Preserves R (t.recall k))
include hrecall

theorem preserves_loneLeaf (s : Site) (step : Step) (below : Option Node) (n : Nibble) (c : Child) :
    Preserves R (loneLeaf t s step below n c) := by
  have hstored : Preserves R (do
      let key := step.key.child c.version n
      let node ← t.recall key
      pure (key, node)) :=
    (hrecall _).bind fun x => preserves_pure _
  unfold loneLeaf
  cases below with
  | none => exact hstored
  | some x =>
    simp only
    split
    · exact preserves_pure _
    · exact hstored

theorem preserves_withdraw (s : Site) (steps : List Step) (c : Changes) (below : Option Node) :
    Preserves R (withdraw t s steps c below) := by
  induction steps generalizing c below with
  | nil => exact preserves_pure _
  | cons step above ih =>
    rw [withdraw_cons]
    split
    · exact ih _ _
    · cases (step.renewed s below).onlyLeaf? with
      | none => exact ih _ _
      | some r =>
        refine (preserves_loneLeaf hrecall s step below r.1 r.2).bind fun r => ?_
        simp only
        split
        · exact ih _ _
        · exact preserves_throw _

/-- What is kept whenever a node is recalled is kept by planning an update. -/
theorem preserves_plan (version : Version) (key value : ByteArray) :
    Preserves R (t.plan version key value) := by
  refine (preserves_descend hrecall _ _ _).bind fun w => ?_
  split
  · obtain ⟨steps, landing⟩ := w
    cases landing with
    | vacant => exact preserves_pure _
    | exhausted k b => exact preserves_pure _
    | leaf k l =>
      simp only [remove]
      split
      · exact (preserves_withdraw hrecall _ _ _ _).bind fun r => preserves_pure _
      · exact preserves_pure _
  · split
    · exact preserves_pure _
    · exact preserves_throw _

end Plan

theorem reads_update (t : Trie) (version : Version) (key value : ByteArray) (a : Access) :
    a.Reads (t.update version key value a).2 := by
  unfold Trie.update
  split
  · exact refl_of Access.Reads a
  · split
    · exact refl_of Access.Reads a
    · exact preserves_plan (preserves_recall t) version key value ⟨a, t.seen⟩

end VersionedTrie
