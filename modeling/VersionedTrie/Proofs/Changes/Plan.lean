import VersionedTrie.Proofs.Changes.Insertion
import VersionedTrie.Proofs.Changes.Removal
import VersionedTrie.Trie.Update

/-! # Planning an update

The plan of an update is a walk followed by an insertion or a removal, so it leads from the tree of
the handle to the tree in which the path has the new value (`plan_answers`). It is refused where the
path and the key of some leaf are nested, and otherwise fails only if a node is not found or a fault
is planned.
-/

set_option autoImplicit false

namespace VersionedTrie

open VersionedTrie.Tree

/-- The changes lead from the tree `T` to the compact tree `T'` whose leaves are those of `T` with
the given value at the path; the empty value stands for no leaf. -/
structure Changes.Sets (c : Changes) (tree : TreePrefix) (version : Version) (path : Path)
    (value : ByteArray) (T T' : Tree) : Prop where
  patches : c.Patches tree [] T T'
  stamped : c.Stamped version
  settled : T'.Settled version
  compact : T'.Compact []
  has : ∀ l, T'.Has l ↔ (value.size ≠ 0 ∧ l = Leaf.make path value) ∨ (T.Has l ∧ l.key ≠ path)

section Plan

variable {t : Trie} {s : Site} {d : Draft} {T : Tree} {version : Version} {key value : ByteArray}

/-- What the removal of a path makes of a tree: nothing, or changes, and whether a root is left. -/
def Removes (s : Site) (path : Path) (value : ByteArray) (T : Tree) :
    Option (Changes × Bool) → Prop
  | none => ∀ l, T.Has l → l.key ≠ path
  | some (c, rooted) =>
    ∃ T', c.Sets s.tree s.version path value T T' ∧ rooted = T'.node?.isSome

theorem remove_answers {w : Descent} {path rest : Path} {z : Context} {S : Tree}
    (hv : value.size = 0) (hT : T.Compact []) (hp : s.path.toPath = path)
    (hw : w.Walked s.tree T path z S rest) :
    ∃ r, Removes s path value T r ∧ ∀ t d, T.Sound s.tree (Draft.find t d) →
      Answers (Draft.Agrees t) (d.Risky t s.tree T) (remove t s path w) d (.ok r) := by
  have hnone : w.value? path = none → ∀ l, T.Has l → l.key ≠ path := by
    intro hn l hl hkey
    rw [hw.value?_eq_some hT hl hkey] at hn
    cases hn
  obtain ⟨steps, landing⟩ := w
  have hland := hw.lands
  have hsteps := hw.steps
  simp only at hland hsteps
  cases hland with
  | vacant => exact ⟨none, hnone rfl, fun _ _ _ => answers_pure⟩
  | exhausted => exact ⟨none, hnone rfl, fun _ _ _ => answers_pure⟩
  | @leaf v l =>
    simp only [remove]
    by_cases hkey : l.key = path
    · have hplug := hw.plug
      subst hplug
      simp only [if_pos hkey, hsteps]
      have hpatch : (Changes.empty.retire (.ofPath v s.tree z.path)).Patches s.tree z.path
          (.leaf v l) .vacant := by
        refine (Changes.writes_vacant (Changes.written_retire_empty _)).patches
          (Changes.mem_retired_leaf (Changes.retired_retire_empty _)) ?_
        rw [Changes.retired_retire_empty]
        exact List.pairwise_singleton _ _
      obtain ⟨c, hc, hstamp, hanswers⟩ := withdraw_answers (hp.trans hw.path) hpatch (.inl rfl)
        (Changes.stamped_empty.retire _)
      refine ⟨some (c, (z.withdraw s.version .vacant).node?.isSome),
        ⟨_, ⟨hc, hstamp, Context.settled_withdraw (.inl rfl), ?_, fun m => ?_⟩, rfl⟩,
        fun t d hs => (hanswers t d hs).bind_ok fun _ _ => answers_pure⟩
      · exact Context.compact_withdraw s.version hT .vacant
      · rw [Context.has_withdraw, Context.has_plug, has_leaf]
        constructor
        · rintro (hm | hm)
          · exact absurd hm not_has_vacant
          · exact .inr ⟨.inr hm, (hw.parts hT hm).ne⟩
        · rintro (⟨hne, _⟩ | ⟨rfl | hm, hne⟩)
          · exact absurd hv hne
          · exact absurd hkey hne
          · exact .inr hm
    · simp only [if_neg hkey]
      exact ⟨none, hnone (if_neg hkey), fun _ _ _ => answers_pure⟩

theorem insert_sets {w : Descent} {path rest : Path} {z : Context} {S : Tree} (hv : value.size ≠ 0)
    (hT : T.Compact []) (hp : s.path.toPath = path) (hw : w.Walked s.tree T path z S rest) :
    match s.insert (Leaf.make path value) w with
    | .ok c =>
      (∃ T', c.Sets s.tree s.version path value T T' ∧ T'.node?.isSome) ∧
        ∀ l, T.Has l → ¬ Path.Nested l.key path
    | .error e => (∃ defect, e = .invalidKey defect) ∧ ∃ l, T.Has l ∧ Path.Nested l.key path := by
  have hleaf : s.path.toPath = (Leaf.make path value).key := hp
  have h := s.insert_spec hleaf hw hT
  cases hr : s.insert (Leaf.make path value) w with
  | error e =>
    rw [hr] at h
    exact h
  | ok c =>
    rw [hr] at h
    obtain ⟨T', hc, hplants⟩ := h
    refine ⟨⟨T', ⟨hc, Site.stamped_insert hr, .inr hplants.version?, hplants.compact,
      fun l => ?_⟩, ?_⟩, hplants.apart⟩
    · rw [hplants.has, and_iff_right hv]
      exact Iff.rfl
    · cases T' with
      | vacant => cases hplants.version?
      | leaf => rfl
      | branch => rfl

/-- What the plan of an update of the tree `T` is: changes that set the key, or a refusal. -/
def Plans (tree : TreePrefix) (version : Version) (key value : ByteArray) (T : Tree) :
    Except Error (Option (Changes × Bool)) → Prop
  | .ok none => value.size = 0 ∧ ∀ l, T.Has l → l.key ≠ Path.ofKey key
  | .ok (some (c, rooted)) =>
    (∃ T', c.Sets tree version (Path.ofKey key) value T T' ∧ rooted = T'.node?.isSome) ∧
      (value.size ≠ 0 → ∀ l, T.Has l → ¬ Path.Nested l.key (Path.ofKey key))
  | .error e => value.size ≠ 0 ∧ (∃ defect, e = .invalidKey defect) ∧
    ∃ l, T.Has l ∧ Path.Nested l.key (Path.ofKey key)

/-- The plan of an update is for the tree to say; it fails otherwise only where a node is not found
or a fault is planned. -/
theorem plan_answers (tree : TreePrefix) (version : Version) (key value : ByteArray)
    (hT : T.Compact []) :
    ∃ r, Plans tree version key value T r ∧
      ∀ t d, t.tree = tree → t.root = T.key? tree [] → T.Sound tree (Draft.find t d) →
        Answers (Draft.Agrees t) (d.Risky t tree T) (t.plan version key value) d r := by
  obtain ⟨w, z, S, rest, hw, hwalk⟩ := walk_answers tree T (Path.ofKey key)
  have hdescend : ∀ t d, t.tree = tree → t.root = T.key? tree [] → T.Sound tree (Draft.find t d) →
      Answers (Draft.Agrees t) (d.Risky t tree T) (descend t.recall t.root (Path.ofKey key) []) d
        (.ok w) := by
    intro t d _ hroot hs
    rw [hroot]
    refine hwalk hs fun d' k hd => ?_
    rw [← hd.find]
    exact (d'.recall_answers t k).mono hd.access.reads
  have hpath : (StoredPath.ofPath (Path.ofKey key)).toPath = Path.ofKey key :=
    StoredPath.toPath_ofPath _
  by_cases hv : value.size = 0
  · obtain ⟨r, hr, hremove⟩ :=
      remove_answers (s := ⟨version, tree, .ofPath (Path.ofKey key)⟩) hv hT hpath hw
    refine ⟨.ok r, ?_, fun t d htree hroot hs => ?_⟩
    · cases r with
      | none => exact ⟨hv, hr⟩
      | some r => exact ⟨hr, fun hne => absurd hv hne⟩
    · refine (hdescend t d htree hroot hs).bind_ok fun d' hd => ?_
      subst htree
      simp only [if_pos hv]
      exact (hremove t d' (by rw [hd.find]; exact hs)).mono hd.risky
  · have hinsert := insert_sets (s := ⟨version, tree, .ofPath (Path.ofKey key)⟩) hv hT hpath hw
    have hanswers : ∀ t d, t.tree = tree → t.root = T.key? tree [] →
        T.Sound tree (Draft.find t d) →
        Answers (Draft.Agrees t) (d.Risky t tree T) (t.plan version key value) d
          ((Site.insert ⟨version, tree, .ofPath (Path.ofKey key)⟩
            (Leaf.make (Path.ofKey key) value) w).map fun c => some (c, true)) := by
      intro t d htree hroot hs
      refine (hdescend t d htree hroot hs).bind_ok fun d' _ => ?_
      subst htree
      simp only [if_neg hv]
      cases Site.insert ⟨version, t.tree, .ofPath (Path.ofKey key)⟩
        (Leaf.make (Path.ofKey key) value) w with
      | ok c => exact answers_pure
      | error e => exact answers_throw
    refine ⟨_, ?_, hanswers⟩
    cases hr : Site.insert ⟨version, tree, .ofPath (Path.ofKey key)⟩
      (Leaf.make (Path.ofKey key) value) w with
    | ok c =>
      rw [hr] at hinsert
      obtain ⟨⟨T', hc, hsome⟩, hapart⟩ := hinsert
      exact ⟨⟨T', hc, hsome.symm⟩, fun _ => hapart⟩
    | error e =>
      rw [hr] at hinsert
      exact ⟨hv, hinsert⟩

end Plan

end VersionedTrie
