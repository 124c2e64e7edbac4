import VersionedTrie.Proofs.Changes.Frame
import VersionedTrie.Proofs.Observation

/-! # Copying on write

What an update does to a session (`Session.Reworks`): every node that was reached
beside the path of the key is reached as before, under the same node key and with the same content,
so that it is shared between the trie before and the trie after. The only exception is a leaf that a
removal promotes to a shorter path. What becomes dirty has the version of the update and lies on the
path, but for one leaf that a split pushes down, and what is superseded was reached before. Removing
an absent key changes nothing.

This holds at every point of a linear history (`Session.reworks`), whatever versions are used.
-/

set_option autoImplicit false

namespace VersionedTrie

open VersionedTrie.Tree

namespace Session

/-- What an update of the key at the version makes of a session. -/
structure Reworks (version : Version) (key value : ByteArray) (s s' : Session) : Prop where
  /-- Beside the path every node stays, but for one leaf that is promoted. -/
  kept : ∃ promoted : Option NodeKey, ∀ k, s.Reaches k → ¬ k.path <+: Path.ofKey key →
    (s'.Reaches k ∧ s'.fetched k = s.fetched k) ∨
      (promoted = some k ∧ value.size = 0 ∧ ∃ l j, s.fetched k = .ok (.leaf l) ∧ s'.Reaches j ∧
        s'.fetched j = .ok (.leaf l) ∧ j.version = version ∧ j.path <+: Path.ofKey key ∧
        j.path <+: k.path ∧ j.path ≠ k.path)
  /-- On the path nodes are written at the version, and beside it one leaf that is pushed down. -/
  fresh : ∃ pushed : Option NodeKey, ∀ (k : NodeKey) x, s'.trie.dirty[k]? = some x →
    s.trie.dirty[k]? = some x ∨ (k.version = version ∧ (k.path <+: Path.ofKey key ∨
      (pushed = some k ∧ value.size ≠ 0 ∧ ∃ l j, x = .leaf l ∧ l.key ≠ Path.ofKey key ∧
        s.Reaches j ∧ s.fetched j = .ok (.leaf l) ∧ j.path <+: Path.ofKey key ∧
        j.path <+: k.path ∧ j.path ≠ k.path)))
  superseded : ∀ k, k ∈ s'.trie.superseded → k ∈ s.trie.superseded ∨ s.Reaches k
  absent : value.size = 0 → s.get key = .ok none → s'.trie.root = s.trie.root ∧
    s'.trie.dirty = s.trie.dirty ∧ s'.trie.superseded = s.trie.superseded

variable {s s' : Session} {version : Version} {key value : ByteArray}

/-- Nothing is changed but what the handle remembers and reads through. -/
theorem reworks_of_eq (hroot : s'.trie.root = s.trie.root) (hdirty : s'.trie.dirty = s.trie.dirty)
    (hsuperseded : s'.trie.superseded = s.trie.superseded) (hfetched : s'.fetched = s.fetched) :
    Reworks version key value s s' where
  kept := by
    refine ⟨none, fun k hk _ => .inl ⟨?_, by rw [hfetched]⟩⟩
    rw [reaches_iff, hfetched, hroot, ← reaches_iff]
    exact hk
  fresh := ⟨none, fun k x hk => .inl (by rwa [hdirty] at hk)⟩
  superseded := fun k hk => .inl (by rwa [hsuperseded] at hk)
  absent := fun _ _ => ⟨hroot, hdirty, hsuperseded⟩

/-- Changes that follow the walk rework the session. -/
theorem reworks_of_follows {tree : TreePrefix} {w : Descent} {T T' : Tree} {c : Changes}
    (h : c.Follows s.fetched tree version (Path.ofKey key) value w T T')
    (hleaves : c.Leaves s.fetched s'.fetched) (hroot : s.trie.root = T.key? tree [])
    (hroot' : s'.trie.root = T'.key? tree [])
    (hdirty : ∀ (k : NodeKey) x, s'.trie.dirty[k]? = some x →
      s.trie.dirty[k]? = some x ∨ c.written[k]? = some x)
    (hsuperseded : ∀ k, k ∈ s'.trie.superseded → k ∈ s.trie.superseded ∨ k ∈ c.retired)
    (hcame : value.size = 0 → s.get key ≠ .ok none) : Reworks version key value s s' := by
  have hreaches (k : NodeKey) : s.Reaches k ↔ Reached s.fetched (T.key? tree []) k := by
    rw [reaches_iff, hroot]
  have hreaches' (k : NodeKey) : s'.Reaches k ↔ Reached s'.fetched (T'.key? tree []) k := by
    rw [reaches_iff, hroot']
  refine ⟨?_, ?_, fun k hk => (hsuperseded k hk).imp_right fun hr => ?_,
    fun hv hnone => absurd hnone (hcame hv)⟩
  · obtain ⟨promoted, hpromoted⟩ := h.exists_promoted
    refine ⟨promoted, fun k hk hoff => ?_⟩
    rw [hreaches] at hk
    obtain ⟨x, hx⟩ := hk.owns h.sound
    refine (hpromoted k x hx hoff).imp ?_ ?_
    · rintro ⟨hspared, hx'⟩
      rw [hreaches']
      exact ⟨h.reached_of_spared hleaves hk hx', hleaves.spared k hspared⟩
    · rintro ⟨hk, hv, l, rfl, hretired, j, hj, hpath, hjk, hne⟩
      obtain ⟨y, hy⟩ := h.along.found k hretired
      rw [h.sound k _ y hx hy] at hy
      refine ⟨hk, hv, l, j, hy, ?_, hleaves.written j _ hj, h.sets.stamped j _ hj, hpath, hjk, hne⟩
      rw [hreaches']
      exact h.reached_of_written hleaves hj hpath
  · obtain ⟨pushed, hpushed⟩ := h.exists_pushed
    refine ⟨pushed, fun k x hk => (hdirty k x hk).imp_right fun hw => ⟨h.sets.stamped k x hw, ?_⟩⟩
    refine or_iff_not_imp_left.mpr fun hoff => ?_
    obtain ⟨hk, hv, l, j, hx, hl, hj, hpath, habove⟩ := hpushed k x hw hoff
    refine ⟨hk, hv, l, j, hx, hl, ?_, h.found hj hpath, hpath, habove⟩
    rw [hreaches]
    exact h.reached_of_above hj fun _ hp _ => hp.trans hpath
  · rw [hreaches]
    exact h.reached_of_retired hr

/-- One update, whether it succeeds or fails. -/
theorem Stands.reworks {base T : Tree} {m : Entries} (h : s.Stands base T m) (hh : s.Honest)
    (hlive : s.trie.committed = false) (version : Version) (key value : ByteArray) :
    Reworks version key value s (s.perform (.update version key value)) := by
  have hrep := h.represents hlive
  obtain ⟨d, hd, haccess, hcases⟩ := hrep.update_cases (h.backed hh) version key value
  have hafter : ({ s.trie with seen := d.seen } : Trie).find d.access = s.trie.find s.access :=
    hd.find
  obtain htrie | ⟨w, c, T', hkey, hfollows, hcame, htrie⟩ := hcases
  · have hrun : s.perform (.update version key value) =
        { s with trie := { s.trie with seen := d.seen }, access := d.access } := by
      rw [Session.perform, htrie, haccess]
    rw [hrun]
    refine reworks_of_eq rfl rfl rfl ?_
    rw [fetched_eq_find, fetched_eq_find]
    exact hafter
  · have hrun : s.perform (.update version key value) =
        { s with
          trie := { { s.trie with seen := d.seen }.apply c with root := T'.key? s.trie.tree [] }
          access := d.access } := by
      rw [Session.perform, htrie, haccess]
    rw [← fetched_eq_find] at hfollows
    rw [hrun]
    refine reworks_of_follows hfollows ?_ hrep.root rfl (fun k x hk => ?_) (fun k hk => ?_) ?_
    · have hleaves := Trie.leaves_apply { s.trie with seen := d.seen } d.access c
      rw [hafter, ← fetched_eq_find] at hleaves
      refine ⟨fun k x hk => ?_, fun k hk => ?_⟩
      · rw [fetched_eq_find]
        exact hleaves.written k x hk
      · rw [fetched_eq_find]
        exact hleaves.spared k hk
    · cases hwritten : c.written[k]? with
      | some y =>
        rw [← Trie.dirty_apply_written hwritten]
        exact .inr hk
      | none =>
        refine .inl ?_
        rw [Trie.dirty_apply hwritten] at hk
        split at hk
        · cases hk
        · exact hk
    · obtain ⟨-, hk | hk⟩ := (Trie.mem_superseded_apply hfollows.sets.patches.nodup).mp hk
      · exact .inl hk
      · exact .inr hk.1
    · intro hv hnone
      have hget := Session.get_eq hlive hkey
      rw [hnone, hrep.root, ← fetched_eq_find, hfollows.walk] at hget
      have hsome := hcame hv
      rw [← Except.ok.inj hget] at hsome
      cases hsome

section Run

variable {tree : TreePrefix} {a : Access} {c : Contents} {actions : List Action}

/-- At every point of a linear history an update copies the path of its key and leaves the rest. -/
theorem reworks_run (hh : (start tree a c).Throughout Honest actions) (version : Version)
    (key value : ByteArray) :
    Reworks version key value ((start tree a c).run actions)
      (((start tree a c).run actions).perform (.update version key value)) := by
  obtain ⟨base, T, m, hs⟩ := stands_run hh _ List.prefix_rfl
  cases hc : ((start tree a c).run actions).trie.committed with
  | false => exact hs.reworks hh.last hc version key value
  | true =>
    rw [update_closed hc]
    exact reworks_of_eq rfl rfl rfl rfl

/-- The leaf of a committed key is pushed down by another key. -/
def forked : Session :=
  (start TreePrefix.long default ∅).run
    [.update 7 "a".toUTF8 "1".toUTF8, .commit, .update 7 "q".toUTF8 "2".toUTF8]

/-- When the other key is removed, the leaf rises to the root again. -/
theorem reworks_run_forked :
    ((start TreePrefix.long default ∅).Throughout Honest
        [.update 7 "a".toUTF8 "1".toUTF8, .commit, .update 7 "q".toUTF8 "2".toUTF8] ∧
      (forked.trie.update 8 "q".toUTF8 ByteArray.empty forked.access).1.1 = .ok () ∧
      (forked.fetched (.ofPath 7 TreePrefix.long [6])).toOption =
        ((forked.perform (.update 8 "q".toUTF8 ByteArray.empty)).fetched
          (.ofPath 8 TreePrefix.long [])).toOption) ∧
    Reworks 8 "q".toUTF8 ByteArray.empty forked
      (forked.perform (.update 8 "q".toUTF8 ByteArray.empty)) := by
  have hh : (start TreePrefix.long default ∅).Throughout Honest
      [.update 7 "a".toUTF8 "1".toUTF8, .commit, .update 7 "q".toUTF8 "2".toUTF8] :=
    fun pre hpre => (served_inMemory rfl _ pre hpre).honest
  have hcomputed :
      (forked.trie.update 8 "q".toUTF8 ByteArray.empty forked.access).1.1.toOption = some () ∧
      (forked.fetched (.ofPath 7 TreePrefix.long [6])).toOption =
        ((forked.perform (.update 8 "q".toUTF8 ByteArray.empty)).fetched
          (.ofPath 8 TreePrefix.long [])).toOption := by
    decide +kernel
  obtain ⟨hok, hrisen⟩ := hcomputed
  have hok' := eq_ok_of_toOption hok
  refine ⟨⟨hh, hok', hrisen⟩, ?_⟩
  rw [forked]
  exact reworks_run hh 8 _ _

end Run

end Session

end VersionedTrie
