import VersionedTrie.Proofs.HistoryIndependence
import VersionedTrie.Proofs.Vouching

/-! # Root digests bind contents

The nodes of a trie handle have the digests that are recorded of them, so that two handles with one
root digest have the same contents, whatever their histories, versions and prefixes have been. All
else is a collision among what the nodes of the two handles digest (`Session.Hashes`).
-/

set_option autoImplicit false

namespace VersionedTrie

open VersionedTrie.Tree

namespace Session

variable {s : Session} {base T : Tree} {m : Entries}

/-- What the nodes of the handle's trie digest. -/
def Hashes (s : Session) (b : ByteArray) : Prop :=
  ∃ k x, s.Reaches k ∧ s.fetched k = .ok x ∧ b = x.preimage

theorem hashes_of_met {root : Option NodeKey} {path : Path} {x : Node}
    (h : Met s.fetched root path x) (hroot : ∀ k, root = some k → s.Reaches k) :
    s.Hashes x.preimage := by
  induction h with
  | here h => exact ⟨_, _, hroot _ rfl, h, rfl⟩
  | step h _ ih =>
    refine ih fun j hj => ?_
    obtain ⟨c, hc, rfl⟩ := Option.map_eq_some_iff.mp hj
    exact .child (hroot _ rfl) h hc

theorem Stands.sound_fetched (h : s.Stands base T m) (hh : s.Honest)
    (hlive : s.trie.committed = false) : T.Sound s.trie.tree s.fetched := by
  rw [funext s.fetched_eq]
  exact h.sound hh hlive

theorem Stands.vouches (h : s.Stands base T m) (hh : s.Honest) (hlive : s.trie.committed = false)
    (path : Path) : Vouches s.fetched s.Hashes T.digest s.trie.root path := by
  have hroot := (h.represents hlive).root
  rw [hroot]
  exact vouches_of_tree (h.sound_fetched hh hlive) fun x hx =>
    hashes_of_met hx fun k hk => .root (hroot.trans hk)

theorem Stands.storable_of_met (h : s.Stands base T m) (hh : s.Honest)
    (hlive : s.trie.committed = false) {path : Path} {x : Node}
    (hx : Met s.fetched s.trie.root path x) : x.Storable := by
  rw [(h.represents hlive).root] at hx
  obtain ⟨k, hk⟩ := hx.owned (h.sound_fetched hh hlive)
  exact storable_of_owns h.compact (h.holds.admissible h.bounded) hk

theorem exists_value?_of_get {key : ByteArray} {v : Option ByteArray} (h : s.get key = .ok v)
    (hk : key.size ≠ 0) : ∃ w, descend s.fetched s.trie.root (Path.ofKey key) [] = .ok w ∧
      w.value? (Path.ofKey key) = v := by
  obtain ⟨w, hw⟩ := Trie.exists_value?_of_get h hk
  rw [funext s.fetched_eq]
  exact ⟨w, hw⟩

/-- Two handles with one root digest read the same under every key, or their nodes collide. Where
both runs follow the entries that their updates describe, these are the same. -/
theorem reads_eq_of_rootDigest_eq (tree₁ tree₂ : TreePrefix) (a₁ a₂ : Access) (c₁ c₂ : Contents)
    (actions₁ actions₂ : List Action)
    (hh₁ : (start tree₁ a₁ c₁).Throughout Honest actions₁)
    (hh₂ : (start tree₂ a₂ c₂).Throughout Honest actions₂) {d : Digest}
    (hd₁ : ((start tree₁ a₁ c₁).run actions₁).rootDigest = .ok d)
    (hd₂ : ((start tree₂ a₂ c₂).run actions₂).rootDigest = .ok d) :
    ((∀ key v₁ v₂, ((start tree₁ a₁ c₁).run actions₁).get key = .ok v₁ →
        ((start tree₂ a₂ c₂).run actions₂).get key = .ok v₂ → v₁ = v₂) ∧
      (a₁.store.plan = FaultPlan.none → a₂.store.plan = FaultPlan.none →
        (start tree₁ a₁ c₁).Throughout Served actions₁ →
        (start tree₂ a₂ c₂).Throughout Served actions₂ →
        (start tree₁ a₁ c₁).AtCommits Clear actions₁ →
        (start tree₂ a₂ c₂).AtCommits Clear actions₂ →
        actions₁.foldl Entries.after ∅ = actions₂.foldl Entries.after ∅)) ∨
      Collides fun b => ((start tree₁ a₁ c₁).run actions₁).Hashes b ∨
        ((start tree₂ a₂ c₂).run actions₂).Hashes b := by
  obtain ⟨base₁, T₁, m₁, h₁⟩ := stands_run hh₁ _ List.prefix_rfl
  obtain ⟨base₂, T₂, m₂, h₂⟩ := stands_run hh₂ _ List.prefix_rfl
  have hlive₁ := live_of_rootDigest hd₁
  have hlive₂ := live_of_rootDigest hd₂
  refine or_iff_not_imp_right.mpr fun hn => ?_
  have hget : ∀ key v₁ v₂, ((start tree₁ a₁ c₁).run actions₁).get key = .ok v₁ →
      ((start tree₂ a₂ c₂).run actions₂).get key = .ok v₂ → v₁ = v₂ := by
    intro key v₁ v₂ hv₁ hv₂
    by_cases hk : key.size = 0
    · have hempty : ∀ {m : Entries}, m.Bounded → m[key]? = none := by
        intro m hm
        exact Option.eq_none_iff_forall_ne_some.mpr fun v hv => absurd hk (hm key v hv).1.1.ne'
      rw [h₁.get_eq hh₁.last hv₁, h₂.get_eq hh₂.last hv₂, hempty h₁.bounded, hempty h₂.bounded]
    · obtain ⟨w₁, hw₁, rfl⟩ := exists_value?_of_get hv₁ hk
      obtain ⟨w₂, hw₂, rfl⟩ := exists_value?_of_get hv₂ hk
      have hvouches₁ := h₁.vouches hh₁.last hlive₁ (Path.ofKey key)
      have hvouches₂ := h₂.vouches hh₂.last hlive₂ (Path.ofKey key)
      rw [← h₁.rootDigest_eq hh₁.last hd₁] at hvouches₁
      rw [← h₂.rootDigest_eq hh₂.last hd₂] at hvouches₂
      exact (value?_eq_or_collides hw₁ hw₂ (hvouches₁.mono fun _ => .inl)
        (hvouches₂.mono fun _ => .inr)
        fun l₁ _ hl₁ _ _ => .inl (h₁.storable_of_met hh₁.last hlive₁ (met_leaf hw₁ hl₁)))
          |>.resolve_right hn
  refine ⟨hget, fun hplan₁ hplan₂ hserved₁ hserved₂ hclear₁ hclear₂ => ?_⟩
  exact Std.ExtTreeMap.ext_getElem? fun key =>
    hget key _ _ (reads_run hplan₁ hserved₁ hclear₁ key) (reads_run hplan₂ hserved₂ hclear₂ key)

def atOnce : List Action :=
  [.update 3 "ab".toUTF8 "x".toUTF8, .update 3 "b".toUTF8 "w".toUTF8]

/-- Another value is committed and loaded first, and the versions are others. -/
def revised : List Action :=
  [.update 5 "ab".toUTF8 "y".toUTF8, .commit, .update 9 "b".toUTF8 "w".toUTF8,
    .update 9 "ab".toUTF8 "x".toUTF8]

theorem clear_revised : (start TreePrefix.long default ∅).AtCommits Clear revised := by
  have hserved : (start TreePrefix.long default ∅).Throughout Served
      [.update 5 "ab".toUTF8 "y".toUTF8] := served_inMemory rfl _
  obtain ⟨base, T, h⟩ := steady_run rfl hserved (by simp [AtCommits, atEach_cons, atEach_nil]) _
    List.prefix_rfl
  have hclear := h.clear_long hserved.last (by decide +kernel) (by decide +kernel)
  simp only [revised, AtCommits, atEach_cons, atEach_nil, reduceCtorEq, false_implies, true_implies,
    true_and, and_true]
  exact hclear

theorem reads_eq_of_revised : ∃ d,
    ((start TreePrefix.empty default ∅).Throughout Honest atOnce ∧
      (start TreePrefix.long default ∅).Throughout Honest revised ∧
      ((start TreePrefix.empty default ∅).run atOnce).rootDigest = .ok d ∧
      ((start TreePrefix.long default ∅).run revised).rootDigest = .ok d) ∧
    ((∀ key v₁ v₂, ((start TreePrefix.empty default ∅).run atOnce).get key = .ok v₁ →
        ((start TreePrefix.long default ∅).run revised).get key = .ok v₂ → v₁ = v₂) ∨
      Collides fun b => ((start TreePrefix.empty default ∅).run atOnce).Hashes b ∨
        ((start TreePrefix.long default ∅).run revised).Hashes b) := by
  have hserved : ∀ tree actions, (start tree default ∅).Throughout Served actions :=
    fun tree actions => served_inMemory rfl actions
  have hh : ∀ tree actions, (start tree default ∅).Throughout Honest actions :=
    fun tree actions pre hpre => (hserved tree actions pre hpre).honest
  have hentries : atOnce.foldl Entries.after ∅ = revised.foldl Entries.after ∅ :=
    Std.ExtTreeMap.toList_inj.mp (by decide +kernel)
  obtain ⟨T₁, hcompact₁, hholds₁, hd₁⟩ := rootDigest_run rfl (hserved TreePrefix.empty atOnce)
    (by simp [atOnce, AtCommits, atEach_cons, atEach_nil])
  obtain ⟨T₂, hcompact₂, hholds₂, hd₂⟩ := rootDigest_run rfl (hserved _ _) clear_revised
  rw [hentries] at hholds₁
  rw [← hholds₁.digest_eq hholds₂ hcompact₁ hcompact₂] at hd₂
  exact ⟨T₁.digest, ⟨hh _ _, hh _ _, hd₁, hd₂⟩,
    (reads_eq_of_rootDigest_eq _ _ _ _ _ _ _ _ (hh _ _) (hh _ _) hd₁ hd₂).imp_left And.left⟩

end Session

end VersionedTrie
