import VersionedTrie.Proofs.Refinement
import VersionedTrie.Proofs.Tree.Stamp

/-! # Independence of the history

The root digest of a handle is a function of its entries: two sessions that read as the same map
have the same root, whatever updates, commits and failures have led there. Handles that have never
committed and have written everything at one version have even the same nodes under the same node
keys.
-/

set_option autoImplicit false

namespace VersionedTrie

open VersionedTrie.Tree

theorem Tree.Holds.digest_eq {S T : Tree} {m : Entries} (hS : S.Holds m) (hT : T.Holds m)
    (hS' : S.Compact []) (hT' : T.Compact []) : S.digest = T.digest :=
  digest_eq_of_has hS' hT' fun l => (hS l).trans (hT l).symm

/-! ## Handles that have never committed -/

namespace Trie

variable {t u : Trie} {T : Tree}

theorem Represents.getElem?_dirty (h : t.Represents .vacant T) {k : NodeKey} {x : Node} :
    t.dirty[k]? = some x ↔ Owns t.tree [] T k x := by
  refine ⟨h.dirty k x, fun hk => ?_⟩
  cases hd : t.dirty[k]? with
  | some y => rw [(h.dirty k y hd).unique hk]
  | none => exact absurd (h.kept k x hk hd).1 not_owns_vacant

theorem Represents.superseded_eq (h : t.Represents .vacant T) : t.superseded = ∅ := by
  refine Std.ExtTreeSet.ext_mem fun k => ⟨fun hk => ?_, fun hk => ?_⟩
  · obtain ⟨⟨x, hx⟩, _⟩ := h.superseded k hk
    exact absurd hx not_owns_vacant
  · exact absurd hk Std.ExtTreeSet.not_mem_empty

theorem Represents.dirty_eq (h : t.Represents .vacant T) (h' : u.Represents .vacant T)
    (htree : t.tree = u.tree) : t.dirty = u.dirty := by
  refine Std.ExtTreeMap.ext_getElem? fun k => Option.ext fun x => ?_
  rw [h.getElem?_dirty, h'.getElem?_dirty, htree]

end Trie

namespace Session

variable {s : Session} {base T : Tree} {m : Entries}

section Run

variable {tree : TreePrefix} {a : Access} {c : Contents} {actions : List Action}

theorem fresh_run (hh : (start tree a c).Throughout Honest actions) (version : Version)
    (hactions : ∀ action, action ∈ actions → ∃ key value, action = .update version key value) :
    ∀ pre, pre <+: actions → ∃ T m, ((start tree a c).run pre).Stands .vacant T m ∧
      ((start tree a c).run pre).trie.committed = false ∧
      ((start tree a c).run pre).trie.tree = tree ∧
      ∀ k x, Owns tree [] T k x → k.version = version := by
  refine always_of (P := fun s : Session => ∃ T m, s.Stands .vacant T m ∧
      s.trie.committed = false ∧ s.trie.tree = tree ∧
      ∀ k x, Owns tree [] T k x → k.version = version)
    ⟨.vacant, ∅, stands_start tree a c, rfl, rfl, fun k x hk => ?_⟩ ?_
  · exact absurd hk not_owns_vacant
  rintro pre action hpre ⟨T, m, h, hlive, htree, hversion⟩
  have hmem : action ∈ actions := hpre.subset (List.mem_append_right _ List.mem_cons_self)
  obtain ⟨key, value, rfl⟩ := hactions action hmem
  obtain ⟨_, T', m', h', hbecomes, _⟩ := h.update (hh.around hpre).1 hlive version key value
  refine ⟨T', m', h', hbecomes.represents.live, hbecomes.tree.trans htree, fun k x hk => ?_⟩
  obtain hv | hk := hbecomes.fresh k x (by rwa [htree])
  · exact hv
  · exact hversion k x (by rwa [htree] at hk)

end Run

/-- The root is the placeholder for a trie without entries, and for another only if a node digests
to the placeholder. -/
theorem Stands.rootDigest_placeholder (h : s.Stands base T m) (hlive : s.trie.committed = false)
    (hw : T.Whole s.trie.tree (s.trie.find s.access)) :
    (m = ∅ → T.digest = Digest.placeholder) ∧
      (T.digest = Digest.placeholder → m = ∅ ∨
        ∃ k x, s.Reaches k ∧ s.fetched k = .ok x ∧ x.digest = Digest.placeholder) := by
  constructor
  · rintro rfl
    rw [h.holds.eq_vacant h.compact]
    rfl
  · intro he
    cases hx : T.node? with
    | none =>
      obtain rfl := node?_eq_none.mp hx
      exact .inl h.holds.eq_empty
    | some x =>
      obtain ⟨k, hk⟩ := key?_of_node? hx s.trie.tree []
      obtain ⟨hr, hf⟩ := (owns_iff_reaches (h.represents hlive) hw).mp (owns_self hk hx)
      exact .inr ⟨k, x, hr, hf, (digest_eq hx).symm.trans he⟩

/-- Sessions that read as the same map have the same root, and if they have only written, all at one
version, the same nodes. -/
theorem rootDigest_eq_of_reads (tree₁ tree₂ : TreePrefix) (a₁ a₂ : Access) (c₁ c₂ : Contents)
    (actions₁ actions₂ : List Action) (m : Entries)
    (hh₁ : (start tree₁ a₁ c₁).Throughout Honest actions₁)
    (hh₂ : (start tree₂ a₂ c₂).Throughout Honest actions₂)
    (hr₁ : ((start tree₁ a₁ c₁).run actions₁).Reads m)
    (hr₂ : ((start tree₂ a₂ c₂).run actions₂).Reads m) :
    (∃ d, ((start tree₁ a₁ c₁).run actions₁).rootDigest = .ok d ∧
      ((start tree₂ a₂ c₂).run actions₂).rootDigest = .ok d ∧
      (m = ∅ → d = Digest.placeholder) ∧
      (d = Digest.placeholder → m = ∅ ∨
        ∃ k x, ((start tree₁ a₁ c₁).run actions₁).Reaches k ∧
          ((start tree₁ a₁ c₁).run actions₁).fetched k = .ok x ∧
          x.digest = Digest.placeholder)) ∧
    (tree₁ = tree₂ → ∀ version,
      (∀ action, action ∈ actions₁ ++ actions₂ → ∃ key value, action = .update version key value) →
      ((start tree₁ a₁ c₁).run actions₁).trie.dirty =
          ((start tree₂ a₂ c₂).run actions₂).trie.dirty ∧
        ((start tree₁ a₁ c₁).run actions₁).trie.superseded = ∅ ∧
        ((start tree₂ a₂ c₂).run actions₂).trie.superseded = ∅) := by
  constructor
  · obtain ⟨base₁, T₁, m₁, h₁⟩ := stands_run hh₁ _ List.prefix_rfl
    obtain ⟨base₂, T₂, m₂, h₂⟩ := stands_run hh₂ _ List.prefix_rfl
    obtain rfl := h₁.entries_eq hh₁.last hr₁
    obtain rfl := h₂.entries_eq hh₂.last hr₂
    have hlive₁ := live_of_get (hr₁ ByteArray.empty)
    have hlive₂ := live_of_get (hr₂ ByteArray.empty)
    have hw₁ := h₁.whole_of_reads hh₁.last hr₁
    have hw₂ := h₂.whole_of_reads hh₂.last hr₂
    refine ⟨T₁.digest, h₁.rootDigest hh₁.last hlive₁ hw₁, ?_, h₁.rootDigest_placeholder hlive₁ hw₁⟩
    rw [h₁.holds.digest_eq h₂.holds h₁.compact h₂.compact]
    exact h₂.rootDigest hh₂.last hlive₂ hw₂
  · rintro rfl version hactions
    have hfresh₁ := fresh_run hh₁ version fun action hmem =>
      hactions action (List.mem_append_left _ hmem)
    have hfresh₂ := fresh_run hh₂ version fun action hmem =>
      hactions action (List.mem_append_right _ hmem)
    obtain ⟨T₁, m₁, h₁, hlive₁, htree₁, hv₁⟩ := hfresh₁ _ List.prefix_rfl
    obtain ⟨T₂, m₂, h₂, hlive₂, htree₂, hv₂⟩ := hfresh₂ _ List.prefix_rfl
    obtain rfl := h₁.entries_eq hh₁.last hr₁
    obtain rfl := h₂.entries_eq hh₂.last hr₂
    have hstamp := stamp_eq_of_has h₁.compact h₂.compact
      (fun l => (h₁.holds l).trans (h₂.holds l).symm) version
    rw [stamp_eq_self hv₁, stamp_eq_self hv₂] at hstamp
    subst hstamp
    have hrep₁ := h₁.represents hlive₁
    have hrep₂ := h₂.represents hlive₂
    exact ⟨hrep₁.dirty_eq hrep₂ (htree₁.trans htree₂.symm), hrep₁.superseded_eq,
      hrep₂.superseded_eq⟩

def straight : List Action :=
  [.update 3 "ab".toUTF8 "x".toUTF8, .update 3 "b".toUTF8 "w".toUTF8]

/-- Other values first, a key that is refused, and one that is removed again. -/
def detour : List Action :=
  [.update 3 "b".toUTF8 "v".toUTF8, .update 3 "ab".toUTF8 "y".toUTF8,
    .update 3 "a".toUTF8 "z".toUTF8, .update 3 "c".toUTF8 "q".toUTF8,
    .update 3 "c".toUTF8 ByteArray.empty, .update 3 "b".toUTF8 "w".toUTF8,
    .update 3 "ab".toUTF8 "x".toUTF8]

theorem rootDigest_eq_of_detour :
    ((start TreePrefix.long default ∅).Throughout Honest straight ∧
      (start TreePrefix.long default ∅).Throughout Honest detour ∧
      ((start TreePrefix.long default ∅).run straight).Reads (straight.foldl Entries.after ∅) ∧
      ((start TreePrefix.long default ∅).run detour).Reads (straight.foldl Entries.after ∅)) ∧
    (∃ d, ((start TreePrefix.long default ∅).run straight).rootDigest = .ok d ∧
      ((start TreePrefix.long default ∅).run detour).rootDigest = .ok d) ∧
    ((start TreePrefix.long default ∅).run straight).trie.dirty =
      ((start TreePrefix.long default ∅).run detour).trie.dirty := by
  have hserved : ∀ actions, (start TreePrefix.long default ∅).Throughout Served actions :=
    served_inMemory rfl
  have hh : ∀ actions, (start TreePrefix.long default ∅).Throughout Honest actions :=
    fun actions pre hpre => (hserved actions pre hpre).honest
  have hentries : detour.foldl Entries.after ∅ = straight.foldl Entries.after ∅ :=
    Std.ExtTreeMap.toList_inj.mp (by decide +kernel)
  have hr₁ := reads_run rfl (hserved straight) (by simp [straight, AtCommits, atEach_cons, atEach_nil])
  have hr₂ := reads_run rfl (hserved detour) (by simp [detour, AtCommits, atEach_cons, atEach_nil])
  rw [hentries] at hr₂
  obtain ⟨⟨d, hd₁, hd₂, _⟩, hsame⟩ := rootDigest_eq_of_reads _ _ _ _ _ _ _ _ _ (hh straight)
    (hh detour) hr₁ hr₂
  have hupdates : ∀ action, action ∈ straight ++ detour →
      ∃ key value, action = .update 3 key value := by
    simp [straight, detour]
  exact ⟨⟨hh straight, hh detour, hr₁, hr₂⟩, ⟨d, hd₁, hd₂⟩, (hsame rfl 3 hupdates).1⟩

end Session

end VersionedTrie
