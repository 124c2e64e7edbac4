import VersionedTrie.Proofs.Changes.Apply
import VersionedTrie.Proofs.Changes.Plan
import VersionedTrie.Proofs.Entries

/-! # Handles stand for trees

A live handle represents a tree: its dirty nodes are nodes of the tree, and every other node of the
tree belongs to the committed tree that the handle began with. What it has superseded are node keys
of the committed tree that are no longer in use. As long as nothing that the handle reads through
contradicts the committed tree (`Access.Backed`), whatever the handle finds is a node of its tree
(`Represents.sound`).

`Represents.update` is the step that an update makes: it changes the map that the tree holds as
`Entries.update` says and leaves a handle of the new tree, or it fails and leaves one of the old
tree.
-/

set_option autoImplicit false

namespace VersionedTrie

open VersionedTrie.Tree

/-- Neither the cache nor the store has another node under a node key. -/
def Access.Backs (a : Access) (k : NodeKey) (x : Node) : Prop :=
  (∀ y, a.peek k = some y → y = x) ∧ ∀ y, a.stored k = .ok y → y = x

theorem Access.Backs.find {a : Access} {k : NodeKey} {x y : Node} (h : a.Backs k x)
    (hy : a.find k = .ok y) : y = x := by
  rw [Access.find] at hy
  cases hp : a.peek k with
  | some z =>
    rw [hp] at hy
    cases hy
    exact h.1 _ hp
  | none =>
    rw [hp] at hy
    exact h.2 _ hy

/-- No node of the tree is contradicted by the cache or the store. -/
def Access.Backed (a : Access) (tree : TreePrefix) (base : Tree) : Prop :=
  ∀ k x, Owns tree [] base k x → a.Backs k x

theorem Access.Agrees.backed {a b : Access} (h : a.Agrees b) {tree : TreePrefix} {base : Tree}
    (hb : a.Backed tree base) : b.Backed tree base := by
  intro k x hk
  rw [Access.Backs, h.peek, h.stored]
  exact hb k x hk

/-- A walk along a key comes to the entry that the tree holds under it. -/
theorem Descent.Walked.value?_eq {w : Descent} {tree : TreePrefix} {T S : Tree} {rest : Path}
    {z : Context} {m : Entries} {key : ByteArray} (h : w.Walked tree T (Path.ofKey key) z S rest)
    (hT : T.Compact []) (hm : T.Holds m) : w.value? (Path.ofKey key) = m[key]? := by
  cases hv : m[key]? with
  | some v => exact h.value?_eq_some hT (hm.has hv) rfl
  | none =>
    refine h.value?_eq_none fun l hl hkey => ?_
    rw [hm.getElem? hl hkey] at hv
    cases hv

theorem Tree.Whole.exists_value? {tree : TreePrefix} {T : Tree}
    {find : NodeKey → Except Error Node} (h : T.Whole tree find) (hT : T.Compact []) {m : Entries}
    (hm : T.Holds m) (key : ByteArray) :
    ∃ w, descend find (T.key? tree []) (Path.ofKey key) [] = .ok w ∧
      w.value? (Path.ofKey key) = m[key]? := by
  obtain ⟨w, z, S, rest, hw, hspec⟩ := @descend_spec tree T [] T rfl (Path.ofKey key)
  exact ⟨w, (hspec find h.sound).resolve_right fun hn => hn.2 h, hw.value?_eq hT hm⟩

namespace Trie

/-- A live handle, begun with the committed tree `base`, stands for the tree `T`. -/
structure Represents (t : Trie) (base T : Tree) : Prop where
  live : t.committed = false
  root : t.root = T.key? t.tree []
  compact : T.Compact []
  dirty : ∀ k x, t.dirty[k]? = some x → Owns t.tree [] T k x
  kept : ∀ k x, Owns t.tree [] T k x → t.dirty[k]? = none →
    Owns t.tree [] base k x ∧ ∀ y, t.seen[k]? = some y → y = x
  superseded : ∀ k, k ∈ t.superseded →
    (∃ x, Owns t.tree [] base k x) ∧ ∀ x, ¬ Owns t.tree [] T k x

section Find

variable {t : Trie} {a : Access} {base T : Tree} {k : NodeKey} {x : Node}

theorem find_dirty (h : t.dirty[k]? = some x) : t.find a k = .ok x := by
  rw [find, h]

theorem find_seen (hd : t.dirty[k]? = none) (hs : t.seen[k]? = some x) : t.find a k = .ok x := by
  rw [find, hd, hs]

theorem find_clean (hd : t.dirty[k]? = none) (hs : t.seen[k]? = none) : t.find a k = a.find k := by
  rw [find, hd, hs]

theorem Represents.sound (h : t.Represents base T) (ha : a.Backed t.tree base) :
    T.Sound t.tree (t.find a) := by
  intro k x y hk hy
  cases hd : t.dirty[k]? with
  | some z =>
    rw [find_dirty hd] at hy
    cases hy
    exact (h.dirty k _ hd).unique hk
  | none =>
    obtain ⟨hbase, hs⟩ := h.kept k x hk hd
    cases hz : t.seen[k]? with
    | some z =>
      rw [find_seen hd hz] at hy
      cases hy
      exact hs _ hz
    | none =>
      rw [find_clean hd hz] at hy
      exact (ha k x hbase).find hy

theorem Represents.whole (h : t.Represents base T) (hw : base.Whole t.tree a.find) :
    T.Whole t.tree (t.find a) := by
  intro k x hk
  cases hd : t.dirty[k]? with
  | some z => rw [find_dirty hd, (h.dirty k _ hd).unique hk]
  | none =>
    obtain ⟨hbase, hs⟩ := h.kept k x hk hd
    cases hz : t.seen[k]? with
    | some z => rw [find_seen hd hz, hs z hz]
    | none =>
      rw [find_clean hd hz]
      exact hw k x hbase

end Find

/-! ## Reading -/

section Get

variable {t : Trie} {a : Access} {base T : Tree}

/-- A walk through a handle is for the tree to say. -/
theorem exists_walk (tree : TreePrefix) (T : Tree) (path : Path) :
    ∃ w z S rest, w.Walked tree T path z S rest ∧
      ∀ {t : Trie} {base : Tree} {a : Access}, t.tree = tree → t.Represents base T →
        a.Backed tree base →
        Answers Access.Agrees (¬ T.Whole tree (t.find a) ∨ a.Doubtful)
          (descend t.fetch t.root path []) a (.ok w) := by
  obtain ⟨w, z, S, rest, hw, hwalk⟩ := walk_answers tree T path
  refine ⟨w, z, S, rest, hw, ?_⟩
  rintro t base a rfl h ha
  rw [h.root]
  refine hwalk (h.sound ha) fun b key hb => ?_
  rw [← t.find_agrees hb]
  exact (t.fetch_answers b key).mono hb.reads

theorem ensureLive_eq (h : t.committed = false) : t.ensureLive = pure () := by
  rw [ensureLive, h]
  rfl

theorem get_closed (h : t.committed = true) (key : ByteArray) :
    t.get key a = (.error .staleHandle, a) := by
  rw [get, ensureLive, if_pos h]
  rfl

theorem live_of_get {key : ByteArray} {v : Option ByteArray} (h : (t.get key a).1 = .ok v) :
    t.committed = false := by
  cases hc : t.committed with
  | false => rfl
  | true =>
    rw [get_closed hc] at h
    cases h

/-- Reading a key is a walk over what the handle finds. -/
theorem get_over (hlive : t.committed = false) {key : ByteArray} (hk : key.size ≠ 0) :
    Answers Access.Agrees a.Doubtful (t.get key) a
      (descend (t.find a) t.root (Path.ofKey key) [] >>=
        fun w => .ok (w.value? (Path.ofKey key))) := by
  unfold get
  rw [ensureLive_eq hlive, pure_bind, if_neg hk]
  refine (descend_answers (fun b k hb => ?_) _ _ _).bind fun w b _ => ?_
  · rw [← t.find_agrees hb]
    exact (t.fetch_answers b k).mono hb.reads
  · obtain ⟨steps, landing⟩ := w
    cases landing <;> exact answers_pure

theorem exists_value?_of_get {key : ByteArray} {v : Option ByteArray} (h : (t.get key a).1 = .ok v)
    (hk : key.size ≠ 0) : ∃ w, descend (t.find a) t.root (Path.ofKey key) [] = .ok w ∧
      w.value? (Path.ofKey key) = v := by
  have hover := (get_over (live_of_get h) hk).eq_of_ok h
  cases hw : descend (t.find a) t.root (Path.ofKey key) [] with
  | ok w =>
    rw [hw] at hover
    exact ⟨w, rfl, Except.ok.inj hover⟩
  | error e =>
    rw [hw] at hover
    cases hover

theorem Represents.get_answers (h : t.Represents base T) (ha : a.Backed t.tree base) {m : Entries}
    (hm : T.Holds m) (hb : m.Bounded) (key : ByteArray) :
    Answers Access.Agrees (¬ T.Whole t.tree (t.find a) ∨ a.Doubtful) (t.get key) a
      (.ok m[key]?) := by
  unfold get
  rw [ensureLive_eq h.live, pure_bind]
  by_cases hk : key.size = 0
  · rw [if_pos hk]
    cases hv : m[key]? with
    | none => exact answers_pure
    | some v => exact absurd hk (Nat.ne_of_gt (hb key v hv).1.1)
  · rw [if_neg hk]
    obtain ⟨w, z, S, rest, hw, hwalk⟩ := exists_walk t.tree T (Path.ofKey key)
    refine (hwalk rfl h ha).bind_ok fun _ _ => ?_
    rw [← hw.value?_eq h.compact hm]
    obtain ⟨steps, landing⟩ := w
    cases landing with
    | vacant => exact answers_pure
    | leaf k l => exact answers_pure
    | exhausted k b => exact answers_pure

theorem Represents.rootDigest_answers (h : t.Represents base T) (ha : a.Backed t.tree base) :
    Answers Access.Agrees (¬ T.Whole t.tree (t.find a) ∨ a.Doubtful) t.rootDigest a
      (.ok T.digest) := by
  unfold rootDigest
  rw [ensureLive_eq h.live, pure_bind]
  cases hx : T.node? with
  | none =>
    obtain rfl := node?_eq_none.mp hx
    rw [h.root]
    exact answers_pure
  | some x =>
    obtain ⟨k, hk⟩ := key?_of_node? hx t.tree []
    rw [h.root, hk, digest_eq hx]
    exact (owned_answers (h.sound ha) (t.fetch_answers a k) (owns_self hk hx)).bind_ok
      fun _ _ => answers_pure

end Get

/-! ## Updating -/

section Update

variable {t : Trie} {a : Access} {base T T' : Tree} {version : Version} {c : Changes}

/-- No committed node is dirty, and every committed one is still in use or superseded. -/
structure Exact (t : Trie) (base T : Tree) : Prop where
  fresh : ∀ k x y, t.dirty[k]? = some x → ¬ Owns t.tree [] base k y
  accounted : ∀ k x, Owns t.tree [] base k x → Owns t.tree [] T k x ∨ k ∈ t.superseded

/-- What an update makes of a handle and its tree, apart from the entries. -/
structure Becomes (t : Trie) (base T : Tree) (version : Version) (t' : Trie) (T' : Tree) :
    Prop where
  tree : t'.tree = t.tree
  represents : t'.Represents base T'
  fresh : ∀ k x, Owns t.tree [] T' k x → k.version = version ∨ Owns t.tree [] T k x
  dirty : ∀ (k : NodeKey) (x : Node), t'.dirty[k]? = some x →
    k.version = version ∨ t.dirty[k]? = some x
  exactness : t.Exact base T → (∀ k x, Owns t.tree [] base k x → k.version ≠ version) →
    t'.Exact base T'

/-- An update that fails has only remembered what it has read. -/
theorem Represents.remember (h : t.Represents base T) (ha : a.Backed t.tree base) {d : Draft}
    (hd : Draft.Agrees t ⟨a, t.seen⟩ d) (version : Version) :
    t.Becomes base T version { t with seen := d.seen } T := by
  have hfind : ({ t with seen := d.seen } : Trie).find d.access = t.find a := hd.find
  refine ⟨rfl, ⟨h.live, h.root, h.compact, h.dirty, ?_, h.superseded⟩, fun k x hk => .inr hk,
    fun k x hk => .inr hk, fun he _ => ⟨he.fresh, he.accounted⟩⟩
  intro k x hk hn
  refine ⟨(h.kept k x hk hn).1, fun y hy => ?_⟩
  refine h.sound ha k x y hk ?_
  rw [← hfind]
  exact find_seen hn hy

section Apply

variable {path : Path} {value : ByteArray} {k : NodeKey} {x : Node}

/-- Whatever is dirty afterwards was written at the version of the update, or was dirty before. -/
theorem stamped_apply (hc : c.Sets t.tree version path value T T')
    (hk : (t.apply c).dirty[k]? = some x) :
    k.version = version ∨ t.dirty[k]? = some x := by
  cases hw : c.written[k]? with
  | some y => exact .inl (hc.stamped k y hw)
  | none =>
    rw [dirty_apply hw] at hk
    split at hk
    · cases hk
    · exact .inr hk

theorem Exact.apply (he : t.Exact base T) (hc : c.Sets t.tree version path value T T')
    (hv : ∀ k x, Owns t.tree [] base k x → k.version ≠ version) :
    (t.apply c).Exact base T' := by
  have hp := hc.patches
  refine ⟨?_, ?_⟩
  · rw [tree_apply]
    intro k x y hk hbase
    obtain hk | hk := stamped_apply hc hk
    · exact hv k y hbase hk
    · exact he.fresh k x y hk hbase
  · rw [tree_apply]
    intro k x hbase
    -- a committed node is not written again, since its version is another
    have hw : c.written[k]? = none :=
      Option.eq_none_iff_forall_ne_some.mpr fun y hw => hv k x hbase (hc.stamped k y hw)
    rw [mem_superseded_apply hp.nodup]
    obtain hT | hs := he.accounted k x hbase
    · refine (hp.stale k x hT).symm.imp And.right fun hr => ⟨hw, .inr ⟨hr, ?_⟩⟩
      exact Option.eq_none_iff_forall_ne_some.mpr fun y hd => he.fresh k y x hd hbase
    · exact .inr ⟨hw, .inl hs⟩

variable (h : t.Represents base T) (hc : c.Sets t.tree version path value T T')
include h hc

theorem Represents.owns_of_dirty_apply (hk : (t.apply c).dirty[k]? = some x) :
    Owns t.tree [] T' k x := by
  cases hw : c.written[k]? with
  | some y =>
    rw [dirty_apply_written hw] at hk
    cases hk
    exact hc.patches.written k _ hw
  | none =>
    rw [dirty_apply hw] at hk
    split at hk
    · cases hk
    · next hr =>
      exact ((hc.patches.stale k x (h.dirty k x hk)).resolve_left hr).2

/-- A node that is not dirty afterwards is a committed one, and is remembered rightly. -/
theorem Represents.kept_apply (hk : Owns t.tree [] T' k x)
    (hn : (t.apply c).dirty[k]? = none) :
    Owns t.tree [] base k x ∧ ∀ y, (t.apply c).seen[k]? = some y → y = x := by
  obtain hw | ⟨hw, hr, hT⟩ := hc.patches.fresh k x hk
  · rw [dirty_apply_written hw] at hn
    cases hn
  · rw [dirty_apply hw, if_neg hr] at hn
    obtain ⟨hbase, hs⟩ := h.kept k x hT hn
    refine ⟨hbase, fun y hy => hs y ?_⟩
    rw [← seen_apply hr]
    exact hy

theorem Represents.superseded_apply (hk : k ∈ (t.apply c).superseded) :
    (∃ x, Owns t.tree [] base k x) ∧ ∀ x, ¬ Owns t.tree [] T' k x := by
  have hp := hc.patches
  obtain ⟨hw, hk⟩ := (mem_superseded_apply hp.nodup).mp hk
  -- a node of the new tree that is not written was one of the old tree, and not retired
  have hold : ∀ x, Owns t.tree [] T' k x → k ∉ c.retired ∧ Owns t.tree [] T k x := by
    intro x hx
    obtain hw' | ⟨_, hr, hx⟩ := hp.fresh k x hx
    · rw [hw] at hw'
      cases hw'
    · exact ⟨hr, hx⟩
  obtain hk | ⟨hr, hd⟩ := hk
  · obtain ⟨hbase, hT⟩ := h.superseded k hk
    exact ⟨hbase, fun x hx => hT x (hold x hx).2⟩
  · obtain ⟨x, hx⟩ := hp.retired k hr
    exact ⟨⟨x, (h.kept k x hx hd).1⟩, fun y hy => (hold y hy).1 hr⟩

theorem Represents.apply :
    t.Becomes base T version { t.apply c with root := T'.key? t.tree [] } T' := by
  have htree : (t.apply c).tree = t.tree := tree_apply t c
  refine ⟨htree, ⟨(committed_apply t c).trans h.live, ?_, hc.compact, ?_, ?_, ?_⟩,
    fun k x hk => ?_, fun k x hk => stamped_apply hc hk, fun he hv => ?_⟩
  · show T'.key? t.tree [] = T'.key? (t.apply c).tree []
    rw [htree]
  · show ∀ k x, (t.apply c).dirty[k]? = some x → Owns (t.apply c).tree [] T' k x
    rw [htree]
    exact fun k x hk => h.owns_of_dirty_apply hc hk
  · show ∀ k x, Owns (t.apply c).tree [] T' k x → (t.apply c).dirty[k]? = none →
      Owns (t.apply c).tree [] base k x ∧ ∀ y, (t.apply c).seen[k]? = some y → y = x
    rw [htree]
    exact fun k x hk hn => h.kept_apply hc hk hn
  · show ∀ k, k ∈ (t.apply c).superseded →
      (∃ x, Owns (t.apply c).tree [] base k x) ∧ ∀ x, ¬ Owns (t.apply c).tree [] T' k x
    rw [htree]
    exact fun k hk => h.superseded_apply hc hk
  · obtain hw | ⟨_, _, hT⟩ := hc.patches.fresh k x hk
    · exact .inl (hc.stamped k x hw)
    · exact .inr hT
  · obtain ⟨hfresh, haccounted⟩ := he.apply hc hv
    exact ⟨hfresh, haccounted⟩

end Apply

theorem Becomes.trans {t' t'' : Trie} {T'' : Tree} (h : t.Becomes base T version t' T')
    (h' : t'.Becomes base T' version t'' T'') : t.Becomes base T version t'' T'' where
  tree := h'.tree.trans h.tree
  represents := h'.represents
  fresh k x hk := by
    have := h'.fresh k x
    rw [h.tree] at this
    obtain hv | hk := this hk
    · exact .inl hv
    · exact h.fresh k x hk
  dirty k x hk := (h'.dirty k x hk).elim .inl (h.dirty k x)
  exactness he hv := h'.exactness (h.exactness he hv) (by rwa [h.tree])

/-- An update is refused for its key or its value alone only where the map refuses it. -/
theorem refusal_eq_some {m : Entries} {key value : ByteArray} {e : Error}
    (h : refusal key value = some e) :
    ∃ r, m.update key value = .error r ∧ e.refusal? = some r := by
  unfold refusal at h
  unfold Entries.update
  split at h
  · next hk =>
    cases h
    exact ⟨.key, by rw [if_pos (.inl hk)], rfl⟩
  · split at h
    · next hk =>
      cases h
      exact ⟨.key, by rw [if_pos (.inr hk)], rfl⟩
    · split at h
      · next hk hk' hv =>
        cases h
        exact ⟨.value, by rw [if_neg (not_or.mpr ⟨hk, hk'⟩), if_pos hv], rfl⟩
      · cases h

theorem refusal_eq_none {m : Entries} {key value : ByteArray} (h : refusal key value = none) :
    m.update key value =
      if value.size = 0 then .ok (m.erase key)
      else if m.keys.any fun stored => Bytes.Nested stored key then .error .key
      else .ok (m.insert key value) := by
  unfold refusal at h
  split at h
  · cases h
  · split at h
    · cases h
    · split at h
      · cases h
      · next hk hk' hv => rw [Entries.update, if_neg (not_or.mpr ⟨hk, hk'⟩), if_neg hv]

theorem key?_of_settled (h : T.Settled version) (tree : TreePrefix) :
    T.key? tree [] = if T.node?.isSome then some (.ofPath version tree []) else none := by
  obtain rfl | hv := h
  · rfl
  · rw [key?, hv]
    cases T with
    | vacant => cases hv
    | leaf => rfl
    | branch => rfl

theorem update_closed (h : t.committed = true) (key value : ByteArray) :
    t.update version key value a = ((.error .staleHandle, t), a) := by
  unfold Trie.update
  rw [if_pos h]

theorem update_refused (h : t.committed = false) {key value : ByteArray} {e : Error}
    (hr : refusal key value = some e) : t.update version key value a = ((.error e, t), a) := by
  unfold Trie.update
  rw [if_neg (by rw [h]; exact Bool.false_ne_true), hr]

theorem update_planned (h : t.committed = false) {key value : ByteArray}
    {r : Except Error (Option (Changes × Bool))} {d : Draft} (hr : refusal key value = none)
    (hp : t.plan version key value ⟨a, t.seen⟩ = (r, d)) :
    t.update version key value a =
      ((match r with
        | .error e => (.error e, { t with seen := d.seen })
        | .ok none => (.ok (), { t with seen := d.seen })
        | .ok (some (c, rooted)) =>
          (.ok (), { { t with seen := d.seen }.apply c with
            root := if rooted then some (.ofPath version t.tree []) else none })), d.access) := by
  unfold Trie.update
  rw [if_neg (by rw [h]; exact Bool.false_ne_true), hr]
  simp only [hp]
  cases r with
  | error e => rfl
  | ok found => cases found <;> rfl

/-- A plan that changes something makes a handle of the tree to which its changes lead. -/
theorem Represents.follow (h : t.Represents base T) (ha : a.Backed t.tree base) {d : Draft}
    (hd : Draft.Agrees t ⟨a, t.seen⟩ d) {path : Path} {value : ByteArray} {rooted : Bool}
    (hc : c.Sets t.tree version path value T T') (hrooted : rooted = T'.node?.isSome) :
    t.Becomes base T version { { t with seen := d.seen }.apply c with
      root := if rooted then some (.ofPath version t.tree []) else none } T' := by
  have hread := h.remember ha hd version
  have happly := hread.represents.apply hc
  rw [key?_of_settled hc.settled, ← hrooted] at happly
  exact hread.trans happly

/-- The step of an update. -/
theorem Represents.update (h : t.Represents base T) (ha : a.Backed t.tree base) {m : Entries}
    (hm : T.Holds m) (version : Version) (key value : ByteArray) :
    a.Agrees (t.update version key value a).2 ∧
      ∃ T', t.Becomes base T version (t.update version key value a).1.2 T' ∧
        ((∃ m', m.update key value = .ok m' ∧ (t.update version key value a).1.1 = .ok () ∧
            T'.Holds m') ∨
          ∃ e, (t.update version key value a).1.1 = .error e ∧ T' = T ∧
            ((∃ r, m.update key value = .error r ∧ e.refusal? = some r) ∨
              ¬ T.Whole t.tree (t.find a) ∨ a.Doubtful)) := by
  cases hr : refusal key value with
  | some e =>
    rw [update_refused h.live hr]
    exact ⟨refl_of Access.Agrees a, T, h.remember ha (refl_of (Draft.Agrees t) ⟨a, t.seen⟩) version,
      .inr ⟨e, rfl, rfl, .inl (refusal_eq_some hr)⟩⟩
  | none =>
    have hu := refusal_eq_none (m := m) hr
    obtain ⟨r, hplans, hanswers⟩ := plan_answers t.tree version key value h.compact
    have hplan := hanswers t ⟨a, t.seen⟩ rfl h.root (h.sound ha)
    cases hp : t.plan version key value ⟨a, t.seen⟩ with
    | mk o d =>
      rw [Answers, Yields, hp] at hplan
      obtain ⟨hd, ho⟩ := hplan
      rw [update_planned h.live hr hp]
      refine ⟨hd.access, ?_⟩
      cases o with
      | error e =>
        refine ⟨T, h.remember ha hd version, .inr ⟨e, rfl, rfl, ?_⟩⟩
        obtain rfl | hrisk := ho
        · obtain ⟨hv, ⟨defect, rfl⟩, hn⟩ := hplans
          rw [if_neg hv, if_pos (Entries.any_nested.mpr (hm.nested.mp hn))] at hu
          exact .inl ⟨.key, hu, rfl⟩
        · exact .inr hrisk
      | ok found =>
        obtain rfl : r = .ok found := ho
        cases found with
        | none =>
          obtain ⟨hv, hnone⟩ := hplans
          rw [if_pos hv] at hu
          refine ⟨T, h.remember ha hd version,
            .inl ⟨_, hu, rfl, hm.set (Entries.getElem?_update hu) fun l => ?_⟩⟩
          constructor
          · exact fun hl => .inr ⟨hl, hnone l hl⟩
          · rintro (⟨hne, _⟩ | ⟨hl, _⟩)
            · exact absurd hv hne
            · exact hl
        | some found =>
          obtain ⟨c, rooted⟩ := found
          obtain ⟨⟨T', hc, hrooted⟩, hapart⟩ := hplans
          have hok : ∃ m', m.update key value = .ok m' := by
            rw [hu]
            split
            · exact ⟨_, rfl⟩
            · next hv =>
              rw [if_neg]
              · exact ⟨_, rfl⟩
              · rw [Entries.any_nested, ← hm.nested]
                rintro ⟨l, hl, hn⟩
                exact hapart hv l hl hn
          obtain ⟨m', hm'⟩ := hok
          exact ⟨T', h.follow ha hd hc hrooted, .inl ⟨m', hm', rfl,
            hm.set (Entries.getElem?_update hm') hc.has⟩⟩

/-- An update changes the map by what it reports. -/
theorem Represents.update_reported (h : t.Represents base T) (ha : a.Backed t.tree base)
    {m : Entries} (hm : T.Holds m) (hb : m.Bounded) (version : Version) (key value : ByteArray) :
    ∃ T', t.Becomes base T version (t.update version key value a).1.2 T' ∧
      T'.Holds (m.reported key value (t.update version key value a).1.1) ∧
      (m.reported key value (t.update version key value a).1.1).Bounded := by
  obtain ⟨_, T', hbecomes, ⟨m', hm', hok, hT'⟩ | ⟨e, he, rfl, _⟩⟩ :=
    h.update ha hm version key value
  · rw [hok, Entries.reported, hm']
    exact ⟨T', hbecomes, hT', hb.update hm'⟩
  · rw [he]
    exact ⟨T', hbecomes, hm, hb⟩

end Update

end Trie

end VersionedTrie
