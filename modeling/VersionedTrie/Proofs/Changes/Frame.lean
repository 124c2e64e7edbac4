import VersionedTrie.Proofs.Changes.Along
import VersionedTrie.Proofs.Handle
import VersionedTrie.Proofs.Tree.Beside

/-! # What changes leave alone

Changes that follow a walk along a path (`Changes.Follows`) leave every node beside the path where
it stands, with what it holds. The one exception is a leaf that a removal leaves alone below its
branches: it rises to a shorter path (`Follows.exists_promoted`). A node that stays is still
reached, since all nodes above it have been written or stay as well (`Follows.reached`), and what is
retired was reached before (`Follows.reached_of_retired`).

An update of a handle makes such changes or none (`Trie.Represents.update_cases`).
-/

set_option autoImplicit false

namespace VersionedTrie

open VersionedTrie.Tree

/-- Changes of a tree that set the value of a path, after a walk along the path. -/
structure Changes.Follows (find : NodeKey → Except Error Node) (tree : TreePrefix)
    (version : Version) (path : Path) (value : ByteArray) (w : Descent) (T T' : Tree) (c : Changes) :
    Prop where
  compact : T.Compact []
  sound : T.Sound tree find
  walk : descend find (T.key? tree []) path [] = .ok w
  sets : c.Sets tree version path value T T'
  along : c.Along find path fun k x => value.size ≠ 0 ∧ w.Pushes tree version path k x

/-- Neither written nor retired. -/
def Changes.Spares (c : Changes) (k : NodeKey) : Prop := c.written[k]? = none ∧ k ∉ c.retired

/-- The leaf under the node key is retired, and written higher up on the path. -/
def Changes.Rises (c : Changes) (path : Path) (k : NodeKey) (l : Leaf) : Prop :=
  k ∈ c.retired ∧ ∃ j : NodeKey, c.written[j]? = some (.leaf l) ∧ j.path <+: path ∧
    j.path <+: k.path ∧ j.path ≠ k.path

/-- What is found when the changes have been made: what they write, and else what was found before.
-/
structure Changes.Leaves (c : Changes) (find find' : NodeKey → Except Error Node) : Prop where
  written : ∀ k x, c.written[k]? = some x → find' k = .ok x
  spared : ∀ k, c.Spares k → find' k = find k

namespace Changes.Follows

variable {find find' : NodeKey → Except Error Node} {tree : TreePrefix} {version : Version}
  {path : Path} {value : ByteArray} {w : Descent} {T T' : Tree} {c : Changes} {j k : NodeKey}
  {x : Node} {b : Branch} {l m : Leaf}

section

variable (h : c.Follows find tree version path value w T T')
include h

theorem sameBeside : SameBeside path T T' := by
  intro l hl
  rw [h.sets.has]
  constructor
  · rintro (⟨-, rfl⟩ | ⟨hl, -⟩)
    · exact absurd rfl hl
    · exact hl
  · exact fun hT => .inr ⟨hT, hl⟩

theorem found (hk : Owns tree [] T k x) (hpath : k.path <+: path) : find k = .ok x :=
  found_on_path h.sound (z := []) rfl h.walk hk hpath

/-- The leaf that is pushed off the path stood higher up, on the path. -/
theorem pushed (hk : w.Pushes tree version path k x) :
    ∃ j l, x = .leaf l ∧ l.key ≠ path ∧ Owns tree [] T j (.leaf l) ∧ j.path <+: path ∧
      (¬ k.path <+: path → j.path <+: k.path ∧ j.path ≠ k.path) := by
  obtain ⟨j, l, hland, hl, rfl, rfl⟩ := hk
  obtain ⟨w', z, S, rest, hw, hspec⟩ := @descend_spec tree T [] T rfl path
  obtain hok | ⟨⟨e, he⟩, -⟩ := hspec find h.sound
  · obtain rfl : w' = w := Except.ok.inj (hok.symm.trans h.walk)
    have hlands := hw.lands
    rw [hland] at hlands
    cases hlands with
    | @leaf v =>
      have hj : Owns tree [] T (.ofPath v tree z.path) (.leaf l) := hw.plug ▸ owns_plug .leaf
      have hon : (NodeKey.ofPath v tree z.path).path <+: path := by
        rw [NodeKey.path_ofPath]
        exact ⟨rest, hw.path.symm⟩
      refine ⟨_, l, rfl, hl, hj, hon, fun hoff => ?_⟩
      rw [NodeKey.path_ofPath _ _ (l.key.take _)] at hoff ⊢
      obtain hjk | hkj := List.prefix_or_prefix_of_prefix (hj.has_leaf h.compact rfl).2.1
        (List.take_prefix (Path.commonLength l.key path + 1) l.key)
      · exact ⟨hjk, fun e => hoff (e ▸ hon)⟩
      · exact absurd (hkj.trans hon) hoff
  · have hwalk := h.walk
    rw [show descend find (T.key? tree []) path [] = .error e from he] at hwalk
    cases hwalk

/-- What is written beside the path is one leaf, which is pushed off it. -/
theorem exists_pushed : ∃ pushed : Option NodeKey, ∀ (k : NodeKey) x, c.written[k]? = some x →
    ¬ k.path <+: path → pushed = some k ∧ value.size ≠ 0 ∧ ∃ l j, x = .leaf l ∧ l.key ≠ path ∧
      Owns tree [] T j (.leaf l) ∧ j.path <+: path ∧ j.path <+: k.path ∧ j.path ≠ k.path := by
  have hpush (k : NodeKey) (x : Node) (hw : c.written[k]? = some x) (hoff : ¬ k.path <+: path) :
      value.size ≠ 0 ∧ w.Pushes tree version path k x :=
    (h.along.written k x hw).resolve_left hoff
  by_cases hex : ∃ (k : NodeKey) (x : Node), c.written[k]? = some x ∧ ¬ k.path <+: path
  · obtain ⟨i, y, hi, hioff⟩ := hex
    refine ⟨some i, fun k x hk hoff => ⟨?_, (hpush k x hk hoff).1, ?_⟩⟩
    · rw [(hpush i y hi hioff).2.eq (hpush k x hk hoff).2]
    · obtain ⟨j, l, hx, hl, hj, hjpath, habove⟩ := h.pushed (hpush k x hk hoff).2
      exact ⟨l, j, hx, hl, hj, hjpath, habove hoff⟩
  · exact ⟨none, fun k x hk hoff => absurd ⟨k, x, hk, hoff⟩ hex⟩

/-! ## Nodes beside the path -/

theorem branch_stays (hk : Owns tree [] T k (.branch b)) (hoff : ¬ k.path <+: path) :
    c.Spares k ∧ Owns tree [] T' k (.branch b) := by
  obtain ⟨j, b', hj, hpath⟩ := hk.branch_stays h.compact h.sets.compact h.sameBeside hoff
  obtain hw | ⟨hw, hr, hT⟩ := h.sets.patches.fresh j _ hj
  · obtain ⟨_, hpush⟩ := h.exists_pushed
    obtain ⟨-, -, _, _, hx, -⟩ := hpush j _ hw (hpath.symm ▸ hoff)
    cases hx
  · obtain rfl := hT.eq_of_path hk hpath
    rw [hk.unique hT]
    exact ⟨⟨hw, hr⟩, hj⟩

/-- Where a value is set, a leaf stands in the new tree no higher than in the old one. -/
theorem path_eq_of_leaf (hv : value.size ≠ 0) (hk : Owns tree [] T k (.leaf l))
    (hj : Owns tree [] T' j (.leaf l)) (hjk : j.path <+: k.path) : j.path = k.path := by
  by_contra hne
  obtain ⟨a, d, ha, hd, had, hja, hjd⟩ := hk.forks_above h.compact List.nil_prefix hjk hne
  obtain ⟨-, -, honly⟩ := hj.has_leaf h.sets.compact rfl
  -- every key of the old tree is a key of the new one
  have hkept : ∀ r, T.Has r → j.path <+: r.key → r.key = l.key := by
    intro r hr hjr
    by_cases hp : r.key = path
    · have hset := honly (Leaf.make path value) ((h.sets.has _).mpr (.inl ⟨hv, rfl⟩)) (hp ▸ hjr)
      rw [← hset, hp]
      rfl
    · rw [honly r ((h.sets.has r).mpr (.inr ⟨hr, hp⟩)) hjr]
  exact had (by rw [hkept a ha hja, hkept d hd hjd])

theorem leaf_stays_or_rises (hk : Owns tree [] T k (.leaf l)) (hoff : ¬ k.path <+: path) :
    (c.Spares k ∧ Owns tree [] T' k (.leaf l)) ∨ (value.size = 0 ∧ c.Rises path k l) := by
  obtain ⟨j, hj, hjk⟩ := hk.leaf_stays_or_rises h.compact h.sets.compact h.sameBeside hoff
  obtain hw | ⟨hw, hr, hT⟩ := h.sets.patches.fresh j _ hj
  · have hon : j.path <+: path := by
      by_contra hjoff
      obtain ⟨_, hpush⟩ := h.exists_pushed
      obtain ⟨-, -, m, i, hm, -, hi, hipath, -⟩ := hpush j _ hw hjoff
      cases hm
      rw [hi.eq_of_leaf h.compact hk] at hipath
      exact hoff hipath
    have hne : j.path ≠ k.path := fun e => hoff (e ▸ hon)
    refine .inr ⟨?_, ?_, j, hw, hon, hjk, hne⟩
    · by_contra hv
      exact hne (h.path_eq_of_leaf hv hk hj hjk)
    · refine (h.sets.patches.stale k _ hk).resolve_right fun hkept => hne ?_
      rw [hj.eq_of_leaf h.sets.compact hkept.2]
  · obtain rfl := hT.eq_of_leaf h.compact hk
    exact .inl ⟨⟨hw, hr⟩, hj⟩

theorem eq_of_rises (hj : Owns tree [] T j (.leaf l)) (hrj : c.Rises path j l)
    (hk : Owns tree [] T k (.leaf m)) (hrk : c.Rises path k m) : j = k := by
  obtain ⟨-, i, hi, hipath, -⟩ := hrj
  obtain ⟨-, i', hi', hipath', -⟩ := hrk
  have hown := h.sets.patches.written i _ hi
  have hown' := h.sets.patches.written i' _ hi'
  obtain rfl := hown.eq_of_on_path hown' h.sets.compact hipath hipath'
  cases hown.unique hown'
  exact hj.eq_of_leaf h.compact hk

/-- Beside the path every node stays, but for one leaf, which a removal lets rise. -/
theorem exists_promoted : ∃ promoted : Option NodeKey, ∀ k x, Owns tree [] T k x →
    ¬ k.path <+: path → (c.Spares k ∧ Owns tree [] T' k x) ∨
      (promoted = some k ∧ value.size = 0 ∧ ∃ l, x = .leaf l ∧ c.Rises path k l) := by
  have hcases (k : NodeKey) (x : Node) (hk : Owns tree [] T k x) (hoff : ¬ k.path <+: path) :
      (c.Spares k ∧ Owns tree [] T' k x) ∨
        (value.size = 0 ∧ ∃ l, x = .leaf l ∧ c.Rises path k l) := by
    cases x with
    | branch b => exact .inl (h.branch_stays hk hoff)
    | leaf l => exact (h.leaf_stays_or_rises hk hoff).imp_right fun hr => ⟨hr.1, l, rfl, hr.2⟩
  by_cases hex : ∃ k l, Owns tree [] T k (.leaf l) ∧ c.Rises path k l
  · obtain ⟨j, m, hj, hrises⟩ := hex
    refine ⟨some j, fun k x hk hoff => (hcases k x hk hoff).imp_right ?_⟩
    rintro ⟨hv, l, rfl, hr⟩
    exact ⟨by rw [h.eq_of_rises hj hrises hk hr], hv, l, rfl, hr⟩
  · refine ⟨none, fun k x hk hoff => .inl ((hcases k x hk hoff).resolve_right ?_)⟩
    rintro ⟨-, l, rfl, hr⟩
    exact hex ⟨k, l, hk, hr⟩

/-! ## Reaching -/

/-- A node of the new tree is reached if, apart from it, the nodes above it that stay were found. -/
theorem reached (hfind : c.Leaves find find') (hk : Owns tree [] T' k x)
    (habove : ∀ j y, Owns tree [] T j y → j.path <+: k.path → j ≠ k → find j = .ok y) :
    Reached find' (T'.key? tree []) k := by
  obtain ⟨top, htop⟩ := exists_key?_of_owns hk
  refine reached_of_owns hk htop (.root htop) fun j y _ hj hjk hne => ?_
  obtain hw | ⟨hw, hr, hT⟩ := h.sets.patches.fresh j y hj
  · exact hfind.written j y hw
  · rw [hfind.spared j ⟨hw, hr⟩]
    exact habove j y hT hjk hne

/-- A node is reached if the nodes above it are on the path. -/
theorem reached_of_above (hk : Owns tree [] T k x)
    (habove : ∀ p, p <+: k.path → p ≠ k.path → p <+: path) : Reached find (T.key? tree []) k := by
  obtain ⟨top, htop⟩ := exists_key?_of_owns hk
  refine reached_of_owns hk htop (.root htop) fun j y _ hj hjk hne => h.found hj ?_
  exact habove j.path hjk fun e => hne (hj.eq_of_path hk e)

theorem reached_of_retired (hk : k ∈ c.retired) : Reached find (T.key? tree []) k := by
  obtain ⟨x, hx⟩ := h.sets.patches.retired k hk
  exact h.reached_of_above hx fun p hp hne =>
    (Path.prefix_dropLast hp hne).trans (h.along.near k hk)

/-- What is written on the path is reached. -/
theorem reached_of_written (hfind : c.Leaves find find') (hw : c.written[k]? = some x)
    (hpath : k.path <+: path) : Reached find' (T'.key? tree []) k :=
  h.reached hfind (h.sets.patches.written k x hw) fun _ _ hj hjk _ => h.found hj (hjk.trans hpath)

/-- A node that is reached and stays is reached still. -/
theorem reached_of_spared (hfind : c.Leaves find find') (hk : Reached find (T.key? tree []) k)
    (hown : Owns tree [] T' k x) : Reached find' (T'.key? tree []) k :=
  h.reached hfind hown fun _ _ hj hjk hne => hk.found_above h.sound hj hjk hne

end

end Changes.Follows

/-! ## Updates of a handle -/

namespace Trie

variable {t : Trie} {a : Access} {base T : Tree} {version : Version} {key value : ByteArray}

/-- What a handle finds after changes have been applied to it. -/
theorem leaves_apply (t : Trie) (a : Access) (c : Changes) :
    c.Leaves (t.find a) ((t.apply c).find a) where
  written _ _ h := find_dirty (dirty_apply_written h)
  spared k h := by
    rw [find, find, dirty_apply h.1, if_neg h.2, seen_apply h.2]

/-- An update changes nothing but what the handle remembers, or it applies changes that follow a
walk along the path of the key. -/
theorem Represents.update_cases (h : t.Represents base T) (ha : a.Backed t.tree base)
    (version : Version) (key value : ByteArray) :
    ∃ d, Draft.Agrees t ⟨a, t.seen⟩ d ∧ (t.update version key value a).2 = d.access ∧
      ((t.update version key value a).1.2 = { t with seen := d.seen } ∨
        ∃ w c T', key.size ≠ 0 ∧
          c.Follows (t.find a) t.tree version (Path.ofKey key) value w T T' ∧
          (value.size = 0 → (w.value? (Path.ofKey key)).isSome) ∧
          (t.update version key value a).1.2 =
            { { t with seen := d.seen }.apply c with root := T'.key? t.tree [] }) := by
  cases hr : refusal key value with
  | some e =>
    rw [update_refused h.live hr]
    exact ⟨⟨a, t.seen⟩, refl_of (Draft.Agrees t) _, rfl, .inl rfl⟩
  | none =>
    have hkey : key.size ≠ 0 := by
      intro hk
      rw [refusal, if_pos hk] at hr
      cases hr
    have hroot : ∀ k, t.root = some k → k.tree = t.tree ∧ k.path = [] := by
      intro k hk
      rw [h.root] at hk
      exact ⟨tree_key? hk, path_key? hk⟩
    obtain ⟨r, hplans, hanswers⟩ := plan_answers t.tree version key value h.compact
    have hplan := hanswers t ⟨a, t.seen⟩ rfl h.root (h.sound ha)
    have halong := @plan_along t ⟨a, t.seen⟩ key value version hroot
    cases hp : t.plan version key value ⟨a, t.seen⟩ with
    | mk o d =>
      rw [Answers, Yields, hp] at hplan
      rw [Yields, hp] at halong
      rw [update_planned h.live hr hp]
      refine ⟨d, hplan.1, rfl, ?_⟩
      cases o with
      | error e => exact .inl rfl
      | ok found =>
        obtain rfl : r = .ok found := hplan.2
        cases found with
        | none => exact .inl rfl
        | some found =>
          obtain ⟨c, rooted⟩ := found
          obtain ⟨⟨T', hc, hrooted⟩, -⟩ := hplans
          obtain ⟨-, w, hw, hchanges⟩ := halong
          obtain ⟨halong, hcame⟩ := hchanges c rooted rfl
          rw [h.root] at hw
          refine .inr ⟨w, c, T', hkey, ⟨h.compact, h.sound ha, hw, hc, halong⟩, hcame, ?_⟩
          rw [key?_of_settled hc.settled, ← hrooted]

end Trie

end VersionedTrie
