import VersionedTrie.Proofs.Tree.Basic

/-! # Trees in context

A walk from the root leaves a context behind: the branches passed, the deepest first, each with the
nibble by which it was left. `plug` puts a tree back where the walk stands. An update puts another
tree there and writes the branches passed anew: `rewrite` does only that, as an insertion needs it,
and `withdraw` also drops branches that have become empty and replaces a branch whose only child is
a leaf by that leaf, as a removal needs it.

The leaves of all three are those of the tree put in and those beside the walk (`has_plug`,
`has_rewrite`, `has_withdraw`), the latter have keys that part from the path of the walk
(`parts_of_beside`), and both keep a compact tree compact (`compact_rewrite`, `compact_withdraw`).
-/

set_option autoImplicit false

namespace VersionedTrie

namespace Tree

/-! ## The place of a branch whose children have changed -/

/-- The same node under another version. -/
def moved (version : Version) : Tree → Tree
  | vacant => vacant
  | leaf _ l => leaf version l
  | branch _ below => branch version below

/-- What stands in the place of a branch with the given trees below it. -/
def settle (version : Version) (below : Nibble → Tree) : Tree :=
  if (joining below).children.isEmpty then vacant
  else
    match (joining below).onlyLeaf? with
    | some (n, _) => (below n).moved version
    | none => branch version below

theorem onlyLeaf?_joining {below : Nibble → Tree} {n : Nibble} {c : Child}
    (h : (joining below).onlyLeaf? = some (n, c)) :
    ∃ l, below n = leaf c.version l ∧ c = ⟨l.digest, c.version, true⟩ ∧
      ∀ m, m ≠ n → below m = vacant := by
  obtain ⟨hc, hleaf, hother⟩ := Branch.onlyLeaf?_eq_some.mp h
  have hv : ∀ m, m ≠ n → below m = vacant := by
    intro m hm
    have := hother m hm
    rwa [child?_joining, slot_eq_none] at this
  rw [child?_joining] at hc
  cases hb : below n with
  | vacant =>
    rw [hb] at hc
    cases hc
  | leaf version l =>
    rw [hb] at hc
    cases hc
    exact ⟨l, rfl, rfl, hv⟩
  | branch version below' =>
    rw [hb, slot, Option.some.injEq] at hc
    rw [← hc] at hleaf
    exact absurd hleaf Bool.false_ne_true

theorem crowded_of_onlyLeaf? {below : Nibble → Tree}
    (he : ¬ (joining below).children.isEmpty = true) (ho : (joining below).onlyLeaf? = none) :
    Crowded below := by
  rw [isEmpty_joining] at he
  obtain ⟨n, hn⟩ := not_forall.mp he
  cases hb : below n with
  | vacant => exact absurd hb hn
  | branch version below' => exact .inl ⟨n, by rw [hb]; trivial⟩
  | leaf version l =>
    by_cases hother : ∀ m, m ≠ n → below m = vacant
    · have hs : (joining below).onlyLeaf? = some (n, ⟨l.digest, version, true⟩) := by
        rw [Branch.onlyLeaf?_eq_some]
        refine ⟨by rw [child?_joining, hb, slot], rfl, fun m hm => ?_⟩
        rw [child?_joining, hother m hm, slot]
      rw [ho] at hs
      cases hs
    · obtain ⟨m, hm⟩ := not_forall.mp hother
      obtain ⟨hmn, hm⟩ := Classical.not_imp.mp hm
      exact .inr ⟨m, n, hmn, hm, by simp [hb]⟩

theorem settle_cases (version : Version) (below : Nibble → Tree) :
    ((∀ n, below n = vacant) ∧ settle version below = vacant) ∨
      (∃ n v l, below n = leaf v l ∧ (∀ m, m ≠ n → below m = vacant) ∧
        settle version below = leaf version l) ∨
      (Crowded below ∧ settle version below = branch version below) := by
  unfold settle
  split
  · next he => exact .inl ⟨isEmpty_joining.mp he, rfl⟩
  · next he =>
    split
    · next n c ho =>
      obtain ⟨l, hl, _, hother⟩ := onlyLeaf?_joining ho
      exact .inr (.inl ⟨n, c.version, l, hl, hother, by rw [hl]; rfl⟩)
    · next ho => exact .inr (.inr ⟨crowded_of_onlyLeaf? he ho, rfl⟩)

theorem has_settle {version : Version} {below : Nibble → Tree} {l : Leaf} :
    (settle version below).Has l ↔ ∃ n, (below n).Has l := by
  obtain ⟨hv, h⟩ | ⟨n, v, m, hn, hother, h⟩ | ⟨_, h⟩ := settle_cases version below
  · rw [h]
    constructor
    · exact fun hl => absurd hl not_has_vacant
    · rintro ⟨n, hl⟩
      rw [hv n] at hl
      exact hl
  · rw [h, has_leaf]
    constructor
    · rintro rfl
      exact ⟨n, by rw [hn]; exact .leaf⟩
    · rintro ⟨k, hl⟩
      by_cases hk : k = n
      · subst hk
        rw [hn, has_leaf] at hl
        exact hl
      · rw [hother k hk] at hl
        exact absurd hl not_has_vacant
  · rw [h, has_branch]

theorem compact_settle {p : Path} {version : Version} {below : Nibble → Tree}
    (hb : ∀ n, (below n).Compact (p ++ [n])) : (settle version below).Compact p := by
  obtain ⟨_, h⟩ | ⟨n, v, m, hn, _, h⟩ | ⟨hc, h⟩ := settle_cases version below
  · rw [h]
    exact .vacant
  · rw [h]
    refine .leaf ((List.prefix_append p [n]).trans ((hb n).prefix_of_has ?_))
    rw [hn]
    exact .leaf
  · rw [h]
    exact .branch hb hc

end Tree

/-! ## Contexts -/

/-- A branch passed: the trees below it and the nibble by which it was left. -/
structure Frame where
  version : Version
  below : Nibble → Tree
  nibble : Nibble

/-- The trees below a branch passed, with another one where it was left. -/
def Frame.fill (f : Frame) (T : Tree) : Nibble → Tree := Function.update f.below f.nibble T

abbrev Context := List Frame

namespace Context

open VersionedTrie.Tree

def path : Context → Path
  | [] => []
  | f :: above => path above ++ [f.nibble]

def plug : Context → Tree → Tree
  | [], T => T
  | f :: above, T => plug above (.branch f.version (f.fill T))

def rewrite (version : Version) : Context → Tree → Tree
  | [], T => T
  | f :: above, T => rewrite version above (.branch version (f.fill T))

def withdraw (version : Version) : Context → Tree → Tree
  | [], T => T
  | f :: above, T => withdraw version above (settle version (f.fill T))

def Beside (l : Leaf) : Context → Prop
  | [] => False
  | f :: above => (∃ n, n ≠ f.nibble ∧ (f.below n).Has l) ∨ Beside l above

@[simp] theorem length_path (z : Context) : z.path.length = z.length := by
  induction z with
  | nil => rfl
  | cons f above ih => simp [path, ih]

/-! ## Leaves -/

theorem has_fill {version : Version} {f : Frame} {T : Tree} {l : Leaf} :
    (Tree.branch version (f.fill T)).Has l ↔ T.Has l ∨ ∃ n, n ≠ f.nibble ∧ (f.below n).Has l :=
  has_branch_update

theorem has_plug {z : Context} {T : Tree} {l : Leaf} :
    (z.plug T).Has l ↔ T.Has l ∨ z.Beside l := by
  induction z generalizing T with
  | nil => simp [plug, Beside]
  | cons f above ih => rw [plug, ih, has_fill, Beside, or_assoc]

theorem has_rewrite {version : Version} {z : Context} {T : Tree} {l : Leaf} :
    (z.rewrite version T).Has l ↔ T.Has l ∨ z.Beside l := by
  induction z generalizing T with
  | nil => simp [rewrite, Beside]
  | cons f above ih => rw [rewrite, ih, has_fill, Beside, or_assoc]

theorem has_withdraw {version : Version} {z : Context} {T : Tree} {l : Leaf} :
    (z.withdraw version T).Has l ↔ T.Has l ∨ z.Beside l := by
  induction z generalizing T with
  | nil => simp [withdraw, Beside]
  | cons f above ih =>
    have hs : (settle version (f.fill T)).Has l ↔ (Tree.branch version (f.fill T)).Has l := by
      rw [has_settle, has_branch]
    rw [withdraw, ih, hs, has_fill, Beside, or_assoc]

/-! ## Shape -/

theorem compact_of_plug {z : Context} {T : Tree} (h : (z.plug T).Compact []) :
    T.Compact z.path := by
  induction z generalizing T with
  | nil => exact h
  | cons f above ih =>
    have := (ih h).child f.nibble
    rwa [Frame.fill, Function.update_self] at this

theorem compact_below {f : Frame} {above : Context} {T : Tree}
    (h : (plug (f :: above) T).Compact []) {n : Nibble} (hn : n ≠ f.nibble) :
    (f.below n).Compact (path above ++ [n]) := by
  have := (compact_of_plug (z := above) h).child n
  rwa [Frame.fill, Function.update_of_ne hn] at this

/-- The key of a leaf beside the walk parts from the path of the walk. -/
theorem parts_of_beside {z : Context} {T : Tree} (h : (z.plug T).Compact []) {l : Leaf}
    (hl : z.Beside l) : Path.Parts z.path l.key := by
  induction z generalizing T with
  | nil => exact absurd hl id
  | cons f above ih =>
    obtain ⟨n, hn, hl⟩ | hl := hl
    · exact ⟨path above, f.nibble, n, hn.symm, List.prefix_rfl,
        (compact_below h hn).prefix_of_has hl⟩
    · exact (ih h hl).extend (List.prefix_append _ _) List.prefix_rfl

theorem compact_fill {f : Frame} {above : Context} {S T : Tree}
    (h : (plug (f :: above) S).Compact []) (hT : T.Compact (path (f :: above))) (n : Nibble) :
    (f.fill T n).Compact (path above ++ [n]) := by
  by_cases hn : n = f.nibble
  · subst hn
    rwa [Frame.fill, Function.update_self]
  · rw [Frame.fill, Function.update_of_ne hn]
    exact compact_below h hn

theorem crowded_fill {f : Frame} {S T : Tree} (h : Crowded (f.fill S)) (hT : T ≠ vacant)
    (hb : S.IsBranch → T.IsBranch) : Crowded (f.fill T) := by
  have := h.update f.nibble hT (by rwa [Frame.fill, Function.update_self])
  rwa [Frame.fill, Function.update_idem] at this

theorem compact_rewrite (version : Version) {z : Context} {S T : Tree}
    (h : (z.plug S).Compact []) (hT : T.Compact z.path) (hv : T ≠ vacant)
    (hb : S.IsBranch → T.IsBranch) : (z.rewrite version T).Compact [] := by
  induction z generalizing S T with
  | nil => exact hT
  | cons f above ih =>
    have hc := (compact_of_plug (z := above) h).crowded
    exact ih h (.branch (compact_fill h hT) (crowded_fill hc hv hb)) nofun fun _ => trivial

theorem isBranch_rewrite (version : Version) (f : Frame) (above : Context) (T : Tree) :
    (rewrite version (f :: above) T).IsBranch := by
  induction above generalizing f T with
  | nil => trivial
  | cons g above ih => exact ih g _

theorem compact_withdraw (version : Version) {z : Context} {S T : Tree}
    (h : (z.plug S).Compact []) (hT : T.Compact z.path) : (z.withdraw version T).Compact [] := by
  induction z generalizing S T with
  | nil => exact hT
  | cons f above ih => exact ih h (compact_settle (compact_fill h hT))

end Context

end VersionedTrie
