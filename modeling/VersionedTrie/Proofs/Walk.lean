import VersionedTrie.Proofs.Tree.Context
import VersionedTrie.Proofs.Tree.Shape
import VersionedTrie.Proofs.Reading
import VersionedTrie.Trie.Descent

/-! # Walks through a tree

Walking down from the root of a tree passes the branches of a context and lands in what is left
(`Descent.Walked`), provided that no node key leads to another node than the tree has under it
(`Tree.Sound`). Where every node is found (`Tree.Whole`), a walk never fails, and conversely a tree
is whole if none of the walks to its leaves fails (`whole_of_descend`).
-/

set_option autoImplicit false

namespace VersionedTrie

open VersionedTrie.Tree

theorem NodeKey.child_ofPath (v w : Version) (tree : TreePrefix) (p : Path) (n : Nibble) :
    (ofPath v tree p).child w n = ofPath w tree (p ++ [n]) :=
  ext_path rfl rfl (by simp)

def Context.steps (tree : TreePrefix) : Context → List Step
  | [] => []
  | f :: above =>
    ⟨.ofPath f.version tree (path above), joining f.below, f.nibble⟩ :: steps tree above

@[simp] theorem Context.length_steps (tree : TreePrefix) (z : Context) :
    (z.steps tree).length = z.length := by
  induction z with
  | nil => rfl
  | cons f above ih => simp [steps, ih]

/-! ## What is found -/

namespace Tree

/-- No node key of the tree leads to another node. -/
def Sound (tree : TreePrefix) (T : Tree) (find : NodeKey → Except Error Node) : Prop :=
  ∀ k x y, Owns tree [] T k x → find k = .ok y → y = x

def Whole (tree : TreePrefix) (T : Tree) (find : NodeKey → Except Error Node) : Prop :=
  ∀ k x, Owns tree [] T k x → find k = .ok x

variable {tree : TreePrefix} {T : Tree} {find : NodeKey → Except Error Node}

theorem Whole.sound (h : T.Whole tree find) : T.Sound tree find := by
  intro k x y hk hy
  rw [h k x hk] at hy
  exact (Except.ok.inj hy).symm

theorem owns_plug {z : Context} {S : Tree} {k : NodeKey} {x : Node}
    (h : Owns tree z.path S k x) : Owns tree [] (z.plug S) k x := by
  induction z generalizing S with
  | nil => exact h
  | cons f above ih => exact ih (.child f.nibble (by rwa [Frame.fill, Function.update_self]))

end Tree

/-! ## Landing -/

/-- Where a walk along a path lands, in terms of the tree that stands there. -/
inductive Lands (tree : TreePrefix) (p : Path) : Tree → Path → Landing → Prop
  | vacant {rest : Path} : Lands tree p .vacant rest .vacant
  | leaf {version : Version} {l : Leaf} {rest : Path} :
    Lands tree p (.leaf version l) rest (.leaf (.ofPath version tree p) l)
  | exhausted {version : Version} {below : Nibble → Tree} :
    Lands tree p (.branch version below) []
      (.exhausted (.ofPath version tree p) (joining below))

namespace Descent

/-- A walk along a path through the tree `T` has passed the branches of a context and landed at the
tree `S`, with the rest of the path before it. -/
structure Walked (d : Descent) (tree : TreePrefix) (T : Tree) (path : Path) (z : Context)
    (S : Tree) (rest : Path) : Prop where
  plug : z.plug S = T
  path : path = z.path ++ rest
  steps : d.steps = z.steps tree
  lands : Lands tree z.path S rest d.landing

def value? (d : Descent) (path : Path) : Option ByteArray :=
  match d.landing with
  | .leaf _ l => if l.key = path then some l.value else none
  | _ => none

variable {d : Descent} {tree : TreePrefix} {T S : Tree} {path rest : Path} {z : Context}

theorem Walked.parts (h : d.Walked tree T path z S rest) (hT : T.Compact []) {l : Leaf}
    (hl : z.Beside l) : Path.Parts l.key path := by
  rw [h.path]
  rw [← h.plug] at hT
  exact ((Context.parts_of_beside hT hl).extend (List.prefix_append _ _) List.prefix_rfl).symm

theorem Walked.compact (h : d.Walked tree T path z S rest) (hT : T.Compact []) :
    S.Compact z.path := by
  rw [← h.plug] at hT
  exact Context.compact_of_plug hT


/-- A walk comes to the value of the leaf that has its path as the key. -/
theorem Walked.value?_eq_some (h : d.Walked tree T path z S rest) (hT : T.Compact []) {l : Leaf}
    (hl : T.Has l) (hkey : l.key = path) : d.value? path = some l.value := by
  have hS := h.compact hT
  obtain ⟨steps, landing⟩ := d
  rw [← h.plug, Context.has_plug] at hl
  obtain hl | hl := hl
  · have hland := h.lands
    have hpath := h.path
    simp only at hland
    cases hland with
    | vacant => exact absurd hl not_has_vacant
    | leaf =>
      rw [← has_leaf.mp hl]
      exact if_pos hkey
    | exhausted =>
      rw [List.append_nil] at hpath
      exact absurd (hkey.trans hpath) (hS.key_ne hl)
  · exact absurd hkey (h.parts hT hl).ne

theorem Walked.value?_eq_none (h : d.Walked tree T path z S rest)
    (hkey : ∀ l, T.Has l → l.key ≠ path) : d.value? path = none := by
  obtain ⟨steps, landing⟩ := d
  have hland := h.lands
  simp only at hland
  cases hland with
  | vacant => rfl
  | exhausted => rfl
  | @leaf version l =>
    refine if_neg (hkey l ?_)
    rw [← h.plug, Context.has_plug]
    exact .inl .leaf

end Descent

/-! ## Walking down -/

section Descend

variable {tree : TreePrefix} {T : Tree} {find : NodeKey → Except Error Node}

/-- A branch that has been left by a nibble is one more branch passed. -/
theorem key?_child (tree : TreePrefix) (version : Version) (below : Nibble → Tree) (p : Path)
    (n : Nibble) :
    ((joining below).child? n).map (fun c => (NodeKey.ofPath version tree p).child c.version n) =
      (below n).key? tree (p ++ [n]) := by
  rw [child?_joining, key?]
  cases below n with
  | vacant => rfl
  | leaf w l => exact congrArg some (NodeKey.child_ofPath version w tree p n)
  | branch w below => exact congrArg some (NodeKey.child_ofPath version w tree p n)

/-- What a branch of a tree records of a child is true of the node below it. -/
theorem Tree.Owns.exists_child {p : Path} {k : NodeKey} {x : Node} (hk : Owns tree p T k x)
    {b : Branch} {n : Nibble} {c : Child} (hx : x = .branch b) (hc : b.child? n = some c) :
    ∃ y, Owns tree p T (k.child c.version n) y ∧ y.asChild c.version = c := by
  induction hk with
  | leaf => cases hx
  | @branch p version below =>
    cases hx
    rw [child?_joining] at hc
    rw [NodeKey.child_ofPath]
    cases hy : (below n).node? with
    | none =>
      rw [node?_eq_none.mp hy] at hc
      cases hc
    | some y =>
      obtain ⟨j, hj⟩ := key?_of_node? hy tree (p ++ [n])
      obtain ⟨w, hw, rfl⟩ := Option.map_eq_some_iff.mp hj
      rw [slot_eq hy hw] at hc
      obtain rfl := Option.some.inj hc
      exact ⟨y, .child n (owns_self hj hy), rfl⟩
  | child n _ ih =>
    obtain ⟨y, hy, hcy⟩ := ih hx
    exact ⟨y, .child n hy, hcy⟩

section Steps

variable {key : NodeKey} {rest : Path} {steps : List Step}

theorem descend_none : descend find none rest steps = .ok ⟨steps, .vacant⟩ := by
  cases rest <;> rfl

theorem descend_error {e : Error} (h : find key = .error e) :
    descend find (some key) rest steps = .error e := by
  cases rest <;> rw [descend, h] <;> rfl

theorem exists_find_of_descend {d : Descent} (h : descend find (some key) rest steps = .ok d) :
    ∃ x, find key = .ok x := by
  cases hf : find key with
  | ok x => exact ⟨x, rfl⟩
  | error e =>
    rw [descend_error hf] at h
    cases h

theorem descend_leaf {l : Leaf} (h : find key = .ok (.leaf l)) :
    descend find (some key) rest steps = .ok ⟨steps, .leaf key l⟩ := by
  cases rest <;> rw [descend, h] <;> rfl

theorem descend_exhausted {b : Branch} (h : find key = .ok (.branch b)) :
    descend find (some key) [] steps = .ok ⟨steps, .exhausted key b⟩ := by
  rw [descend, h]
  rfl

theorem descend_branch {b : Branch} (h : find key = .ok (.branch b)) (n : Nibble) :
    descend find (some key) (n :: rest) steps =
      descend find ((b.child? n).map fun c => key.child c.version n) rest
        (⟨key, b, n⟩ :: steps) := by
  rw [descend, h]
  rfl

end Steps

/-- Under a node key of the tree its node is found, or the tree is not whole. -/
theorem find_cases (hs : T.Sound tree find) {k : NodeKey} {x : Node} (hk : Owns tree [] T k x) :
    find k = .ok x ∨ (∃ e, find k = .error e) ∧ ¬ T.Whole tree find := by
  cases hf : find k with
  | ok y =>
    rw [hs k x y hk hf]
    exact .inl rfl
  | error e =>
    refine .inr ⟨⟨e, rfl⟩, fun hw => ?_⟩
    rw [hw k x hk] at hf
    cases hf

/-- An action that is answered by what is found gives the node of a tree. -/
theorem owned_answers {σ : Type} {R : σ → σ → Prop} {F : Prop} {s : σ}
    {load : ExceptT Error (StateM σ) Node} {k : NodeKey} {x : Node} (hs : T.Sound tree find)
    (hload : Answers R F load s (find k)) (hk : Owns tree [] T k x) :
    Answers R (¬ T.Whole tree find ∨ F) load s (.ok x) := by
  obtain hf | ⟨⟨e, hf⟩, hw⟩ := find_cases hs hk
  · rw [hf] at hload
    exact hload.mono .inr
  · rw [hf] at hload
    exact Yields.mono hload (fun _ => nofun) fun _ _ => .inr (.inl hw)

theorem plug_child {z : Context} {version : Version} {below : Nibble → Tree} (n : Nibble) :
    Context.plug (⟨version, below, n⟩ :: z) (below n) = z.plug (.branch version below) := by
  rw [Context.plug, Frame.fill, Function.update_eq_self]

/-- Where a walk lands is for the tree to say; what is found decides only whether it gets there. -/
theorem descend_spec {z : Context} {S : Tree} (hz : z.plug S = T) (rest : Path) :
    ∃ w z' S' rest', w.Walked tree T (z.path ++ rest) z' S' rest' ∧
      ∀ find, T.Sound tree find →
        descend find (S.key? tree z.path) rest (z.steps tree) = .ok w ∨
          (∃ e, descend find (S.key? tree z.path) rest (z.steps tree) = .error e) ∧
            ¬ T.Whole tree find := by
  induction S generalizing z rest with
  | vacant =>
    exact ⟨⟨z.steps tree, .vacant⟩, z, .vacant, rest, ⟨hz, rfl, rfl, .vacant⟩,
      fun _ _ => .inl descend_none⟩
  | leaf version l =>
    have hk : Owns tree [] T (.ofPath version tree z.path) (.leaf l) := hz ▸ owns_plug .leaf
    refine ⟨⟨z.steps tree, .leaf (.ofPath version tree z.path) l⟩, z, .leaf version l, rest,
      ⟨hz, rfl, rfl, .leaf⟩, fun find hs => ?_⟩
    rw [key?, version?, Option.map_some]
    obtain hf | ⟨⟨e, hf⟩, hw⟩ := find_cases hs hk
    · exact .inl (descend_leaf hf)
    · exact .inr ⟨⟨e, descend_error hf⟩, hw⟩
  | branch version below ih =>
    have hk : Owns tree [] T (.ofPath version tree z.path) (.branch (joining below)) :=
      hz ▸ owns_plug .branch
    rw [key?, version?, Option.map_some]
    cases rest with
    | nil =>
      refine ⟨⟨z.steps tree, .exhausted (.ofPath version tree z.path) (joining below)⟩, z,
        .branch version below, [], ⟨hz, rfl, rfl, .exhausted⟩, fun find hs => ?_⟩
      obtain hf | ⟨⟨e, hf⟩, hw⟩ := find_cases hs hk
      · exact .inl (descend_exhausted hf)
      · exact .inr ⟨⟨e, descend_error hf⟩, hw⟩
    | cons n rest =>
      obtain ⟨w, z', S', rest', hwalked, hbelow⟩ :=
        ih n (z := ⟨version, below, n⟩ :: z) ((plug_child n).trans hz) rest
      rw [Context.path, List.append_assoc, List.singleton_append] at hwalked
      refine ⟨w, z', S', rest', hwalked, fun find hs => ?_⟩
      obtain hf | ⟨⟨e, hf⟩, hw⟩ := find_cases hs hk
      · rw [descend_branch hf, key?_child]
        exact hbelow find hs
      · exact .inr ⟨⟨e, descend_error hf⟩, hw⟩

/-- A walk through a tree has one answer, whatever it is made through. -/
theorem walk_answers (tree : TreePrefix) (T : Tree) (path : Path) :
    ∃ w z S rest, w.Walked tree T path z S rest ∧
      ∀ {σ : Type} {R : σ → σ → Prop} [IsPreorder σ R] {F : Prop} {s : σ}
        {load : NodeKey → ExceptT Error (StateM σ) Node} {find : NodeKey → Except Error Node},
        T.Sound tree find → (∀ s' key, R s s' → Answers R F (load key) s' (find key)) →
        Answers R (¬ T.Whole tree find ∨ F) (descend load (T.key? tree []) path []) s (.ok w) := by
  obtain ⟨w, z, S, rest, hwalked, hspec⟩ := @descend_spec tree T [] T rfl path
  refine ⟨w, z, S, rest, hwalked, ?_⟩
  intro σ R _ F s load find hs hload
  have hanswers := descend_answers hload (T.key? tree []) path []
  obtain hw | ⟨⟨e, he⟩, hw⟩ := hspec find hs
  · rw [show descend find (T.key? tree []) path [] = .ok w from hw] at hanswers
    exact hanswers.mono .inr
  · rw [show descend find (T.key? tree []) path [] = .error e from he] at hanswers
    exact Yields.mono hanswers (fun _ => nofun) fun _ _ => .inr (.inl hw)

theorem found_of_descend (hs : T.Sound tree find) (hT : T.Compact []) {z : Context} {S : Tree}
    (hz : z.plug S = T)
    (hd : ∀ l rest, S.Has l → l.key = z.path ++ rest →
      ∃ d, descend find (S.key? tree z.path) rest (z.steps tree) = .ok d)
    {k : NodeKey} {x : Node} (hk : Owns tree z.path S k x) : find k = .ok x := by
  induction S generalizing z with
  | vacant => exact absurd hk not_owns_vacant
  | leaf version l =>
    have hown : Owns tree [] T k x := hz ▸ owns_plug hk
    obtain ⟨rfl, rfl⟩ := owns_leaf.mp hk
    obtain ⟨rest, hrest⟩ := (Context.compact_of_plug (hz ▸ hT)).prefix_of_has (.leaf (l := l))
    obtain ⟨d, hd⟩ := hd l rest .leaf hrest.symm
    obtain hf | ⟨⟨e, hf⟩, _⟩ := find_cases hs hown
    · exact hf
    · rw [key?, version?, Option.map_some, descend_error hf] at hd
      cases hd
  | branch version below ih =>
    have hown : Owns tree [] T (.ofPath version tree z.path) (.branch (joining below)) :=
      hz ▸ owns_plug .branch
    have hS : (Tree.branch version below).Compact z.path := Context.compact_of_plug (hz ▸ hT)
    -- some leaf stands below, and the walk to it passes the branch
    have hf : find (.ofPath version tree z.path) = .ok (.branch (joining below)) := by
      obtain ⟨l, hl⟩ := hS.exists_has (by simp)
      obtain ⟨rest, hrest⟩ := hS.prefix_of_has hl
      obtain ⟨d, hd⟩ := hd l rest hl hrest.symm
      obtain hf | ⟨⟨e, hf⟩, _⟩ := find_cases hs hown
      · exact hf
      · rw [key?, version?, Option.map_some, descend_error hf] at hd
        cases hd
    obtain ⟨rfl, rfl⟩ | ⟨n, hk⟩ := owns_branch.mp hk
    · exact hf
    · refine ih n (z := ⟨version, below, n⟩ :: z) ((plug_child n).trans hz) ?_ hk
      intro l rest hl hkey
      rw [Context.path, List.append_assoc, List.singleton_append] at hkey
      obtain ⟨d, hd⟩ := hd l (n :: rest) (.branch n hl) hkey
      rw [key?, version?, Option.map_some, descend_branch hf, key?_child] at hd
      exact ⟨d, hd⟩

/-- A tree is whole if no walk to one of its leaves fails: every node lies on such a walk. -/
theorem whole_of_descend (hs : T.Sound tree find) (hT : T.Compact [])
    (hd : ∀ l, T.Has l → ∃ d, descend find (T.key? tree []) l.key [] = .ok d) :
    T.Whole tree find := by
  intro k x hk
  refine found_of_descend hs hT (z := []) rfl (fun l rest hl hkey => ?_) hk
  rw [Context.path, List.nil_append] at hkey
  rw [← hkey]
  exact hd l hl

/-- A walk that does not fail has found every node on its path. -/
theorem found_on_path (hs : T.Sound tree find) {z : Context} {S : Tree} (hz : z.plug S = T)
    {rest : Path} {d : Descent}
    (hd : descend find (S.key? tree z.path) rest (z.steps tree) = .ok d) {k : NodeKey} {x : Node}
    (hk : Owns tree z.path S k x) (hpath : k.path <+: z.path ++ rest) : find k = .ok x := by
  induction S generalizing z rest with
  | vacant => exact absurd hk not_owns_vacant
  | leaf version l =>
    have hown : Owns tree [] T k x := hz ▸ owns_plug hk
    obtain ⟨rfl, rfl⟩ := owns_leaf.mp hk
    rw [key?, version?, Option.map_some] at hd
    obtain ⟨y, hy⟩ := exists_find_of_descend hd
    rw [hy, hs _ _ _ hown hy]
  | branch version below ih =>
    have hown : Owns tree [] T (.ofPath version tree z.path) (.branch (joining below)) :=
      hz ▸ owns_plug .branch
    rw [key?, version?, Option.map_some] at hd
    obtain ⟨y, hy⟩ := exists_find_of_descend hd
    obtain rfl := hs _ _ _ hown hy
    obtain ⟨rfl, rfl⟩ | ⟨n, hk⟩ := owns_branch.mp hk
    · exact hy
    · have hn := hk.prefix_path.trans hpath
      rw [List.prefix_append_right_inj] at hn
      cases rest with
      | nil => exact absurd (List.prefix_nil.mp hn) (List.cons_ne_nil n [])
      | cons m rest =>
        obtain rfl := (List.cons_prefix_cons.mp hn).1
        rw [descend_branch hy, key?_child] at hd
        refine ih n (z := ⟨version, below, n⟩ :: z) ((plug_child n).trans hz) hd hk ?_
        rw [Context.path, List.append_assoc]
        exact hpath

/-! ## Reaching -/

/-- The node keys that are reached from a root through the slots of branches. -/
inductive Reached (find : NodeKey → Except Error Node) (root : Option NodeKey) : NodeKey → Prop
  | root {k : NodeKey} (h : root = some k) : Reached find root k
  | child {k : NodeKey} {b : Branch} {n : Nibble} {c : Child} (h : Reached find root k)
    (hb : find k = .ok (.branch b)) (hc : b.child? n = some c) :
    Reached find root (k.child c.version n)

section Reached

variable {k : NodeKey} {x : Node}

theorem Reached.owns (hk : Reached find (T.key? tree []) k) (hs : T.Sound tree find) :
    ∃ x, Owns tree [] T k x := by
  induction hk with
  | root h =>
    obtain ⟨x, hx, _⟩ := exists_owns_root h
    exact ⟨x, hx⟩
  | child _ hb hc ih =>
    obtain ⟨x, hx⟩ := ih
    obtain ⟨y, hy, _⟩ := hx.exists_child (hs _ _ _ hx hb).symm hc
    exact ⟨y, hy⟩

/-- A node is reached if every branch above it that is reached is found. -/
theorem reached_of_owns {p : Path} (hk : Owns tree p T k x) {root : Option NodeKey}
    {top : NodeKey} (htop : T.key? tree p = some top) (hr : Reached find root top)
    (hfound : ∀ j y, Reached find root j → Owns tree p T j y → j.path <+: k.path → j ≠ k →
      find j = .ok y) :
    Reached find root k := by
  induction hk generalizing top with
  | leaf =>
    cases htop
    exact hr
  | branch =>
    cases htop
    exact hr
  | @child p version below n k x hk ih =>
    cases htop
    obtain ⟨j, hj⟩ := exists_key?_of_owns hk
    have hchild := key?_child tree version below p n
    rw [hj] at hchild
    obtain ⟨c, hc, hcj⟩ := Option.map_eq_some_iff.mp hchild
    have htop : find (.ofPath version tree p) = .ok (.branch (joining below)) := by
      refine hfound _ _ hr .branch ?_ (ne_ofPath hk.prefix_path version).symm
      rw [NodeKey.path_ofPath]
      exact (List.prefix_append p [n]).trans hk.prefix_path
    refine ih hj ?_ fun j y hr hy => hfound j y hr (.child n hy)
    rw [← hcj]
    exact .child hr htop hc

/-- Every node above one that is reached is found. -/
theorem Reached.found_above (hk : Reached find (T.key? tree []) k) (hs : T.Sound tree find)
    {j : NodeKey} {y : Node} (hj : Owns tree [] T j y) (hjk : j.path <+: k.path) (hne : j ≠ k) :
    find j = .ok y := by
  have hsame {i : NodeKey} (hi : Reached find (T.key? tree []) i) (h : j.path = i.path) : j = i :=
    (hi.owns hs).elim fun _ hx => hj.eq_of_path hx h
  induction hk with
  | root h =>
    rw [path_key? h, List.prefix_nil] at hjk
    exact absurd (hsame (.root h) (hjk.trans (path_key? h).symm)) hne
  | @child k b n c h hb hc ih =>
    rw [NodeKey.path_child, List.prefix_concat_iff] at hjk
    obtain he | hjk := hjk
    · exact absurd (hsame (h.child hb hc) (by rw [he, NodeKey.path_child])) hne
    · by_cases e : j = k
      · subst e
        rw [hb, hs j y _ hj hb]
      · exact ih hjk e

/-- The node keys of a tree in which everything is found are those that are reached. -/
theorem owns_iff_reached (hw : T.Whole tree find) :
    Owns tree [] T k x ↔ Reached find (T.key? tree []) k ∧ find k = .ok x := by
  constructor
  · intro hk
    obtain ⟨top, htop⟩ := exists_key?_of_owns hk
    exact ⟨reached_of_owns hk htop (.root htop) fun j y _ hj _ _ => hw j y hj, hw k x hk⟩
  · rintro ⟨hk, hx⟩
    obtain ⟨y, hy⟩ := hk.owns hw.sound
    rw [hw k y hy] at hx
    cases hx
    exact hy

/-- A tree is whole if whatever is reached is found. -/
theorem whole_of_reached (hs : T.Sound tree find)
    (hall : ∀ k, Reached find (T.key? tree []) k → ∃ x, find k = .ok x) : T.Whole tree find := by
  have hfound : ∀ k x, Reached find (T.key? tree []) k → Owns tree [] T k x → find k = .ok x := by
    intro k x hr hk
    obtain ⟨y, hy⟩ := hall k hr
    rw [hs k x y hk hy] at hy
    exact hy
  intro k x hk
  obtain ⟨top, htop⟩ := exists_key?_of_owns hk
  exact hfound k x
    (reached_of_owns hk htop (.root htop) fun j y hr hj _ _ => hfound j y hr hj) hk

end Reached

end Descend

end VersionedTrie
