import VersionedTrie.Proofs.Walk
import VersionedTrie.Proofs.Preimage

/-! # Two walks along one path

Two walks along one path, each through nodes of its own, are compared. As long as every node on them
has the digest by which it is reached (`Astray` is the opposite), equal digests above mean equal
digests in every slot below, so both walks end at leaves that say the same, or both at none; the
first difference is a collision among what the nodes met digest (`Ends.eq_or_collides`).
-/

set_option autoImplicit false

namespace VersionedTrie

open VersionedTrie.Tree

/-! ## Walks to leaves -/

/-- The walk along a path from a node key ends at a leaf, or at none. -/
inductive Ends (find : NodeKey → Except Error Node) : Option NodeKey → Path → Option Leaf → Prop
  | vacant {path : Path} : Ends find none path none
  | leaf {k : NodeKey} {l : Leaf} {path : Path} (h : find k = .ok (.leaf l)) :
    Ends find (some k) path (some l)
  | exhausted {k : NodeKey} {b : Branch} (h : find k = .ok (.branch b)) : Ends find (some k) [] none
  | step {k : NodeKey} {b : Branch} {n : Nibble} {rest : Path} {o : Option Leaf}
    (h : find k = .ok (.branch b))
    (hrest : Ends find ((b.child? n).map fun c => k.child c.version n) rest o) :
    Ends find (some k) (n :: rest) o

def Descent.leaf? (d : Descent) : Option Leaf :=
  match d.landing with
  | .leaf _ l => some l
  | _ => none

theorem Descent.value?_eq (d : Descent) (path : Path) :
    d.value? path = d.leaf?.bind fun l => if l.key = path then some l.value else none := by
  obtain ⟨steps, landing⟩ := d
  cases landing <;> rfl

section Walks

variable {find find₁ find₂ : NodeKey → Except Error Node} {inputs : ByteArray → Prop} {d : Digest}
  {root root₁ root₂ : Option NodeKey} {k : NodeKey} {x : Node} {path : Path} {o o₁ o₂ : Option Leaf}

theorem ends_of_descend {steps : List Step} {w : Descent}
    (h : descend find root path steps = .ok w) : Ends find root path w.leaf? := by
  induction path generalizing root steps with
  | nil =>
    cases root with
    | none =>
      rw [descend_none] at h
      cases h
      exact .vacant
    | some k =>
      obtain ⟨x, hx⟩ := exists_find_of_descend h
      cases x with
      | leaf l =>
        rw [descend_leaf hx] at h
        cases h
        exact .leaf hx
      | branch b =>
        rw [descend_exhausted hx] at h
        cases h
        exact .exhausted hx
  | cons n rest ih =>
    cases root with
    | none =>
      rw [descend_none] at h
      cases h
      exact .vacant
    | some k =>
      obtain ⟨x, hx⟩ := exists_find_of_descend h
      cases x with
      | leaf l =>
        rw [descend_leaf hx] at h
        cases h
        exact .leaf hx
      | branch b =>
        rw [descend_branch hx] at h
        exact .step hx (ih h)

/-! ## What is met -/

/-- The walk along a path from a node key passes the node or ends at it. -/
inductive Met (find : NodeKey → Except Error Node) : Option NodeKey → Path → Node → Prop
  | here {k : NodeKey} {path : Path} {x : Node} (h : find k = .ok x) : Met find (some k) path x
  | step {k : NodeKey} {b : Branch} {n : Nibble} {rest : Path} {x : Node}
    (h : find k = .ok (.branch b))
    (hx : Met find ((b.child? n).map fun c => k.child c.version n) rest x) :
    Met find (some k) (n :: rest) x

/-- The walk comes to a node that has not the digest by which it is reached. -/
inductive Astray (find : NodeKey → Except Error Node) : Digest → Option NodeKey → Path → Prop
  | here {d : Digest} {k : NodeKey} {path : Path} {x : Node} (h : find k = .ok x)
    (hd : x.digest ≠ d) : Astray find d (some k) path
  | step {d : Digest} {k : NodeKey} {b : Branch} {n : Nibble} {rest : Path}
    (h : find k = .ok (.branch b))
    (ha : Astray find (b.digestAt n) ((b.child? n).map fun c => k.child c.version n) rest) :
    Astray find d (some k) (n :: rest)

theorem Ends.met {l : Leaf} (h : Ends find root path (some l)) : Met find root path (.leaf l) := by
  generalize ho : some l = o at h
  induction h with
  | vacant => cases ho
  | leaf h =>
    cases ho
    exact .here h
  | exhausted => cases ho
  | step h _ ih => exact .step h (ih ho)

/-- The digest vouches for what is met on a walk, and what is met digests some of the inputs. -/
structure Vouches (find : NodeKey → Except Error Node) (inputs : ByteArray → Prop) (d : Digest)
    (root : Option NodeKey) (path : Path) : Prop where
  vacant : root = none → d = Digest.placeholder
  straight : ¬ Astray find d root path
  inputs : ∀ x, Met find root path x → inputs x.preimage

theorem Vouches.mono {inputs' : ByteArray → Prop} (h : Vouches find inputs d root path)
    (hi : ∀ b, inputs b → inputs' b) : Vouches find inputs' d root path :=
  ⟨h.vacant, h.straight, fun x hx => hi _ (h.inputs x hx)⟩

theorem Vouches.digest (h : Vouches find inputs d (some k) path) (hx : find k = .ok x) :
    Digest.of x.preimage = d ∧ inputs x.preimage := by
  refine ⟨?_, h.inputs x (.here hx)⟩
  rw [← x.digest_eq_of]
  exact Decidable.of_not_not fun hd => h.straight (.here hx hd)

theorem Vouches.step {b : Branch} {n : Nibble} {rest : Path}
    (h : Vouches find inputs d (some k) (n :: rest)) (hb : find k = .ok (.branch b)) :
    Vouches find inputs (b.digestAt n) ((b.child? n).map fun c => k.child c.version n) rest where
  vacant hn := by rw [Branch.digestAt, Option.map_eq_none_iff.mp hn, Option.elim_none]
  straight ha := h.straight (.step hb ha)
  inputs x hx := h.inputs x (.step hb hx)

theorem Vouches.collides (h : Vouches find inputs Digest.placeholder (some k) path)
    (hx : find k = .ok x) : Collides inputs :=
  .inr ⟨x.preimage, (h.digest hx).2, (h.digest hx).1⟩

/-- Nodes that one digest vouches for digest the same, or collide. -/
theorem Vouches.preimage_eq {k₁ k₂ : NodeKey} {x₁ x₂ : Node}
    (h₁ : Vouches find₁ inputs d (some k₁) path) (h₂ : Vouches find₂ inputs d (some k₂) path)
    (hx₁ : find₁ k₁ = .ok x₁) (hx₂ : find₂ k₂ = .ok x₂) :
    x₁.preimage = x₂.preimage ∨ Collides inputs := by
  obtain ⟨hd₁, hi₁⟩ := h₁.digest hx₁
  obtain ⟨hd₂, hi₂⟩ := h₂.digest hx₂
  exact eq_or_collides hi₁ hi₂ (hd₁.trans hd₂.symm)

theorem Vouches.collides_of_leaf {k₁ k₂ : NodeKey} {b : Branch} {l : Leaf}
    (h₁ : Vouches find₁ inputs d (some k₁) path) (h₂ : Vouches find₂ inputs d (some k₂) path)
    (hx₁ : find₁ k₁ = .ok (.branch b)) (hx₂ : find₂ k₂ = .ok (.leaf l)) : Collides inputs :=
  (h₁.preimage_eq h₂ hx₁ hx₂).resolve_left (preimage_ne_leafPreimage b l.key l.value)

/-- Walks that one digest vouches for end at leaves that digest the same, or at none. -/
theorem Ends.eq_or_collides (hw₁ : Ends find₁ root₁ path o₁) (hw₂ : Ends find₂ root₂ path o₂)
    (h₁ : Vouches find₁ inputs d root₁ path) (h₂ : Vouches find₂ inputs d root₂ path) :
    o₁.map (Node.preimage ∘ .leaf) = o₂.map (Node.preimage ∘ .leaf) ∨ Collides inputs := by
  induction hw₁ generalizing d root₂ with
  | vacant =>
    obtain rfl := h₁.vacant rfl
    cases hw₂ with
    | vacant => exact .inl rfl
    | leaf hx₂ => exact .inr (h₂.collides hx₂)
    | exhausted hx₂ => exact .inr (h₂.collides hx₂)
    | step hx₂ => exact .inr (h₂.collides hx₂)
  | leaf hx₁ =>
    cases hw₂ with
    | vacant =>
      obtain rfl := h₂.vacant rfl
      exact .inr (h₁.collides hx₁)
    | leaf hx₂ => exact (h₁.preimage_eq h₂ hx₁ hx₂).imp_left (congrArg some)
    | exhausted hx₂ => exact .inr (h₂.collides_of_leaf h₁ hx₂ hx₁)
    | step hx₂ => exact .inr (h₂.collides_of_leaf h₁ hx₂ hx₁)
  | exhausted hx₁ =>
    cases hw₂ with
    | vacant =>
      obtain rfl := h₂.vacant rfl
      exact .inr (h₁.collides hx₁)
    | leaf hx₂ => exact .inr (h₁.collides_of_leaf h₂ hx₁ hx₂)
    | exhausted => exact .inl rfl
  | @step _ _ n _ _ hx₁ _ ih =>
    cases hw₂ with
    | vacant =>
      obtain rfl := h₂.vacant rfl
      exact .inr (h₁.collides hx₁)
    | leaf hx₂ => exact .inr (h₁.collides_of_leaf h₂ hx₁ hx₂)
    | step hx₂ hw₂ =>
      obtain h | h := h₁.preimage_eq h₂ hx₁ hx₂
      · -- the branches say the same of the slot by which both walks leave them
        have hslot := congrFun (Branch.preimage_inj.mp h) n
        exact ih hw₂ (h₁.step hx₁) (hslot ▸ h₂.step hx₂)
      · exact .inr h

theorem met_leaf {w : Descent} {steps : List Step} (hw : descend find root path steps = .ok w)
    {l : Leaf} (hl : w.leaf? = some l) : Met find root path (.leaf l) := by
  have hends := ends_of_descend hw
  rw [hl] at hends
  exact hends.met

/-- Walks that one digest vouches for come to the same value; a leaf of theirs that has the path as
its key is of a size that can be stored. -/
theorem value?_eq_or_collides {w₁ w₂ : Descent} {steps₁ steps₂ : List Step}
    (hw₁ : descend find₁ root₁ path steps₁ = .ok w₁)
    (hw₂ : descend find₂ root₂ path steps₂ = .ok w₂)
    (h₁ : Vouches find₁ inputs d root₁ path) (h₂ : Vouches find₂ inputs d root₂ path)
    (hs : ∀ l₁ l₂, w₁.leaf? = some l₁ → w₂.leaf? = some l₂ → l₁.key = path ∨ l₂.key = path →
      (Node.leaf l₁).Storable ∨ (Node.leaf l₂).Storable) :
    w₁.value? path = w₂.value? path ∨ Collides inputs := by
  refine ((ends_of_descend hw₁).eq_or_collides (ends_of_descend hw₂) h₁ h₂).imp_left fun h => ?_
  rw [Descent.value?_eq, Descent.value?_eq]
  cases ho₁ : w₁.leaf? with
  | none =>
    rw [ho₁] at h
    rw [Option.map_eq_none_iff.mp h.symm]
  | some l₁ =>
    rw [ho₁] at h
    obtain ⟨l₂, ho₂, hpre⟩ := Option.map_eq_some_iff.mp h.symm
    rw [ho₂, Option.bind_some, Option.bind_some]
    by_cases hkey : l₁.key = path ∨ l₂.key = path
    · have heq : l₁.key = l₂.key ∧ l₁.value = l₂.value := by
        obtain ⟨hk, hv⟩ | ⟨hk, hv⟩ := hs l₁ l₂ ho₁ ho₂ hkey
        · exact leafPreimage_inj hk hv hpre.symm
        · exact (leafPreimage_inj hk hv hpre).imp Eq.symm Eq.symm
      rw [heq.1, heq.2]
    · rw [not_or] at hkey
      rw [if_neg hkey.1, if_neg hkey.2]

/-! ## Trees -/

theorem Met.owns {tree : TreePrefix} {T : Tree} (h : Met find root path x)
    (hs : T.Sound tree find) (hroot : ∀ k, root = some k → ∃ y, Owns tree [] T k y) :
    ∃ k, Owns tree [] T k x := by
  induction h with
  | here h =>
    obtain ⟨y, hy⟩ := hroot _ rfl
    rw [hs _ _ _ hy h]
    exact ⟨_, hy⟩
  | step h _ ih =>
    obtain ⟨y, hy⟩ := hroot _ rfl
    refine ih fun j hj => ?_
    obtain ⟨c, hc, rfl⟩ := Option.map_eq_some_iff.mp hj
    obtain ⟨z, hz, _⟩ := hy.exists_child (hs _ _ _ hy h).symm hc
    exact ⟨z, hz⟩

theorem Met.owned {tree : TreePrefix} {T : Tree} (h : Met find (T.key? tree []) path x)
    (hs : T.Sound tree find) : ∃ k, Owns tree [] T k x :=
  h.owns hs fun _ hk => (exists_owns_root hk).imp fun _ => And.left

/-- The nodes of a tree have the digests by which they are reached. -/
theorem not_astray {tree : TreePrefix} {T : Tree} (hs : T.Sound tree find)
    (hroot : ∀ k, root = some k → ∃ y, Owns tree [] T k y ∧ y.digest = d) :
    ¬ Astray find d root path := by
  intro h
  induction h with
  | here h hd =>
    obtain ⟨y, hy, hyd⟩ := hroot _ rfl
    rw [hs _ _ _ hy h] at hd
    exact hd hyd
  | step h _ ih =>
    obtain ⟨y, hy, _⟩ := hroot _ rfl
    refine ih fun j hj => ?_
    obtain ⟨c, hc, rfl⟩ := Option.map_eq_some_iff.mp hj
    obtain ⟨z, hz, hzc⟩ := hy.exists_child (hs _ _ _ hy h).symm hc
    refine ⟨z, hz, ?_⟩
    rw [Branch.digestAt, hc, Option.elim_some, ← hzc]
    rfl

theorem vouches_of_tree {tree : TreePrefix} {T : Tree} (hs : T.Sound tree find)
    (hi : ∀ x, Met find (T.key? tree []) path x → inputs x.preimage) :
    Vouches find inputs T.digest (T.key? tree []) path := by
  refine ⟨fun hn => ?_, not_astray hs fun k => exists_owns_root, hi⟩
  rw [key?, Option.map_eq_none_iff, version?_eq_none] at hn
  rw [hn]
  rfl

end Walks

end VersionedTrie
