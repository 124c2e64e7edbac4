import VersionedTrie.Proofs.Changes.Patch
import VersionedTrie.Proofs.Reading
import VersionedTrie.Trie.Remove

/-! # Removal on trees

Emptying the place of a leaf patches the tree up to the root: `withdraw_answers` goes up by one
branch at a time, and the three ways of `settle` are the three branches of the program. A leaf that
takes the place of its parent is read if it is not the node that has just come to stand there; it is
a node of the old tree, so that only a fault or a missing node can make the removal fail.
-/

set_option autoImplicit false

namespace VersionedTrie

open VersionedTrie.Tree

namespace Tree

/-- What an update leaves at its place: nothing, or a node of its own version. -/
def Settled (version : Version) (T : Tree) : Prop := T = vacant ∨ T.version? = some version

theorem settled_settle (version : Version) (below : Nibble → Tree) :
    (settle version below).Settled version := by
  obtain ⟨_, h⟩ | ⟨n, v, l, _, _, h⟩ | ⟨_, h⟩ := settle_cases version below
  · exact .inl h
  · exact .inr (by rw [h]; rfl)
  · exact .inr (by rw [h]; rfl)

end Tree

theorem Context.settled_withdraw {version : Version} {z : Context} {T : Tree}
    (h : T.Settled version) : (z.withdraw version T).Settled version := by
  induction z generalizing T with
  | nil => exact h
  | cons f above ih => exact ih (settled_settle version _)

/-! ## One step up -/

def Step.renewed (step : Step) (s : Site) : Option Node → Branch
  | none => step.branch.remove step.nibble
  | some node => step.branch.set step.nibble (s.child node)

theorem renewed_eq (s : Site) (k : NodeKey) (f : Frame) {S : Tree} (hS : S.Settled s.version) :
    Step.renewed ⟨k, joining f.below, f.nibble⟩ s S.node? = joining (f.fill S) := by
  cases hx : S.node? with
  | none =>
    cases S with
    | vacant => exact remove_joining _ _
    | leaf => cases hx
    | branch => cases hx
  | some x =>
    obtain rfl | hv := hS
    · cases hx
    · exact set_joining _ _ (slot_eq hx hv)

section Up

variable {t : Trie} {s : Site} {step : Step} {above : List Step} {c : Changes} {below : Option Node}

theorem withdraw_cons :
    withdraw t s (step :: above) c below =
      if (step.renewed s below).children.isEmpty then withdraw t s above (c.retire step.key) none
      else
        match (step.renewed s below).onlyLeaf? with
        | some (n, child) => do
          let (key, node) ← loneLeaf t s step below n child
          if node.isLeaf then
            withdraw t s above
              (((c.retire step.key).retire key).write (s.at_ above.length) node) (some node)
          else throw (.corruptNode (.flaggedAsLeaf key))
        | none =>
          withdraw t s above
            ((c.retire step.key).write (s.at_ above.length) (.branch (step.renewed s below)))
            (some (.branch (step.renewed s below))) := by
  cases below <;> rfl

end Up

/-! ## All the way up -/

section Withdraw

variable {t : Trie} {s : Site} {d : Draft} {f : Frame} {above z : Context} {T S S' : Tree}
  {c : Changes}

/-- What may make an update of the tree `T` fail: a node that is not found, or a planned fault. -/
def Draft.Risky (t : Trie) (tree : TreePrefix) (T : Tree) (d : Draft) : Prop :=
  ¬ T.Whole tree (d.find t) ∨ d.access.Doubtful

theorem Draft.Agrees.risky {d d' : Draft} (h : d.Agrees t d') {tree : TreePrefix}
    (hr : d'.Risky t tree T) : d.Risky t tree T := by
  rw [Risky, h.find] at hr
  exact hr.imp_right h.access.reads

/-- The only leaf below a branch: it has just come to stand there, or it is a node of the old
tree. -/
theorem loneLeaf_answers (hS' : S'.Settled s.version)
    (hs : (Context.plug (f :: above) S).Sound s.tree (d.find t)) {n : Nibble} {v : Version}
    {l : Leaf} (hn : f.fill S' n = .leaf v l) :
    Answers (Draft.Agrees t) (d.Risky t s.tree (Context.plug (f :: above) S))
      (loneLeaf t s ⟨.ofPath f.version s.tree (Context.path above), joining f.below, f.nibble⟩
        S'.node? n ⟨l.digest, v, true⟩) d
      (.ok (.ofPath v s.tree (above.path ++ [n]), .leaf l)) := by
  rw [Frame.fill] at hn
  by_cases hne : n = f.nibble
  · subst hne
    rw [Function.update_self] at hn
    subst hn
    obtain hv | hv := hS'
    · cases hv
    · cases hv
      simp only [loneLeaf, node?, NodeKey.child_ofPath, if_true]
      exact answers_pure
  · rw [Function.update_of_ne hne] at hn
    have hown : Owns s.tree [] (Context.plug (f :: above) S) (.ofPath v s.tree (above.path ++ [n]))
        (.leaf l) := by
      refine owns_plug (z := above) (Changes.owns_fill.mpr (.inr (.inr ⟨n, hne, ?_⟩)))
      rw [hn]
      exact .leaf
    have hstored := (owned_answers hs (d.recall_answers t _) hown).bind_ok
      (f := fun y => pure (NodeKey.ofPath v s.tree (above.path ++ [n]), y)) fun _ _ => answers_pure
    simp only [loneLeaf, NodeKey.child_ofPath, if_neg hne]
    cases S'.node? with
    | none => exact hstored
    | some x => exact hstored

theorem withdraw_answers {rest : Path} (hz : s.path.toPath = z.path ++ rest)
    (hc : c.Patches s.tree z.path S S') (hS' : S'.Settled s.version) (hv : c.Stamped s.version) :
    ∃ c', c'.Patches s.tree [] (z.plug S) (z.withdraw s.version S') ∧ c'.Stamped s.version ∧
      ∀ t d, (z.plug S).Sound s.tree (Draft.find t d) →
        Answers (Draft.Agrees t) (d.Risky t s.tree (z.plug S))
          (withdraw t s (z.steps s.tree) c S'.node?) d
          (.ok (c', (z.withdraw s.version S').node?)) := by
  induction z generalizing S S' c rest with
  | nil => exact ⟨c, hc, hv, fun _ _ _ => answers_pure⟩
  | cons f above ih =>
    have hz' : s.path.toPath = Context.path above ++ (f.nibble :: rest) := by
      rw [hz, Context.path, List.append_assoc, List.singleton_append]
    have hat : s.at_ (Context.steps s.tree above).length =
        .ofPath s.version s.tree (Context.path above) := by
      rw [Context.length_steps, ← Context.length_path]
      exact s.at_length hz'
    have hb := renewed_eq s (.ofPath f.version s.tree (Context.path above)) f hS'
    simp only [Context.steps, Context.withdraw, withdraw_cons, hb, hat]
    by_cases he : (joining (f.fill S')).children.isEmpty
    · simp only [if_pos he, settle]
      exact ih hz' (hc.vacate f.version (isEmpty_joining.mp he)) (.inl rfl) (hv.retire _)
    · simp only [if_neg he, settle]
      have hraise := hc.raise f.version s.version
      cases ho : (joining (f.fill S')).onlyLeaf? with
      | none => exact ih hz' hraise (.inr rfl) ((hv.retire _).write rfl _)
      | some r =>
        obtain ⟨n, child⟩ := r
        obtain ⟨l, hl, hchild, hother⟩ := onlyLeaf?_joining ho
        obtain ⟨c', hc', hv', hanswers⟩ := ih hz'
          (Changes.Patches.compact hl hother (hc.retire_written _ _) hraise) (.inr rfl)
          (((hv.retire _).retire _).write rfl _)
        simp only [hl, moved]
        refine ⟨c', hc', hv', fun t d hs => ?_⟩
        have hlone := loneLeaf_answers (t := t) (d := d) hS' hs hl
        rw [← hchild] at hlone
        refine hlone.bind_ok fun d' hd => ?_
        exact (hanswers t d' (by rw [hd.find]; exact hs)).mono hd.risky

end Withdraw

end VersionedTrie
