import VersionedTrie.Proofs.Changes.Insertion
import VersionedTrie.Proofs.Changes.Removal
import VersionedTrie.Proofs.Entries
import VersionedTrie.Proofs.NodeLayout
import VersionedTrie.Trie.Update

/-! # Where changes come from

What the changes of an update are made of, whatever the store holds: no tree is assumed, and nothing
is known of what the branches record. The walk down passes branches that have been found, each at its
place (`Trail`). So the nodes that are written can be stored, and the node keys that are retired are
those of nodes that have been found, none of them twice (`Changes.Sourced`): on the way up, all of
them lie at or below the place that has been reached, and a leaf that is pulled up stands beside it.
-/

set_option autoImplicit false

namespace VersionedTrie

open VersionedTrie.Tree

variable {find : NodeKey → Except Error Node} {tree : TreePrefix} {p q rest : Path}

theorem storable_branch_set (b : Branch) (n : Nibble) (c : Child) :
    (Node.branch (b.set n c)).Storable := by
  rw [Node.Storable, ← Bool.not_eq_true, Branch.isEmpty_children]
  intro h
  have hn := h n
  rw [Branch.child?_set, if_pos rfl] at hn
  cases hn

/-! ## Walking down -/

/-- The branches passed on the way down the path, the deepest first: each was found, at its place. -/
inductive Trail (find : NodeKey → Except Error Node) (tree : TreePrefix) : List Step → Path → Prop
  | nil : Trail find tree [] []
  | cons {step : Step} {above : List Step} {p : Path} (h : Trail find tree above p)
    (htree : step.key.tree = tree) (hpath : step.key.path = p)
    (hfound : find step.key = .ok (.branch step.branch)) :
    Trail find tree (step :: above) (p ++ [step.nibble])

theorem Trail.length_eq {steps : List Step} (h : Trail find tree steps p) :
    p.length = steps.length := by
  induction h with
  | nil => rfl
  | cons _ _ _ _ ih => rw [List.length_append, ih, List.length_singleton, List.length_cons]

/-- What is written in the place of the deepest branch passed. -/
theorem Trail.at_length {s : Site} {steps : List Step} (h : Trail find tree steps p)
    (hp : s.path.toPath = p ++ rest) : s.at_ steps.length = .ofPath s.version s.tree p := by
  rw [← h.length_eq]
  exact s.at_length hp

theorem NodeKey.ne_child (k : NodeKey) (v : Version) (n : Nibble) : k ≠ k.child v n := by
  intro e
  have hlength := congrArg (fun k : NodeKey => k.path.length) e
  simp only [NodeKey.path_child, List.length_append, List.length_singleton] at hlength
  omega

theorem NodeKey.ofPath_concat {k : NodeKey} (htree : k.tree = tree) (hpath : k.path = p)
    (v : Version) (n : Nibble) : ofPath v tree (p ++ [n]) = k.child v n :=
  ext_path rfl htree.symm (by rw [path_ofPath, path_child, hpath])

/-- A leaf on which a walk lands was found, at its place. -/
def Landed (find : NodeKey → Except Error Node) (p : Path) : Landing → Prop
  | .leaf k l => k.path = p ∧ find k = .ok (.leaf l)
  | _ => True

theorem trail_descend {key : Option NodeKey} {steps : List Step} {w : Descent}
    (hkey : ∀ k, key = some k → k.tree = tree ∧ k.path = p) (hsteps : Trail find tree steps p)
    (hw : descend find key rest steps = .ok w) :
    ∃ q rest', p ++ rest = q ++ rest' ∧ Trail find tree w.steps q ∧ Landed find q w.landing := by
  induction rest generalizing key steps p with
  | nil =>
    cases key with
    | none =>
      rw [descend_none] at hw
      cases hw
      exact ⟨p, [], rfl, hsteps, trivial⟩
    | some k =>
      obtain ⟨x, hx⟩ := exists_find_of_descend hw
      cases x with
      | leaf l =>
        rw [descend_leaf hx] at hw
        cases hw
        exact ⟨p, [], rfl, hsteps, (hkey k rfl).2, hx⟩
      | branch b =>
        rw [descend_exhausted hx] at hw
        cases hw
        exact ⟨p, [], rfl, hsteps, trivial⟩
  | cons n rest ih =>
    cases key with
    | none =>
      rw [descend_none] at hw
      cases hw
      exact ⟨p, n :: rest, rfl, hsteps, trivial⟩
    | some k =>
      obtain ⟨htree, hpath⟩ := hkey k rfl
      obtain ⟨x, hx⟩ := exists_find_of_descend hw
      cases x with
      | leaf l =>
        rw [descend_leaf hx] at hw
        cases hw
        exact ⟨p, n :: rest, rfl, hsteps, hpath, hx⟩
      | branch b =>
        rw [descend_branch hx] at hw
        have hnext : ∀ j, ((b.child? n).map fun c => k.child c.version n) = some j →
            j.tree = tree ∧ j.path = p ++ [n] := by
          intro j hj
          obtain ⟨c, -, rfl⟩ := Option.map_eq_some_iff.mp hj
          exact ⟨htree, by rw [NodeKey.path_child, hpath]⟩
        have hlonger : Trail find tree (⟨k, b, n⟩ :: steps) (p ++ [n]) :=
          .cons hsteps htree hpath hx
        obtain ⟨q, rest', hq, htrail, hlanded⟩ := ih hnext hlonger hw
        exact ⟨q, rest', by rw [← hq, List.append_assoc, List.singleton_append], htrail, hlanded⟩

/-! ## Changes -/

namespace Changes

variable {c : Changes} {j k : NodeKey} {x : Node}

/-- What is written can be stored, and what is retired has been found at or below the path, each
node key once. -/
structure Sourced (find : NodeKey → Except Error Node) (p : Path) (c : Changes) : Prop where
  storable : ∀ (k : NodeKey) x, c.written[k]? = some x → x.Storable
  found : ∀ k, k ∈ c.retired → ∃ x, find k = .ok x
  below : ∀ k, k ∈ c.retired → p <+: k.path
  nodup : c.retired.Nodup

theorem sourced_empty : Changes.empty.Sourced find p where
  storable k x h := by
    rw [written_empty] at h
    cases h
  found _ h := absurd h List.not_mem_nil
  below _ h := absurd h List.not_mem_nil
  nodup := List.nodup_nil

theorem Sourced.write (h : c.Sourced find p) (k : NodeKey) (hx : x.Storable) :
    (c.write k x).Sourced find p := by
  refine ⟨fun j y hj => ?_, h.found, h.below, h.nodup⟩
  rw [written_write] at hj
  split at hj
  · obtain rfl := Option.some.inj hj
    exact hx
  · exact h.storable j y hj

theorem mem_retired_retire (h : j ∈ (c.retire k).retired) : j = k ∨ j ∈ c.retired := by
  cases hk : c.written[k]? with
  | none =>
    rw [retire_eq_cons hk] at h
    exact List.mem_cons.mp h
  | some x =>
    rw [retire_eq_erase hk] at h
    exact .inr h

/-- A node key that is retired has just been written, or has been found at a place of its own. -/
theorem Sourced.retire (h : c.Sourced find q) (hpq : p <+: q)
    (hk : c.written[k]? = none → (∃ x, find k = .ok x) ∧ p <+: k.path ∧ k ∉ c.retired) :
    (c.retire k).Sourced find p := by
  cases hw : c.written[k]? with
  | none =>
    obtain ⟨hfound, hbelow, hnew⟩ := hk hw
    rw [retire_eq_cons hw]
    refine ⟨h.storable, fun j hj => ?_, fun j hj => ?_, List.nodup_cons.mpr ⟨hnew, h.nodup⟩⟩
    · obtain rfl | hj := List.mem_cons.mp hj
      · exact hfound
      · exact h.found j hj
    · obtain rfl | hj := List.mem_cons.mp hj
      · exact hbelow
      · exact hpq.trans (h.below j hj)
  | some x =>
    rw [retire_eq_erase hw]
    refine ⟨fun j y hj => h.storable j y ?_, h.found, fun j hj => hpq.trans (h.below j hj), h.nodup⟩
    rw [Std.ExtTreeMap.getElem?_erase] at hj
    split at hj
    · cases hj
    · exact hj

theorem written_retire_ne (h : k ≠ j) : (c.retire k).written[j]? = c.written[j]? := by
  cases hw : c.written[k]? with
  | none => rw [retire_eq_cons hw]
  | some x =>
    rw [retire_eq_erase hw]
    simp [Std.ExtTreeMap.getElem?_erase, h]

end Changes

theorem not_prefix_of_append (n : Nibble) : ¬ p ++ [n] <+: p := by
  intro h
  have hle := h.length_le
  rw [List.length_append, List.length_singleton] at hle
  omega

/-- The branch that is left on the way up has been found, above all that has been retired. -/
theorem Changes.Sourced.retire_step {c : Changes} {step : Step}
    (h : c.Sourced find (p ++ [step.nibble])) (hpath : step.key.path = p)
    (hfound : find step.key = .ok (.branch step.branch)) : (c.retire step.key).Sourced find p := by
  refine h.retire (List.prefix_append _ _) fun _ => ⟨⟨_, hfound⟩, ?_, fun hmem => ?_⟩
  · exact ⟨[], by rw [List.append_nil, hpath]⟩
  · have hbelow := h.below _ hmem
    rw [hpath] at hbelow
    exact not_prefix_of_append _ hbelow

theorem Landed.sourced {k : NodeKey} {l : Leaf} (h : Landed find p (.leaf k l)) :
    (Changes.empty.retire k).Sourced find p :=
  Changes.sourced_empty.retire List.prefix_rfl
    fun _ => ⟨⟨_, h.2⟩, ⟨[], by rw [List.append_nil, h.1]⟩, List.not_mem_nil⟩

/-! ## Insertion -/

namespace Site

variable {s : Site} {c c' : Changes} {x : Node} {stored given : Leaf} {depth : Nat}

theorem sourced_chain (h : c.Sourced find p) (levels : List (Nibble × Nat)) (x : Node) :
    (s.chain levels c x).1.Sourced find p := by
  induction levels with
  | nil => exact h
  | cons level levels ih => exact ih.write _ (storable_branch_set _ _ _)

theorem sourced_split (h : c.Sourced find p) (hs : (Node.leaf stored).Storable)
    (hg : (Node.leaf given).Storable) (hr : s.split c stored given depth = .ok (c', x)) :
    c'.Sourced find p := by
  unfold split at hr
  simp only at hr
  split at hr
  · obtain ⟨rfl, -⟩ := Prod.mk.inj (Except.ok.inj hr)
    exact sourced_chain (((h.write _ hs).write _ hg).write _ (storable_branch_set _ _ _)) _ _
  · cases hr

theorem sourced_plant {leaf : Leaf} {d : Descent} (hl : Landed find p d.landing)
    (hfind : ∀ k x, find k = .ok x → x.Storable) (hleaf : (Node.leaf leaf).Storable)
    (hr : s.plant leaf d = .ok (c, x)) : c.Sourced find p := by
  unfold plant at hr
  obtain ⟨steps, landing⟩ := d
  cases landing with
  | vacant =>
    simp only [Except.ok.injEq, Prod.mk.injEq] at hr
    rw [← hr.1]
    exact Changes.sourced_empty.write _ hleaf
  | exhausted => cases hr
  | leaf k l =>
    simp only at hr
    split at hr
    · simp only [Except.ok.injEq, Prod.mk.injEq] at hr
      rw [← hr.1]
      exact hl.sourced.write _ hleaf
    · exact sourced_split hl.sourced (hfind k _ hl.2) hleaf hr

theorem sourced_rise {steps : List Step} (htrail : Trail find tree steps p) (h : c.Sourced find p)
    (x : Node) : (s.rise steps c x).1.Sourced find [] := by
  induction htrail generalizing c x with
  | nil => exact h
  | cons _ _ hpath hfound ih =>
    exact ih ((h.retire_step hpath hfound).write _ (storable_branch_set _ _ _)) _

theorem sourced_insert {leaf : Leaf} {d : Descent} (htrail : Trail find tree d.steps p)
    (hl : Landed find p d.landing) (hfind : ∀ k x, find k = .ok x → x.Storable)
    (hleaf : (Node.leaf leaf).Storable) (hr : s.insert leaf d = .ok c) : c.Sourced find [] := by
  unfold insert at hr
  cases hp : s.plant leaf d with
  | error e =>
    rw [hp] at hr
    cases hr
  | ok r =>
    obtain ⟨c', x⟩ := r
    rw [hp] at hr
    cases hr
    exact sourced_rise htrail (sourced_plant hl hfind hleaf hp) x

end Site

/-! ## Removal -/

section Removal

variable {t : Trie} {s : Site} {d : Draft} {c : Changes} {steps : List Step} {below : Option Node}

/-- A lone leaf has just come to stand below the branch, or has been found beside it. -/
theorem loneLeaf_yields {step : Step} {n : Nibble} {child : Child} (hd : d.find t = find)
    (ho : (step.renewed s below).onlyLeaf? = some (n, child)) :
    Yields (Draft.Agrees t) (loneLeaf t s step below n child) d
      (fun r => below = some r.2 ∧ r.1 = step.key.child s.version step.nibble ∨
        find r.1 = .ok r.2 ∧ ∃ v m, m ≠ step.nibble ∧ r.1 = step.key.child v m) fun _ => True := by
  have hstored : n ≠ step.nibble → Yields (Draft.Agrees t)
      (do
        let node ← t.recall (step.key.child child.version n)
        pure (step.key.child child.version n, node)) d
      (fun r => below = some r.2 ∧ r.1 = step.key.child s.version step.nibble ∨
        find r.1 = .ok r.2 ∧ ∃ v m, m ≠ step.nibble ∧ r.1 = step.key.child v m) fun _ => True := by
    intro hn
    have hrecall := Draft.recall_answers t d (step.key.child child.version n)
    rw [hd] at hrecall
    refine Yields.bind (Yields.mono hrecall (fun _ h => h) fun _ _ => trivial) fun x d' hx _ => ?_
    exact yields_pure (.inr ⟨hx, child.version, n, hn, rfl⟩)
  unfold loneLeaf
  cases below with
  | none =>
    refine hstored ?_
    rintro rfl
    have hc := (Branch.onlyLeaf?_eq_some.mp ho).1
    rw [Step.renewed, Branch.child?_remove, if_pos rfl] at hc
    cases hc
  | some x =>
    simp only
    split
    · next hn => exact yields_pure (.inl ⟨rfl, by rw [hn]⟩)
    · next hn => exact hstored hn

/-- A lone leaf that takes the place of the branch is retired from where it stood: either it has just
been written there, or it has been found beside all that has been retired. -/
theorem Changes.Sourced.retire_lone {step : Step} {key : NodeKey} {leaf : Node}
    (h : c.Sourced find (p ++ [step.nibble])) (hpath : step.key.path = p)
    (hfound : find step.key = .ok (.branch step.branch))
    (hwritten : ∀ x, below = some x →
      c.written[step.key.child s.version step.nibble]? = some x)
    (hkey : below = some leaf ∧ key = step.key.child s.version step.nibble ∨
      find key = .ok leaf ∧ ∃ v m, m ≠ step.nibble ∧ key = step.key.child v m) :
    ((c.retire step.key).retire key).Sourced find p := by
  refine (h.retire_step hpath hfound).retire List.prefix_rfl fun hnone => ?_
  obtain ⟨hbelow, rfl⟩ | ⟨hleaf, v, m, hm, rfl⟩ := hkey
  · rw [written_retire_ne (step.key.ne_child _ _), hwritten leaf hbelow] at hnone
    cases hnone
  · refine ⟨⟨leaf, hleaf⟩, ?_, fun hmem => ?_⟩
    · rw [NodeKey.path_child, hpath]
      exact List.prefix_append _ _
    · obtain e | hmem := mem_retired_retire hmem
      · exact step.key.ne_child v m e.symm
      · have hbelow := h.below _ hmem
        rw [NodeKey.path_child, hpath, List.prefix_append_right_inj] at hbelow
        exact hm (List.cons.inj (hbelow.eq_of_length rfl)).1.symm

theorem withdraw_yields (hfind : ∀ k x, find k = .ok x → x.Storable) (hd : d.find t = find)
    (htrail : Trail find s.tree steps p) (hp : s.path.toPath = p ++ rest) (h : c.Sourced find p)
    (hbelow : ∀ x, below = some x →
      x.Storable ∧ c.written[NodeKey.ofPath s.version s.tree p]? = some x) :
    Yields (Draft.Agrees t) (withdraw t s steps c below) d (fun r => r.1.Sourced find [])
      fun _ => True := by
  induction htrail generalizing c d below rest with
  | nil => exact yields_pure h
  | @cons step above p htrail htree hpath hfound ih =>
    have hp' : s.path.toPath = p ++ (step.nibble :: rest) := by
      rw [hp, List.append_assoc, List.singleton_append]
    rw [NodeKey.ofPath_concat htree hpath] at hbelow
    have hstep := h.retire_step hpath hfound
    rw [withdraw_cons, htrail.at_length hp']
    split
    · exact ih hd hp' hstep fun _ hx => by cases hx
    · next he =>
      cases ho : (step.renewed s below).onlyLeaf? with
      | none =>
        have hrenewed : (Node.branch (step.renewed s below)).Storable := by
          rw [Node.Storable, ← Bool.not_eq_true]
          exact he
        refine ih hd hp' (hstep.write _ hrenewed) fun x hx => ?_
        cases hx
        exact ⟨hrenewed, Changes.written_write_self _ _ _⟩
      | some r =>
        refine (loneLeaf_yields hd ho).bind fun r' d' hr' hd' => ?_
        obtain ⟨key, leaf⟩ := r'
        have hleaf : leaf.Storable := hr'.elim (fun h => (hbelow leaf h.1).1)
          fun h => hfind key leaf h.1
        simp only
        split
        · refine ih (hd'.find.trans hd) hp'
            ((h.retire_lone hpath hfound (fun x hx => (hbelow x hx).2) hr').write _ hleaf)
            fun x hx => ?_
          cases hx
          exact ⟨hleaf, Changes.written_write_self _ _ _⟩
        · exact yields_throw trivial

end Removal

/-! ## Updates -/

section Update

variable {t : Trie} {d : Draft} {key value : ByteArray}

/-- The leaf of an update that is not refused can be stored. -/
theorem storable_make (h : Trie.refusal key value = none) :
    (Node.leaf (Leaf.make (Path.ofKey key) value)).Storable := by
  have hsizes : 2 * maxKeySize < Bytes.span 8 ∧ maxValueSize < Bytes.span 8 := by decide
  have hlength : (Leaf.make (Path.ofKey key) value).key.length = 2 * key.size :=
    Path.length_ofKey key
  have hvalue : (Leaf.make (Path.ofKey key) value).value.size = value.size := rfl
  unfold Trie.refusal at h
  rw [Node.Storable, hlength, hvalue]
  split at h
  · cases h
  · split at h
    · cases h
    · split at h
      · cases h
      · omega

/-- What an update makes of a trie comes from what it finds, as long as the root stands where the
paths begin. -/
theorem plan_yields (version : Version) (hrefusal : Trie.refusal key value = none)
    (hfind : ∀ k x, d.find t k = .ok x → x.Storable)
    (hroot : ∀ k, t.root = some k → k.tree = t.tree ∧ k.path = []) :
    Yields (Draft.Agrees t) (t.plan version key value) d
      (fun r => ∀ c rooted, r = some (c, rooted) → c.Sourced (d.find t) []) fun _ => True := by
  refine Yields.bind (Yields.mono (d.walk_answers t _ _) (fun _ h => h) fun _ _ => trivial) fun w d' hw hd => ?_
  obtain ⟨q, rest, hq, htrail, hlanded⟩ := trail_descend hroot .nil hw
  rw [List.nil_append] at hq
  obtain ⟨steps, landing⟩ := w
  split
  · cases landing with
    | vacant => exact yields_pure fun _ _ h => by cases h
    | exhausted k b => exact yields_pure fun _ _ h => by cases h
    | leaf k l =>
      simp only [remove]
      split
      · refine (withdraw_yields (s := ⟨version, t.tree, .ofPath (Path.ofKey key)⟩) hfind hd.find
          htrail ((StoredPath.toPath_ofPath _).trans hq) hlanded.sourced fun _ hx => by cases hx).bind
          fun r _ hr _ => ?_
        refine yields_pure fun c rooted h => ?_
        cases h
        exact hr
      · exact yields_pure fun _ _ h => by cases h
  · cases hr : Site.insert ⟨version, t.tree, .ofPath (Path.ofKey key)⟩
      (Leaf.make (Path.ofKey key) value) ⟨steps, landing⟩ with
    | error e => exact yields_throw trivial
    | ok c =>
      refine yields_pure fun c' rooted h => ?_
      cases h
      exact Site.sourced_insert htrail hlanded hfind (storable_make hrefusal) hr

end Update

end VersionedTrie
