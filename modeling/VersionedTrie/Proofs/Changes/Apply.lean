import VersionedTrie.Proofs.Reading

/-! # Applying changes

Applying changes to a handle drops the node keys that they retire and adds the nodes that they
write. What the handle then holds under a node key is read off the changes (`dirty_apply`,
`seen_apply`, `mem_superseded_apply`), given that no node key is retired twice: the second time, it
would be taken for a committed one.
-/

set_option autoImplicit false

namespace VersionedTrie

/-! ## Folding over the nodes of a map -/

section Fold

variable {σ : Type} {step : σ → NodeKey × Node → σ} {P : σ → Prop} {j : NodeKey} {x : Node}

theorem foldl_keep {l : List (NodeKey × Node)} (hl : ∀ y, (j, y) ∉ l)
    (keep : ∀ s k y, k ≠ j → P s → P (step s (k, y))) {s : σ} (hs : P s) : P (l.foldl step s) := by
  induction l generalizing s with
  | nil => exact hs
  | cons r l ih =>
    obtain ⟨k, y⟩ := r
    have hk : k ≠ j := by
      rintro rfl
      exact hl y List.mem_cons_self
    exact ih (fun z hz => hl z (List.mem_cons_of_mem _ hz)) (keep s k y hk hs)

/-- It holds in the end if the step of that node key brings it about. -/
theorem foldl_written {m : NodeMap Node} (hm : m[j]? = some x) (put : ∀ s, P (step s (j, x)))
    (keep : ∀ s k y, k ≠ j → P s → P (step s (k, y))) (s : σ) : P (m.toList.foldl step s) := by
  have hmem := Std.ExtTreeMap.mem_toList_iff_getElem?_eq_some.mpr hm
  have hdistinct := m.distinct_keys_toList
  generalize m.toList = l at hmem hdistinct
  induction l generalizing s with
  | nil => exact absurd hmem List.not_mem_nil
  | cons r l ih =>
    obtain ⟨hr, hl⟩ := List.pairwise_cons.mp hdistinct
    obtain rfl | hmem := List.mem_cons.mp hmem
    · rw [List.foldl_cons]
      refine foldl_keep (fun y hy => ?_) keep (put s)
      exact hr (j, y) hy Std.ReflCmp.compare_self
    · exact ih _ hmem hl

theorem foldl_unwritten {m : NodeMap Node} (hm : m[j]? = none)
    (keep : ∀ s k y, k ≠ j → P s → P (step s (k, y))) {s : σ} (hs : P s) :
    P (m.toList.foldl step s) := by
  refine foldl_keep (fun y hy => ?_) keep hs
  rw [Std.ExtTreeMap.mem_toList_iff_getElem?_eq_some.mp hy] at hm
  cases hm

end Fold

namespace Trie

/-! ## Dropping and adding one node -/

section One

variable (t : Trie) (k j : NodeKey) (x : Node)

theorem dirty_drop : (t.drop k).dirty[j]? = if k = j then none else t.dirty[j]? := by
  unfold drop
  split
  · simp only [Std.ExtTreeMap.getElem?_erase, Std.LawfulEqCmp.compare_eq_iff_eq]
  · next h =>
    rw [Std.ExtTreeMap.contains_eq_isSome_getElem?] at h
    by_cases e : k = j
    · subst e
      simpa using h
    · rw [if_neg e]

theorem seen_drop (h : j ≠ k) : (t.drop k).seen[j]? = t.seen[j]? := by
  unfold drop
  split
  · rfl
  · simp [Std.ExtTreeMap.getElem?_erase, Ne.symm h]

theorem mem_superseded_drop :
    j ∈ (t.drop k).superseded ↔ j ∈ t.superseded ∨ j = k ∧ t.dirty[j]? = none := by
  unfold drop
  split
  · next h =>
    rw [Std.ExtTreeMap.contains_eq_isSome_getElem?] at h
    refine ⟨.inl, ?_⟩
    rintro (hj | ⟨rfl, hn⟩)
    · exact hj
    · rw [hn] at h
      cases h
  · next h =>
    rw [Std.ExtTreeMap.contains_eq_isSome_getElem?, Bool.not_eq_true, Option.isSome_eq_false_iff,
      Option.isNone_iff_eq_none] at h
    simp only [Std.ExtTreeSet.mem_insert, Std.LawfulEqCmp.compare_eq_iff_eq]
    constructor
    · rintro (rfl | hj)
      · exact .inr ⟨rfl, h⟩
      · exact .inl hj
    · rintro (hj | ⟨rfl, _⟩)
      · exact .inr hj
      · exact .inl rfl

theorem dirty_add : (t.add k x).dirty[j]? = if k = j then some x else t.dirty[j]? := by
  simp [add, Std.ExtTreeMap.getElem?_insert]

theorem mem_superseded_add : j ∈ (t.add k x).superseded ↔ k ≠ j ∧ j ∈ t.superseded := by
  simp only [add, Std.ExtTreeSet.mem_erase, ne_eq, Std.LawfulEqCmp.compare_eq_iff_eq]

end One

/-! ## Dropping all that is retired -/

section Drop

variable (t : Trie) {l : List NodeKey} (j : NodeKey)

theorem dirty_dropAll : (l.foldr (fun k t => t.drop k) t).dirty[j]? =
    if j ∈ l then none else t.dirty[j]? := by
  induction l with
  | nil => simp
  | cons k l ih =>
    rw [List.foldr_cons, dirty_drop, ih]
    by_cases e : k = j
    · simp [e]
    · simp [e, Ne.symm e]

theorem seen_dropAll (h : j ∉ l) : (l.foldr (fun k t => t.drop k) t).seen[j]? = t.seen[j]? := by
  induction l with
  | nil => rfl
  | cons k l ih =>
    rw [List.mem_cons, not_or] at h
    rw [List.foldr_cons, seen_drop _ _ _ h.1, ih h.2]

theorem mem_superseded_dropAll (hl : l.Nodup) :
    j ∈ (l.foldr (fun k t => t.drop k) t).superseded ↔
      j ∈ t.superseded ∨ j ∈ l ∧ t.dirty[j]? = none := by
  induction l with
  | nil => simp
  | cons k l ih =>
    obtain ⟨hk, hl⟩ := List.nodup_cons.mp hl
    rw [List.foldr_cons, mem_superseded_drop, ih hl, dirty_dropAll, List.mem_cons]
    by_cases e : j = k
    · subst e
      simp [hk]
    · simp [e]

end Drop

/-! ## Adding all that is written -/

section Apply

variable {t : Trie} {c : Changes} {k : NodeKey} {x : Node}

theorem apply_eq (t : Trie) (c : Changes) :
    t.apply c = c.written.toList.foldl (fun t r => t.add r.1 r.2)
      (c.retired.foldr (fun k t => t.drop k) t) := by
  rw [apply, Std.ExtTreeMap.foldl_eq_foldl_toList]

theorem dirty_apply_written (h : c.written[k]? = some x) : (t.apply c).dirty[k]? = some x := by
  rw [apply_eq]
  refine foldl_written (P := fun t : Trie => t.dirty[k]? = some x) h (fun s => ?_) ?_ _
  · rw [dirty_add, if_pos rfl]
  · intro s j y hj hs
    rw [dirty_add, if_neg hj]
    exact hs

theorem dirty_apply (h : c.written[k]? = none) :
    (t.apply c).dirty[k]? = if k ∈ c.retired then none else t.dirty[k]? := by
  rw [apply_eq, ← dirty_dropAll]
  refine foldl_unwritten (P := fun s : Trie => s.dirty[k]? = _) h ?_ rfl
  intro s j y hj hs
  rw [dirty_add, if_neg hj]
  exact hs

/-- Adding nodes leaves everything but the dirty and the superseded ones as it was. -/
theorem addAll_eq (t : Trie) (l : List (NodeKey × Node)) :
    l.foldl (fun t r => t.add r.1 r.2) t =
      { t with
        dirty := (l.foldl (fun t r => t.add r.1 r.2) t).dirty
        superseded := (l.foldl (fun t r => t.add r.1 r.2) t).superseded } := by
  induction l generalizing t with
  | nil => rfl
  | cons r l ih =>
    rw [List.foldl_cons]
    exact ih (t.add r.1 r.2)

theorem seen_apply (h : k ∉ c.retired) : (t.apply c).seen[k]? = t.seen[k]? := by
  rw [apply_eq, addAll_eq, ← seen_dropAll t k h]

theorem mem_superseded_apply (hc : c.retired.Nodup) :
    k ∈ (t.apply c).superseded ↔
      c.written[k]? = none ∧ (k ∈ t.superseded ∨ k ∈ c.retired ∧ t.dirty[k]? = none) := by
  rw [apply_eq]
  cases hw : c.written[k]? with
  | some x =>
    have hout : ∀ s : Trie,
        k ∉ (c.written.toList.foldl (fun (t : Trie) r => t.add r.1 r.2) s).superseded := by
      refine foldl_written (P := fun s : Trie => k ∉ s.superseded) hw (fun s => ?_) ?_
      · rw [mem_superseded_add]
        exact fun h => h.1 rfl
      · intro s j y _ hs
        rw [mem_superseded_add]
        exact fun h => hs h.2
    constructor
    · exact fun h => absurd h (hout _)
    · exact fun h => nomatch h.1
  | none =>
    rw [and_iff_right rfl, ← mem_superseded_dropAll t k hc]
    refine foldl_unwritten (P := fun s : Trie => k ∈ s.superseded ↔ _) hw ?_ Iff.rfl
    intro s j y hj hs
    rw [mem_superseded_add, and_iff_right hj]
    exact hs

/-- What dropping what is retired and adding what is written keep, of two handles at once, applying
the changes keeps. -/
theorem apply_induction₂ {R : Trie → Trie → Prop} {t u : Trie} {c : Changes} (h : R t u)
    (hdrop : ∀ t u k, k ∈ c.retired → R t u → R (t.drop k) (u.drop k))
    (hadd : ∀ t u k x, c.written[k]? = some x → R t u → R (t.add k x) (u.add k x)) :
    R (t.apply c) (u.apply c) := by
  have hdrops : ∀ l : List NodeKey, (∀ k, k ∈ l → k ∈ c.retired) →
      R (l.foldr (fun k t => t.drop k) t) (l.foldr (fun k t => t.drop k) u) := by
    intro l hl
    induction l with
    | nil => exact h
    | cons k l ih =>
      exact hdrop _ _ k (hl k List.mem_cons_self) (ih fun j hj => hl j (List.mem_cons_of_mem k hj))
  have hadds : ∀ l : List (NodeKey × Node), (∀ r, r ∈ l → c.written[r.1]? = some r.2) →
      ∀ t u, R t u → R (l.foldl (fun t r => t.add r.1 r.2) t) (l.foldl (fun t r => t.add r.1 r.2) u) := by
    intro l
    induction l with
    | nil => exact fun _ _ _ => id
    | cons r l ih =>
      intro hl t u h
      refine ih (fun q hq => hl q (List.mem_cons_of_mem r hq)) _ _ ?_
      exact hadd t u r.1 r.2 (hl r List.mem_cons_self) h
  rw [apply_eq, apply_eq]
  refine hadds _ (fun r hr => ?_) _ _ (hdrops _ fun _ => id)
  exact Std.ExtTreeMap.mem_toList_iff_getElem?_eq_some.mp hr

theorem apply_induction {P : Trie → Prop} (h : P t)
    (hdrop : ∀ t k, k ∈ c.retired → P t → P (t.drop k))
    (hadd : ∀ t k x, c.written[k]? = some x → P t → P (t.add k x)) : P (t.apply c) :=
  apply_induction₂ (R := fun t _ => P t) (u := t) h (fun t _ => hdrop t) (fun t _ => hadd t)

theorem drop_eq (t : Trie) (k : NodeKey) :
    t.drop k =
      { t with
        dirty := (t.drop k).dirty
        seen := (t.drop k).seen
        superseded := (t.drop k).superseded } := by
  unfold drop
  split <;> rfl

theorem tree_apply (t : Trie) (c : Changes) : (t.apply c).tree = t.tree :=
  apply_induction (P := fun u => u.tree = t.tree) rfl
    (fun u k _ h => by rw [drop_eq, h]) fun _ _ _ _ h => h

theorem committed_apply (t : Trie) (c : Changes) : (t.apply c).committed = t.committed :=
  apply_induction (P := fun u => u.committed = t.committed) rfl
    (fun u k _ h => by rw [drop_eq, h]) fun _ _ _ _ h => h

end Apply

end Trie

end VersionedTrie
