import VersionedTrie.Proofs.Changes.Provenance

/-! # Changes along a path

The changes of an update stay close to the path of its key (`Changes.Along`). What they write lies
on the path, but for one leaf: where the walk has landed on the leaf of another key, that leaf is
pushed off the path (`Descent.Pushes`). What they retire has been found on the path or next to it,
beside a branch that was passed. A removal pushes nothing, and changes something only if the walk
came to the key (`plan_along`).
-/

set_option autoImplicit false

namespace VersionedTrie

variable {find : NodeKey → Except Error Node} {tree : TreePrefix} {p path rest : Path}

theorem Path.prefix_dropLast {q : Path} (h : p <+: q) (hne : p ≠ q) : p <+: q.dropLast := by
  obtain ⟨rest, rfl⟩ := h
  have hrest : rest ≠ [] := by
    rintro rfl
    exact hne (List.append_nil p).symm
  rw [List.dropLast_append_of_ne_nil hrest]
  exact List.prefix_append _ _

/-- The walk has landed on the leaf of another key, and this is that leaf where it stands when it
has been told apart from the path. -/
def Descent.Pushes (w : Descent) (tree : TreePrefix) (version : Version) (path : Path) (k : NodeKey)
    (x : Node) : Prop :=
  ∃ j l, w.landing = .leaf j l ∧ l.key ≠ path ∧ x = .leaf l ∧
    k = .ofPath version tree (l.key.take (Path.commonLength l.key path + 1))

/-- One node at most is pushed off the path. -/
theorem Descent.Pushes.eq {w : Descent} {version : Version} {j k : NodeKey} {x y : Node}
    (hj : w.Pushes tree version path j x) (hk : w.Pushes tree version path k y) : j = k := by
  obtain ⟨_, l, hl, -, -, rfl⟩ := hj
  obtain ⟨_, m, hm, -, -, rfl⟩ := hk
  rw [hl] at hm
  cases hm
  rfl

namespace Changes

variable {pushed : NodeKey → Node → Prop} {c : Changes} {k : NodeKey} {x : Node}

/-- What is written lies on the path or is pushed off it, and what is retired has been found on the
path or next to it. -/
structure Along (find : NodeKey → Except Error Node) (path : Path)
    (pushed : NodeKey → Node → Prop) (c : Changes) : Prop where
  written : ∀ k x, c.written[k]? = some x → k.path <+: path ∨ pushed k x
  found : ∀ k, k ∈ c.retired → ∃ x, find k = .ok x
  near : ∀ k, k ∈ c.retired → k.path.dropLast <+: path

theorem along_empty : Changes.empty.Along find path pushed where
  written k x h := by
    rw [written_empty] at h
    cases h
  found _ h := absurd h List.not_mem_nil
  near _ h := absurd h List.not_mem_nil

theorem Along.write (h : c.Along find path pushed) (hk : k.path <+: path ∨ pushed k x) :
    (c.write k x).Along find path pushed := by
  refine ⟨fun j y hj => ?_, h.found, h.near⟩
  rw [written_write] at hj
  split at hj
  · next e =>
    obtain rfl := Option.some.inj hj
    exact e ▸ hk
  · exact h.written j y hj

theorem Along.retire (h : c.Along find path pushed)
    (hk : c.written[k]? = none → (∃ x, find k = .ok x) ∧ k.path.dropLast <+: path) :
    (c.retire k).Along find path pushed := by
  cases hw : c.written[k]? with
  | none =>
    obtain ⟨hfound, hnear⟩ := hk hw
    rw [retire_eq_cons hw]
    refine ⟨h.written, fun j hj => ?_, fun j hj => ?_⟩
    · obtain rfl | hj := List.mem_cons.mp hj
      · exact hfound
      · exact h.found j hj
    · obtain rfl | hj := List.mem_cons.mp hj
      · exact hnear
      · exact h.near j hj
  | some x =>
    rw [retire_eq_erase hw]
    refine ⟨fun j y hj => h.written j y ?_, h.found, h.near⟩
    rw [Std.ExtTreeMap.getElem?_erase] at hj
    split at hj
    · cases hj
    · exact hj

/-- A node that was found on the path is retired. -/
theorem Along.retire_found (h : c.Along find path pushed) (hx : find k = .ok x)
    (hk : k.path <+: path) : (c.retire k).Along find path pushed :=
  h.retire fun _ => ⟨⟨x, hx⟩, (List.dropLast_prefix _).trans hk⟩

end Changes

open Changes

/-! ## Insertion -/

namespace Site

variable {s : Site} {pushed : NodeKey → Node → Prop} {c c' : Changes} {x : Node} {leaf : Leaf}

theorem path_at (s : Site) (depth : Nat) : (s.at_ depth).path <+: s.path.toPath := by
  rw [at_eq, NodeKey.path_ofPath]
  exact List.take_prefix _ _

theorem along_chain (h : c.Along find s.path.toPath pushed) (levels : List (Nibble × Nat))
    (x : Node) : (s.chain levels c x).1.Along find s.path.toPath pushed := by
  induction levels with
  | nil => exact h
  | cons level levels ih => exact ih.write (.inl (s.path_at _))

theorem along_split {stored : Leaf} {depth : Nat} (h : c.Along find s.path.toPath pushed)
    (hpushed : pushed
      (.ofPath s.version s.tree (stored.key.take (Path.commonLength stored.key leaf.key + 1)))
      (.leaf stored)) (hr : s.split c stored leaf depth = .ok (c', x)) :
    c'.Along find s.path.toPath pushed := by
  unfold split at hr
  simp only at hr
  split at hr
  · obtain ⟨rfl, -⟩ := Prod.mk.inj (Except.ok.inj hr)
    exact along_chain (((h.write (.inr hpushed)).write (.inl (s.path_at _))).write
      (.inl (s.path_at _))) _ _
  · cases hr

theorem along_plant {w : Descent} (hs : s.path.toPath = leaf.key)
    (hlanded : Landed find p w.landing) (hp : p <+: leaf.key)
    (hr : s.plant leaf w = .ok (c, x)) :
    c.Along find s.path.toPath (w.Pushes s.tree s.version leaf.key) := by
  unfold plant at hr
  obtain ⟨steps, landing⟩ := w
  cases landing with
  | vacant =>
    simp only [Except.ok.injEq, Prod.mk.injEq] at hr
    rw [← hr.1]
    exact along_empty.write (.inl (s.path_at _))
  | exhausted => cases hr
  | leaf k l =>
    have hretired : (Changes.empty.retire k).Along find s.path.toPath
        (Descent.Pushes ⟨steps, .leaf k l⟩ s.tree s.version leaf.key) := by
      refine along_empty.retire_found hlanded.2 ?_
      rw [hlanded.1, hs]
      exact hp
    simp only at hr
    split at hr
    · simp only [Except.ok.injEq, Prod.mk.injEq] at hr
      rw [← hr.1]
      exact hretired.write (.inl (s.path_at _))
    · next hne => exact along_split hretired ⟨k, l, rfl, hne, rfl, rfl⟩ hr

theorem along_rise {steps : List Step} (htrail : Trail find tree steps p)
    (hp : p <+: s.path.toPath) (h : c.Along find s.path.toPath pushed) (x : Node) :
    (s.rise steps c x).1.Along find s.path.toPath pushed := by
  induction htrail generalizing c x with
  | nil => exact h
  | cons _ _ hpath hfound ih =>
    have hp' := (List.prefix_append _ _).trans hp
    exact ih hp' ((h.retire_found hfound (hpath ▸ hp')).write (.inl (s.path_at _))) _

theorem along_insert {w : Descent} (hs : s.path.toPath = leaf.key)
    (htrail : Trail find tree w.steps p) (hlanded : Landed find p w.landing) (hp : p <+: leaf.key)
    (hr : s.insert leaf w = .ok c) :
    c.Along find s.path.toPath (w.Pushes s.tree s.version leaf.key) := by
  unfold insert at hr
  cases hplant : s.plant leaf w with
  | error e =>
    rw [hplant] at hr
    cases hr
  | ok r =>
    obtain ⟨c', x⟩ := r
    rw [hplant] at hr
    cases hr
    exact along_rise htrail (hs ▸ hp) (along_plant hs hlanded hp hplant) x

end Site

/-! ## Removal -/

section Removal

variable {t : Trie} {s : Site} {d : Draft} {pushed : NodeKey → Node → Prop} {c : Changes}
  {steps : List Step} {below : Option Node}

/-- A lone leaf that takes the place of the branch is retired from where it stood: it has just been
written there, or it has been found beside the path. -/
theorem Changes.Along.retire_lone {step : Step} {key : NodeKey} {leaf : Node}
    (h : c.Along find path pushed) (hp : step.key.path <+: path)
    (hwritten : ∀ x, below = some x →
      c.written[step.key.child s.version step.nibble]? = some x)
    (hkey : below = some leaf ∧ key = step.key.child s.version step.nibble ∨
      find key = .ok leaf ∧ ∃ v m, m ≠ step.nibble ∧ key = step.key.child v m) :
    (c.retire key).Along find path pushed := by
  refine h.retire fun hnone => ?_
  obtain ⟨hbelow, rfl⟩ | ⟨hleaf, v, m, -, rfl⟩ := hkey
  · rw [hwritten leaf hbelow] at hnone
    cases hnone
  · refine ⟨⟨leaf, hleaf⟩, ?_⟩
    rw [NodeKey.path_child, List.dropLast_concat]
    exact hp

theorem withdraw_along (hd : d.find t = find) (htrail : Trail find s.tree steps p)
    (hp : s.path.toPath = p ++ rest) (h : c.Along find s.path.toPath pushed)
    (hbelow : ∀ x, below = some x →
      c.written[NodeKey.ofPath s.version s.tree p]? = some x) :
    Yields (Draft.Agrees t) (withdraw t s steps c below) d
      (fun r => r.1.Along find s.path.toPath pushed) fun _ => True := by
  induction htrail generalizing c d below rest with
  | nil => exact yields_pure h
  | @cons step above p htrail htree hpath hfound ih =>
    have hp' : s.path.toPath = p ++ (step.nibble :: rest) := by
      rw [hp, List.append_assoc, List.singleton_append]
    have hon : step.key.path <+: s.path.toPath := by
      rw [hpath, hp']
      exact List.prefix_append _ _
    have hstep := h.retire_found hfound hon
    rw [NodeKey.ofPath_concat htree hpath] at hbelow
    -- what is written in the branch's place stands there afterwards, on the path
    have hnext {d' : Draft} (hd' : d.Agrees t d') {c' : Changes} (hc' : c'.Along find s.path.toPath pushed) (x : Node) :
        Yields (Draft.Agrees t) (withdraw t s above (c'.write (s.at_ above.length) x) (some x)) d'
          (fun r => r.1.Along find s.path.toPath pushed) fun _ => True := by
      refine ih (hd'.find.trans hd) hp' (hc'.write (.inl (s.path_at _))) fun y hy => ?_
      cases hy
      rw [htrail.at_length hp']
      exact written_write_self _ _ _
    rw [withdraw_cons]
    split
    · exact ih hd hp' hstep fun _ hx => by cases hx
    · cases ho : (step.renewed s below).onlyLeaf? with
      | none => exact hnext (refl_of (Draft.Agrees t) d) hstep _
      | some r =>
        refine (loneLeaf_yields hd ho).bind fun r' d' hr' hd' => ?_
        obtain ⟨key, leaf⟩ := r'
        simp only
        split
        · refine hnext hd' (hstep.retire_lone hon (fun x hx => ?_) hr') leaf
          rw [written_retire_ne (step.key.ne_child _ _)]
          exact hbelow x hx
        · exact yields_throw trivial

end Removal

/-! ## Updates -/

section Update

variable {t : Trie} {d : Draft} {key value : ByteArray}

/-- The changes of an update follow the walk: they stay along its path, and a removal changes
something only if the walk came to the key. -/
theorem plan_along (version : Version)
    (hroot : ∀ k, t.root = some k → k.tree = t.tree ∧ k.path = []) :
    Yields (Draft.Agrees t) (t.plan version key value) d
      (fun r => ∃ w, descend (d.find t) t.root (Path.ofKey key) [] = .ok w ∧
        ∀ c rooted, r = some (c, rooted) →
          c.Along (d.find t) (Path.ofKey key)
            (fun k x => value.size ≠ 0 ∧ w.Pushes t.tree version (Path.ofKey key) k x) ∧
          (value.size = 0 → (w.value? (Path.ofKey key)).isSome)) fun _ => True := by
  refine Yields.bind (Yields.mono (d.walk_answers t _ _) (fun _ h => h) fun _ _ => trivial)
    fun w d' hw hd => ?_
  have hs : (StoredPath.ofPath (Path.ofKey key)).toPath = Path.ofKey key :=
    StoredPath.toPath_ofPath _
  obtain ⟨q, rest, hq, htrail, hlanded⟩ := trail_descend hroot .nil hw
  rw [List.nil_append] at hq
  have hprefix : q <+: Path.ofKey key := ⟨rest, hq.symm⟩
  obtain ⟨steps, landing⟩ := w
  split
  · next hv =>
    cases landing with
    | vacant => exact yields_pure ⟨_, hw, fun _ _ h => by cases h⟩
    | exhausted k b => exact yields_pure ⟨_, hw, fun _ _ h => by cases h⟩
    | leaf k l =>
      simp only [remove]
      split
      · next hkey =>
        have hretired : (Changes.empty.retire k).Along (d.find t) (Path.ofKey key)
            (fun k' x => value.size ≠ 0 ∧
              Descent.Pushes ⟨steps, .leaf k l⟩ t.tree version (Path.ofKey key) k' x) :=
          along_empty.retire_found hlanded.2 (hlanded.1.symm ▸ hprefix)
        have hwithdraw := withdraw_along (s := ⟨version, t.tree, .ofPath (Path.ofKey key)⟩) hd.find
          htrail (hs.trans hq) (hs.symm ▸ hretired) fun _ (hx : none = some _) => by cases hx
        rw [hs] at hwithdraw
        refine hwithdraw.bind fun r _ hr _ => yields_pure ⟨_, hw, fun c rooted h => ?_⟩
        cases h
        refine ⟨hr, fun _ => ?_⟩
        simp only [Descent.value?, if_pos hkey, Option.isSome_some]
      · exact yields_pure ⟨_, hw, fun _ _ h => by cases h⟩
  · next hv =>
    cases hr : Site.insert ⟨version, t.tree, .ofPath (Path.ofKey key)⟩
      (Leaf.make (Path.ofKey key) value) ⟨steps, landing⟩ with
    | error e => exact yields_throw trivial
    | ok c =>
      refine yields_pure ⟨_, hw, fun c' rooted h => ?_⟩
      cases h
      have halong := Site.along_insert (s := ⟨version, t.tree, .ofPath (Path.ofKey key)⟩) hs htrail
        hlanded hprefix hr
      rw [hs] at halong
      exact ⟨⟨fun k x hk => (halong.written k x hk).imp_right fun hpush => ⟨hv, hpush⟩, halong.found,
        halong.near⟩, fun h => absurd h hv⟩

end Update

end VersionedTrie
