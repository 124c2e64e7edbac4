import VersionedTrie.Proofs.Hub.Basic

/-! # Actions side by side

Two actions match if, on states that are related, they have the same outcome and leave states that
are related again. What is put together of actions that match does so too, so that handles are
compared by comparing how they come by a single node: `Trie.fetch` for questions, `Trie.recall` for
updates.

Accesses are twins if they have the same contents and find the same nodes, whatever their caches
hold; drafts are compared by their accesses and by what they remember.
-/

set_option autoImplicit false

namespace VersionedTrie

/-! ## Actions that match -/

section Matches

variable {σ τ α β : Type} {S : σ → τ → Prop}

def Matches (S : σ → τ → Prop) (x : ExceptT Error (StateM σ) α) (y : ExceptT Error (StateM τ) α) :
    Prop :=
  ∀ s s', S s s' → (y s').1 = (x s).1 ∧ S (x s).2 (y s').2

theorem matches_pure (a : α) :
    Matches S (pure a : ExceptT Error (StateM σ) α) (pure a : ExceptT Error (StateM τ) α) :=
  fun _ _ hs => ⟨rfl, hs⟩

theorem matches_throw (e : Error) :
    Matches S (throw e : ExceptT Error (StateM σ) α) (throw e : ExceptT Error (StateM τ) α) :=
  fun _ _ hs => ⟨rfl, hs⟩

theorem Matches.bind {x : ExceptT Error (StateM σ) α} {y : ExceptT Error (StateM τ) α}
    {f : α → ExceptT Error (StateM σ) β} {g : α → ExceptT Error (StateM τ) β} (hx : Matches S x y)
    (hf : ∀ a, Matches S (f a) (g a)) : Matches S (x >>= f) (y >>= g) := by
  intro s s' hs
  obtain ⟨ho, hr⟩ := hx s s' hs
  rw [run_bind, run_bind]
  cases hxs : x s with
  | mk o r =>
    cases hys : y s' with
    | mk o' r' =>
      rw [hxs, hys] at ho hr
      obtain rfl : o' = o := ho
      cases o' with
      | ok a => exact hf a r r' hr
      | error e => exact ⟨rfl, hr⟩

theorem matches_descend {load : NodeKey → ExceptT Error (StateM σ) Node}
    {load' : NodeKey → ExceptT Error (StateM τ) Node} (h : ∀ k, Matches S (load k) (load' k))
    (root : Option NodeKey) (path : Path) (steps : List Step) :
    Matches S (descend load root path steps) (descend load' root path steps) := by
  induction path generalizing root steps with
  | nil =>
    cases root with
    | none => exact matches_pure _
    | some k =>
      rw [descend, descend]
      refine (h k).bind fun x => ?_
      cases x <;> exact matches_pure _
  | cons n rest ih =>
    cases root with
    | none => exact matches_pure _
    | some k =>
      rw [descend, descend]
      refine (h k).bind fun x => ?_
      cases x with
      | leaf l => exact matches_pure _
      | branch b => exact ih _ _

end Matches

/-! ## Handles that match -/

namespace Trie

variable {t u : Trie}

section Questions

variable {S : Access → Access → Prop} (hcommitted : u.committed = t.committed)
  (hroot : u.root = t.root) (hfetch : ∀ k, Matches S (t.fetch k) (u.fetch k))
include hcommitted

theorem matches_ensureLive : Matches S t.ensureLive u.ensureLive := by
  rw [ensureLive, ensureLive, hcommitted]
  split
  · exact matches_throw _
  · exact matches_pure _

include hroot hfetch

theorem matches_rootDigest : Matches S t.rootDigest u.rootDigest := by
  refine (matches_ensureLive hcommitted).bind fun _ => ?_
  rw [hroot]
  cases t.root with
  | none => exact matches_pure _
  | some k => exact (hfetch k).bind fun x => matches_pure _

theorem matches_get (key : ByteArray) : Matches S (t.get key) (u.get key) := by
  refine (matches_ensureLive hcommitted).bind fun _ => ?_
  split
  · exact matches_pure _
  · rw [hroot]
    refine (matches_descend hfetch _ _ _).bind fun w => ?_
    obtain ⟨steps, landing⟩ := w
    cases landing <;> exact matches_pure _

theorem matches_prove (key : ByteArray) : Matches S (t.prove key) (u.prove key) := by
  refine (matches_ensureLive hcommitted).bind fun _ => ?_
  rw [hroot]
  refine (matches_descend hfetch _ _ _).bind fun w => ?_
  obtain ⟨steps, landing⟩ := w
  cases landing with
  | leaf k l =>
    simp only
    split <;> exact matches_pure _
  | vacant => exact matches_pure _
  | exhausted k b => exact matches_pure _

theorem matches_answer (question : Question) : Matches S (t.answer question) (u.answer question) := by
  cases question with
  | value key => exact (matches_get hcommitted hroot hfetch key).bind fun _ => matches_pure _
  | proof key => exact (matches_prove hcommitted hroot hfetch key).bind fun _ => matches_pure _
  | root => exact (matches_rootDigest hcommitted hroot hfetch).bind fun _ => matches_pure _

end Questions

section Planning

variable {S : Draft → Draft → Prop} (hrecall : ∀ k, Matches S (t.recall k) (u.recall k))
include hrecall

theorem matches_loneLeaf (s : Site) (step : Step) (below : Option Node) (n : Nibble) (c : Child) :
    Matches S (loneLeaf t s step below n c) (loneLeaf u s step below n c) := by
  have hstored : Matches S
      (do
        let node ← t.recall (step.key.child c.version n)
        pure (step.key.child c.version n, node))
      (do
        let node ← u.recall (step.key.child c.version n)
        pure (step.key.child c.version n, node)) :=
    (hrecall _).bind fun x => matches_pure _
  unfold loneLeaf
  cases below with
  | none => exact hstored
  | some x =>
    simp only
    split
    · exact matches_pure _
    · exact hstored

theorem matches_withdraw (s : Site) (steps : List Step) (c : Changes) (below : Option Node) :
    Matches S (withdraw t s steps c below) (withdraw u s steps c below) := by
  induction steps generalizing c below with
  | nil => exact matches_pure _
  | cons step above ih =>
    rw [withdraw_cons, withdraw_cons]
    split
    · exact ih _ _
    · cases (step.renewed s below).onlyLeaf? with
      | none => exact ih _ _
      | some r =>
        refine (matches_loneLeaf hrecall s step below r.1 r.2).bind fun r => ?_
        simp only
        split
        · exact ih _ _
        · exact matches_throw _

theorem matches_plan (htree : u.tree = t.tree) (hroot : u.root = t.root) (version : Version)
    (key value : ByteArray) :
    Matches S (t.plan version key value) (u.plan version key value) := by
  unfold plan
  rw [htree, hroot]
  refine (matches_descend hrecall _ _ _).bind fun w => ?_
  split
  · obtain ⟨steps, landing⟩ := w
    cases landing with
    | vacant => exact matches_pure _
    | exhausted k b => exact matches_pure _
    | leaf k l =>
      simp only [remove]
      split
      · exact (matches_withdraw hrecall _ _ _ _).bind fun r => matches_pure _
      · exact matches_pure _
  · split
    · exact matches_pure _
    · exact matches_throw _

/-- Updates of handles that match are both turned down at once, or planned alike. -/
theorem matches_update (hcommitted : u.committed = t.committed) (htree : u.tree = t.tree)
    (hroot : u.root = t.root) (version : Version) (key value : ByteArray) {a b : Access}
    (hs : S ⟨a, t.seen⟩ ⟨b, u.seen⟩) :
    (∃ e, t.update version key value a = ((.error e, t), a) ∧
      u.update version key value b = ((.error e, u), b)) ∨
    (t.committed = false ∧ u.committed = false ∧ refusal key value = none ∧
      ∃ o d d', t.plan version key value ⟨a, t.seen⟩ = (o, d) ∧
        u.plan version key value ⟨b, u.seen⟩ = (o, d') ∧ S d d') := by
  cases hc : t.committed with
  | true => exact .inl ⟨_, update_closed hc .., update_closed (hcommitted.trans hc) ..⟩
  | false =>
    cases hr : refusal key value with
    | some e =>
      exact .inl ⟨e, update_refused hc hr, update_refused (hcommitted.trans hc) hr⟩
    | none =>
      have hplan := matches_plan hrecall htree hroot version key value _ _ hs
      cases hp : t.plan version key value ⟨a, t.seen⟩ with
      | mk o d =>
        cases hp' : u.plan version key value ⟨b, u.seen⟩ with
        | mk o' d' =>
          rw [hp, hp'] at hplan
          obtain ⟨rfl, hd⟩ : o' = o ∧ S d d' := hplan
          exact .inr ⟨rfl, hcommitted.trans hc, rfl, o', d, d', rfl, rfl, hd⟩

end Planning

end Trie

/-! ## Accesses to the same contents -/

namespace Access

variable {a b a' b' : Access} {find : NodeKey → Except Error Node}

/-- The accesses have the same contents and find the same nodes, and no read is planned to fail. -/
structure Twin (find : NodeKey → Except Error Node) (a b : Access) : Prop where
  volume : b.volume = a.volume
  medium : b.store.medium = a.store.medium
  writes : b.store.plan.writes = a.store.plan.writes
  calm : ¬ a.Doubtful
  calm' : ¬ b.Doubtful
  finds : a.find = find
  finds' : b.find = find

theorem Twin.lookup (h : Twin find a b) (key : ByteArray) : b.lookup key = a.lookup key := by
  rw [Access.lookup, Access.lookup, Store.lookup, Store.lookup, h.medium, h.volume]

theorem Twin.stored (h : Twin find a b) (k : NodeKey) : b.stored k = a.stored k := by
  rw [Access.stored, Access.stored, h.lookup]

theorem Twin.anchor (h : Twin find a b) (root : Digest) : b.anchor root = a.anchor root := by
  rw [Access.anchor, Access.anchor, h.lookup]

theorem Twin.reads (h : Twin find a b) (ha : a.Reads a') (hb : b.Reads b') : Twin find a' b' where
  volume := by rw [hb.agrees.volume, ha.agrees.volume, h.volume]
  medium := by rw [hb.agrees.medium, ha.agrees.medium, h.medium]
  writes := by rw [hb.batches, ha.batches, h.writes]
  calm := fun hd => h.calm (ha.agrees.reads hd)
  calm' := fun hd => h.calm' (hb.agrees.reads hd)
  finds := (funext ha.agrees.find).trans h.finds
  finds' := (funext hb.agrees.find).trans h.finds'

/-- One batch makes the same of both stores. -/
theorem Twin.written (h : Twin find a b) (batch : WriteBatch) :
    (b.writeOnce.written batch).volume = (a.writeOnce.written batch).volume ∧
      (b.writeOnce.written batch).store.medium = (a.writeOnce.written batch).store.medium := by
  have hmedium : b.writeOnce.store.medium = a.writeOnce.store.medium := h.medium
  have hwrite := Store.write_congr hmedium batch a.volume
  have hvolume : b.writeOnce.volume = a.volume := h.volume
  rw [Access.written, hvolume]
  exact hwrite

/-- Actions that only read match if twins answer them the same. -/
theorem matches_answers {α : Type} {x y : AccessM α} {r r' : Access → Except Error α}
    (hx : Preserves Access.Reads x) (hy : Preserves Access.Reads y)
    (hr : ∀ a, Answers Agrees a.Doubtful x a (r a)) (hr' : ∀ b, Answers Agrees b.Doubtful y b (r' b))
    (heq : ∀ a b, Twin find a b → r' b = r a) : Matches (Twin find) x y := by
  intro a b hab
  refine ⟨?_, hab.reads (hx a) (hy b)⟩
  rw [(hr a).eq hab.calm, (hr' b).eq hab.calm', heq a b hab]

theorem matches_readAnchor (root : Digest) :
    Matches (Twin find) (readAnchor root) (readAnchor root) :=
  matches_answers (preserves_readAnchor root) (preserves_readAnchor root)
    (fun a => a.readAnchor_answers root) (fun b => b.readAnchor_answers root)
    fun _ _ hab => hab.anchor root

theorem matches_readNode (k : NodeKey) : Matches (Twin find) (readNode k) (readNode k) :=
  matches_answers (preserves_readNode k) (preserves_readNode k) (fun a => a.readNode_answers k)
    (fun b => b.readNode_answers k) fun _ _ hab => hab.stored k

theorem matches_readThroughCache (k : NodeKey) :
    Matches (Twin find) (readThroughCache k) (readThroughCache k) :=
  matches_answers (preserves_readThroughCache k) (preserves_readThroughCache k)
    (fun a => a.readThroughCache_answers k) (fun b => b.readThroughCache_answers k)
    fun a b hab => by rw [hab.finds', hab.finds]

theorem matches_load (root : Digest) :
    Matches (Twin find) (Trie.load root) (Trie.load root) := by
  unfold Trie.load
  split
  · exact matches_pure _
  · refine (matches_readAnchor root).bind fun k => (matches_readNode k).bind fun x => ?_
    split
    · exact matches_pure _
    · exact matches_throw _

end Access

/-! ## What is remembered, or else found -/

/-- What is found under a node key that is not dirty, for a handle that remembers the given nodes. -/
def recalled (find : NodeKey → Except Error Node) (seen : NodeMap Node) (k : NodeKey) :
    Except Error Node :=
  match seen[k]? with
  | some x => .ok x
  | none => find k

section Recalled

variable {find : NodeKey → Except Error Node} {seen seen' : NodeMap Node} {j k : NodeKey} {x : Node}

theorem recalled_insert (hk : recalled find seen k = .ok x) :
    recalled find (seen.insert k x) = recalled find seen := by
  funext j
  by_cases e : k = j
  · subst e
    rw [hk, recalled, Std.ExtTreeMap.getElem?_insert_self]
  · simp [recalled, Std.ExtTreeMap.getElem?_insert, e]

theorem recalled_erase (h : recalled find seen' = recalled find seen) (k : NodeKey) :
    recalled find (seen'.erase k) = recalled find (seen.erase k) := by
  funext j
  have hj := congrFun h j
  by_cases e : k = j
  · simp [recalled, e]
  · simpa [recalled, Std.ExtTreeMap.getElem?_erase, e] using hj

namespace Trie

theorem find_recalled (t : Trie) (a : Access) (k : NodeKey) :
    t.find a k =
      match t.dirty[k]? with
      | some x => .ok x
      | none => recalled a.find t.seen k := rfl

/-- What a handle remembers of its reading does not change what it would find. -/
theorem recall_recalled (t : Trie) (k : NodeKey) (d : Draft) :
    recalled d.access.find (t.recall k d).2.seen = recalled d.access.find d.seen := by
  rw [Draft.run_recall]
  cases t.dirty[k]? with
  | some x => rfl
  | none =>
    cases hs : d.seen[k]? with
    | some x => rfl
    | none =>
      obtain ⟨-, ho⟩ := d.access.readThroughCache_answers k
      simp only
      cases hr : readThroughCache k d.access with
      | mk o access =>
        rw [hr] at ho
        cases o with
        | error e => rfl
        | ok x =>
          refine recalled_insert ?_
          rw [recalled, hs]
          exact ho

variable {t u : Trie} {d e : Draft}

theorem recall_outcome (ht : ¬ d.access.Doubtful) (k : NodeKey) :
    (t.recall k d).1 =
      match t.dirty[k]? with
      | some x => .ok x
      | none => recalled d.access.find d.seen k :=
  (Draft.recall_answers t d k).eq ht

end Trie

end Recalled

/-- The drafts have twin accesses and would find the same committed nodes. -/
structure Draft.Twin (find : NodeKey → Except Error Node) (d e : Draft) : Prop where
  access : d.access.Twin find e.access
  recalled : recalled find e.seen = recalled find d.seen

section Twins

variable {find : NodeKey → Except Error Node} {t u : Trie} (hdirty : u.dirty = t.dirty)
include hdirty

theorem Trie.matches_recall (k : NodeKey) :
    Matches (Draft.Twin find) (t.recall k) (u.recall k) := by
  intro d e hde
  have hfind := hde.access.finds
  have hfind' := hde.access.finds'
  have hd := t.recall_recalled k d
  have he := u.recall_recalled k e
  rw [hfind] at hd
  rw [hfind'] at he
  refine ⟨?_, hde.access.reads (preserves_recall t k d) (preserves_recall u k e), ?_⟩
  · rw [recall_outcome hde.access.calm, recall_outcome hde.access.calm', hdirty, hfind, hfind',
      hde.recalled]
  · rw [hd, he, hde.recalled]

theorem Trie.matches_fetch (hseen : recalled find u.seen = recalled find t.seen) (k : NodeKey) :
    Matches (Access.Twin find) (t.fetch k) (u.fetch k) := by
  refine Access.matches_answers (t.preserves_fetch k) (u.preserves_fetch k)
    (fun a => t.fetch_answers a k) (fun b => u.fetch_answers b k) fun a b hab => ?_
  rw [find_recalled, find_recalled, hab.finds, hab.finds', hdirty, hseen]

end Twins

end VersionedTrie
