import VersionedTrie.Trie.Changes
import Mathlib.Order.Defs.Unbundled

/-! # Reading

Reading moves an access on: it uses up a planned fault, reorders the node cache, and an update
remembers the nodes it has met. None of this changes what is found under a node key. `Yields` states
what an action does to its state together with its outcome, and `Answers` is the case of an outcome
that is a function of the state (`find`), apart from a planned fault.

Walking down is answered by the same walk over what is found (`descend_answers`), so that whatever
is said of walks can be said without any state.
-/

set_option autoImplicit false

namespace VersionedTrie

theorem eq_ok_of_toOption {ε α : Type} {r : Except ε α} {a : α} (h : r.toOption = some a) :
    r = .ok a := by
  cases r with
  | ok b => exact congrArg Except.ok (Option.some.inj h)
  | error e => cases h

/-! ## Running actions -/

section Running

variable {σ α β : Type}

theorem run_pure (a : α) (s : σ) : (pure a : ExceptT Error (StateM σ) α) s = (.ok a, s) := rfl

theorem run_get (s : σ) : (get : ExceptT Error (StateM σ) σ) s = (.ok s, s) := rfl

theorem run_set (s s' : σ) : (set s' : ExceptT Error (StateM σ) PUnit) s = (.ok ⟨⟩, s') := rfl

theorem run_bind (x : ExceptT Error (StateM σ) α) (f : α → ExceptT Error (StateM σ) β) (s : σ) :
    (x >>= f) s =
      match x s with
      | (.ok a, s') => f a s'
      | (.error e, s') => (.error e, s') := by
  simp only [Bind.bind, ExceptT.bind, ExceptT.mk, StateT.bind]
  obtain ⟨o, s'⟩ := x s
  cases o <;> rfl

end Running

/-! ## What actions yield -/

section Yields

variable {σ α β : Type} {R : σ → σ → Prop} {F G : Prop}

/-- An action takes a state to one that `R` relates to it, with a result that meets `P` or an error
that meets `E`. -/
def Yields (R : σ → σ → Prop) (x : ExceptT Error (StateM σ) α) (s : σ) (P : α → Prop)
    (E : Error → Prop) : Prop :=
  R s (x s).2 ∧
    match (x s).1 with
    | .ok a => P a
    | .error e => E e

/-- An action has the given outcome, or fails although there is a fault. -/
def Answers (R : σ → σ → Prop) (F : Prop) (x : ExceptT Error (StateM σ) α) (s : σ)
    (r : Except Error α) : Prop :=
  Yields R x s (fun a => r = .ok a) fun e => r = .error e ∨ F

theorem Yields.mono {x : ExceptT Error (StateM σ) α} {s : σ} {P Q : α → Prop} {E E' : Error → Prop}
    (h : Yields R x s P E) (hP : ∀ a, P a → Q a) (hE : ∀ e, E e → E' e) : Yields R x s Q E' := by
  refine ⟨h.1, ?_⟩
  have ho := h.2
  split at ho
  · exact hP _ ho
  · exact hE _ ho

theorem Yields.of_ok {x : ExceptT Error (StateM σ) α} {s : σ} {P : α → Prop} {E : Error → Prop}
    {a : α} (h : Yields R x s P E) (hx : (x s).1 = .ok a) : P a := by
  have ho := h.2
  rwa [hx] at ho

theorem Answers.mono {x : ExceptT Error (StateM σ) α} {s : σ} {r : Except Error α}
    (h : Answers R F x s r) (hF : F → G) : Answers R G x s r :=
  Yields.mono h (fun _ => id) fun _ => Or.imp_right hF

theorem Answers.eq {x : ExceptT Error (StateM σ) α} {s : σ} {r : Except Error α}
    (h : Answers R F x s r) (hF : ¬ F) : (x s).1 = r := by
  have ho := h.2
  split at ho
  · next hx => rw [hx, ho]
  · next hx => rw [hx, ho.resolve_right hF]

theorem Answers.eq_of_ok {x : ExceptT Error (StateM σ) α} {s : σ} {r : Except Error α} {a : α}
    (h : Answers R F x s r) (hx : (x s).1 = .ok a) : r = .ok a := by
  have ho := h.2
  rw [hx] at ho
  exact ho

theorem Answers.of_error {x : ExceptT Error (StateM σ) α} {s : σ} {a : α} {e : Error}
    (h : Answers R F x s (.ok a)) (hx : (x s).1 = .error e) : F := by
  have ho := h.2
  rw [hx] at ho
  exact ho.resolve_left nofun

variable [IsPreorder σ R]

theorem yields_pure {a : α} {s : σ} {P : α → Prop} {E : Error → Prop} (h : P a) :
    Yields R (pure a) s P E :=
  ⟨refl_of R s, h⟩

theorem yields_throw {e : Error} {s : σ} {P : α → Prop} {E : Error → Prop} (h : E e) :
    Yields R (throw e) s P E :=
  ⟨refl_of R s, h⟩

theorem Yields.bind {x : ExceptT Error (StateM σ) α} {f : α → ExceptT Error (StateM σ) β} {s : σ}
    {P : α → Prop} {Q : β → Prop} {E : Error → Prop} (hx : Yields R x s P E)
    (hf : ∀ a s', P a → R s s' → Yields R (f a) s' Q E) : Yields R (x >>= f) s Q E := by
  obtain ⟨hs, ho⟩ := hx
  rw [Yields, run_bind]
  cases hr : x s with
  | mk o s' =>
    rw [hr] at hs ho
    cases o with
    | ok a =>
      obtain ⟨hs', ho'⟩ := hf a s' ho hs
      exact ⟨trans_of R hs hs', ho'⟩
    | error e => exact ⟨hs, ho⟩

theorem answers_pure {a : α} {s : σ} : Answers R F (pure a) s (.ok a) := yields_pure rfl

theorem answers_throw {e : Error} {s : σ} :
    Answers R F (throw e : ExceptT Error (StateM σ) α) s (.error e) :=
  yields_throw (.inl rfl)

theorem Answers.bind_ok {x : ExceptT Error (StateM σ) α} {f : α → ExceptT Error (StateM σ) β} {s : σ}
    {a : α} {r : Except Error β} (hx : Answers R F x s (.ok a))
    (hf : ∀ s', R s s' → Answers R F (f a) s' r) : Answers R F (x >>= f) s r := by
  have hx' : Yields R x s (fun b => b = a) fun e => r = .error e ∨ F := by
    refine Yields.mono hx (fun b hb => (Except.ok.inj hb).symm) ?_
    exact fun e he => .inr (he.resolve_left nofun)
  refine hx'.bind fun b s' hb hs => ?_
  subst hb
  exact hf s' hs

theorem Answers.bind {x : ExceptT Error (StateM σ) α} {f : α → ExceptT Error (StateM σ) β} {s : σ}
    {r : Except Error α} {g : α → Except Error β} (hx : Answers R F x s r)
    (hf : ∀ a s', R s s' → Answers R F (f a) s' (g a)) : Answers R F (x >>= f) s (r >>= g) := by
  cases r with
  | ok a => exact hx.bind_ok (hf a)
  | error e =>
    refine Yields.bind (P := fun _ => False) (Yields.mono hx (fun _ h => nomatch h) ?_) ?_
    · exact fun e' he => he.imp_left fun h => by cases h; rfl
    · exact fun _ _ h => absurd h id

/-- A walk is answered by the same walk over the answers. -/
theorem descend_answers {load : NodeKey → ExceptT Error (StateM σ) Node}
    {find : NodeKey → Except Error Node} {s : σ}
    (h : ∀ s' key, R s s' → Answers R F (load key) s' (find key)) (root : Option NodeKey)
    (path : Path) (steps : List Step) :
    Answers R F (descend load root path steps) s (descend find root path steps) := by
  induction path generalizing root steps s with
  | nil =>
    cases root with
    | none => exact answers_pure
    | some key =>
      rw [descend, descend]
      refine (h s key (refl_of R s)).bind fun x s' _ => ?_
      cases x with
      | leaf l => exact answers_pure
      | branch b => exact answers_pure
  | cons n rest ih =>
    cases root with
    | none => exact answers_pure
    | some key =>
      rw [descend, descend]
      refine (h s key (refl_of R s)).bind fun x s' hs => ?_
      cases x with
      | leaf l => exact answers_pure
      | branch b => exact ih (fun s'' k hs'' => h s'' k (trans_of R hs hs'')) _ _

end Yields

/-! ## Accesses -/

namespace Access

variable {a b : Access}

def peek (a : Access) (key : NodeKey) : Option Node :=
  a.cache.bind fun c => c.node? (key.version, key)

/-- What the store has under a byte string, apart from any planned fault. -/
def lookup (a : Access) (key : ByteArray) : Except Error (Option ByteArray) :=
  a.store.lookup a.volume key

/-- What is read out of an entry of a store, if there is one. -/
def deciphered {α : Type} (missing : Error) (decode : ByteArray → Except NodeDefect α) :
    Option ByteArray → Except Error α
  | none => .error missing
  | some b =>
    match decode b with
    | .ok x => .ok x
    | .error defect => .error (.corruptNode defect)

theorem bind_deciphered_eq_ok {α : Type} {missing : Error}
    {decode : ByteArray → Except NodeDefect α} {r : Except Error (Option ByteArray)} {x : α} :
    r >>= deciphered missing decode = .ok x ↔ ∃ b, r = .ok (some b) ∧ decode b = .ok x := by
  cases r with
  | error e => exact ⟨nofun, nofun⟩
  | ok found =>
    cases found with
    | none => exact ⟨nofun, nofun⟩
    | some b =>
      show (match decode b with
        | .ok x => .ok x
        | .error defect => .error (Error.corruptNode defect)) = Except.ok x ↔ _
      cases hd : decode b <;> simp [hd]

def stored (a : Access) (key : NodeKey) : Except Error Node :=
  a.lookup key.encode >>= deciphered (.nodeMissing key) Node.decode

def anchor (a : Access) (root : Digest) : Except Error NodeKey :=
  a.lookup root.bytes >>= deciphered (.anchorMissing root) NodeKey.decode

theorem stored_eq_ok {key : NodeKey} {x : Node} :
    a.stored key = .ok x ↔ ∃ b, a.lookup key.encode = .ok (some b) ∧ Node.decode b = .ok x :=
  bind_deciphered_eq_ok

theorem anchor_eq_ok {root : Digest} {key : NodeKey} :
    a.anchor root = .ok key ↔
      ∃ b, a.lookup root.bytes = .ok (some b) ∧ NodeKey.decode b = .ok key :=
  bind_deciphered_eq_ok

def find (a : Access) (key : NodeKey) : Except Error Node :=
  match a.peek key with
  | some node => .ok node
  | none => a.stored key

/-- Some read is planned to fail. -/
def Doubtful (a : Access) : Prop := a.store.plan.reads ≠ none

/-- The access without its planned faults. -/
def calm (a : Access) : Access := { a with store := { a.store with plan := FaultPlan.none } }

theorem not_doubtful_calm (a : Access) : ¬ a.calm.Doubtful := fun h => h rfl

/-- The second access is the first one after some reading. -/
structure Agrees (a b : Access) : Prop where
  volume : b.volume = a.volume
  medium : b.store.medium = a.store.medium
  writes : a.store.plan.writes = none → b.store.plan.writes = none
  reads : b.Doubtful → a.Doubtful
  cached : b.cache.isSome = a.cache.isSome
  peek : ∀ key, b.peek key = a.peek key

instance : IsPreorder Access Agrees where
  refl _ := ⟨rfl, rfl, id, id, rfl, fun _ => rfl⟩
  trans _ _ _ h h' :=
    ⟨h'.volume.trans h.volume, h'.medium.trans h.medium, h'.writes ∘ h.writes,
      h.reads ∘ h'.reads, h'.cached.trans h.cached, fun key => (h'.peek key).trans (h.peek key)⟩

theorem Agrees.lookup (h : Agrees a b) (key : ByteArray) : b.lookup key = a.lookup key := by
  rw [Access.lookup, Access.lookup, Store.lookup, Store.lookup, h.medium, h.volume]

theorem Agrees.stored (h : Agrees a b) (key : NodeKey) : b.stored key = a.stored key := by
  rw [Access.stored, Access.stored, h.lookup]

theorem Agrees.find (h : Agrees a b) (key : NodeKey) : b.find key = a.find key := by
  rw [Access.find, Access.find, h.peek, h.stored]

theorem Agrees.faultless (h : Agrees a b) (ha : a.store.plan = FaultPlan.none) :
    b.store.plan = FaultPlan.none := by
  have hwrites : b.store.plan.writes = none := h.writes (by rw [ha]; rfl)
  have hreads : b.store.plan.reads = none :=
    Decidable.of_not_not fun hn => h.reads hn (by rw [ha]; rfl)
  cases hb : b.store.plan with
  | mk reads writes =>
    rw [hb] at hreads hwrites
    simp only at hreads hwrites
    rw [hreads, hwrites]
    rfl

theorem Agrees.uncached (h : Agrees a b) (ha : a.cache = none) : b.cache = none := by
  have hc := h.cached
  rw [ha] at hc
  exact Option.isSome_eq_false_iff.mp hc |> Option.isNone_iff_eq_none.mp

theorem find_uncached (h : a.cache = none) (key : NodeKey) : a.find key = a.stored key := by
  rw [find, peek, h]
  rfl

def readOnce (a : Access) : Access :=
  { a with store := { a.store with
      plan := { a.store.plan with reads := (FaultPlan.tick a.store.plan.reads).2 } } }

theorem agrees_readOnce (a : Access) : Agrees a a.readOnce := by
  refine ⟨rfl, rfl, id, fun h hn => h ?_, rfl, fun _ => rfl⟩
  rw [readOnce, hn]
  rfl

theorem run_read (a : Access) (key : ByteArray) :
    Access.read key a =
      if (FaultPlan.tick a.store.plan.reads).1 then (.error (.corruption .plannedRead), a.readOnce)
      else (a.lookup key, a.readOnce) := by
  unfold Access.read
  simp only [run_bind, run_get, run_set]
  split
  · rfl
  · rw [lookup]
    cases a.store.lookup a.volume key <;> rfl

theorem read_answers (a : Access) (key : ByteArray) :
    Answers Agrees a.Doubtful (Access.read key) a (a.lookup key) := by
  rw [Answers, Yields, run_read]
  split
  · next h =>
    refine ⟨a.agrees_readOnce, .inr fun hn => ?_⟩
    rw [hn] at h
    cases h
  · refine ⟨a.agrees_readOnce, ?_⟩
    split
    · next h => exact h
    · next h => exact .inl h

theorem readNode_answers (a : Access) (key : NodeKey) :
    Answers Agrees a.Doubtful (readNode key) a (a.stored key) := by
  refine (a.read_answers key.encode).bind fun found s _ => ?_
  cases found with
  | none => exact answers_throw
  | some b =>
    simp only [deciphered]
    cases Node.decode b with
    | ok => exact answers_pure
    | error => exact answers_throw

theorem readAnchor_answers (a : Access) (root : Digest) :
    Answers Agrees a.Doubtful (readAnchor root) a (a.anchor root) := by
  refine (a.read_answers root.bytes).bind fun found s _ => ?_
  cases found with
  | none => exact answers_throw
  | some b =>
    simp only [deciphered]
    cases NodeKey.decode b with
    | ok => exact answers_pure
    | error => exact answers_throw

theorem cached_answers (a : Access) (key : NodeKey) :
    Answers Agrees a.Doubtful (Access.cached key) a (.ok (a.peek key)) := by
  obtain ⟨volume, store, cache⟩ := a
  cases cache with
  | none => exact ⟨refl_of Agrees _, rfl⟩
  | some c =>
    refine ⟨⟨rfl, rfl, id, id, rfl, fun k => ?_⟩, ?_⟩
    · exact c.node?_get _ _
    · exact congrArg Except.ok (c.get_fst _).symm

theorem readThroughCache_answers (a : Access) (key : NodeKey) :
    Answers Agrees a.Doubtful (readThroughCache key) a (a.find key) := by
  have hfind : a.find key = (Except.ok (a.peek key) >>= fun
      | some node => .ok node
      | none => a.stored key) := by
    rw [find]
    cases a.peek key <;> rfl
  rw [hfind]
  refine (a.cached_answers key).bind fun found s hs => ?_
  cases found with
  | some node => exact answers_pure
  | none =>
    rw [← hs.stored]
    exact (s.readNode_answers key).mono hs.reads

theorem run_readAnchor (a : Access) (root : Digest) :
    readAnchor root a =
      if (FaultPlan.tick a.store.plan.reads).1 then (.error (.corruption .plannedRead), a.readOnce)
      else (a.anchor root, a.readOnce) := by
  rw [anchor]
  unfold readAnchor
  simp only [run_bind, run_read]
  cases (FaultPlan.tick a.store.plan.reads).1 with
  | true => rfl
  | false =>
    cases a.lookup root.bytes with
    | error e => rfl
    | ok found =>
      cases found with
      | none => rfl
      | some b =>
        simp only [deciphered, Bind.bind, Except.bind, Bool.false_eq_true, if_false]
        cases NodeKey.decode b <;> rfl

/-- Without a cache the store is read once. -/
theorem run_readThroughCache (ha : a.cache = none) (key : NodeKey) :
    readThroughCache key a =
      if (FaultPlan.tick a.store.plan.reads).1 then (.error (.corruption .plannedRead), a.readOnce)
      else (a.find key, a.readOnce) := by
  have hcached : Access.cached key a = (.ok none, a) := by
    unfold Access.cached
    simp only [run_bind, run_get, ha]
    rfl
  rw [find_uncached ha, stored]
  unfold readThroughCache readNode
  simp only [run_bind, hcached, run_read]
  cases (FaultPlan.tick a.store.plan.reads).1 with
  | true => rfl
  | false =>
    cases a.lookup key.encode with
    | error e => rfl
    | ok found =>
      cases found with
      | none => rfl
      | some b =>
        simp only [deciphered, Bind.bind, Except.bind, Bool.false_eq_true, if_false]
        cases Node.decode b <;> rfl

end Access

/-! ## Handles -/

namespace Trie

def find (t : Trie) (a : Access) (key : NodeKey) : Except Error Node :=
  match t.dirty[key]? with
  | some node => .ok node
  | none =>
    match t.seen[key]? with
    | some node => .ok node
    | none => a.find key

theorem fetch_answers (t : Trie) (a : Access) (key : NodeKey) :
    Answers Access.Agrees a.Doubtful (t.fetch key) a (t.find a key) := by
  rw [fetch, find]
  cases t.dirty[key]? with
  | some node => exact answers_pure
  | none =>
    cases t.seen[key]? with
    | some node => exact answers_pure
    | none => exact a.readThroughCache_answers key

theorem find_agrees (t : Trie) {a b : Access} (h : a.Agrees b) : t.find b = t.find a := by
  funext key
  rw [find, find, h.find]

end Trie

/-! ## Updates -/

namespace Draft

def find (t : Trie) (d : Draft) : NodeKey → Except Error Node :=
  { t with seen := d.seen }.find d.access

/-- The second draft is the first one after some reading. -/
structure Agrees (t : Trie) (d d' : Draft) : Prop where
  access : d.access.Agrees d'.access
  find : d'.find t = d.find t

instance (t : Trie) : IsPreorder Draft (Agrees t) where
  refl _ := ⟨refl_of Access.Agrees _, rfl⟩
  trans _ _ _ h h' := ⟨trans_of Access.Agrees h.access h'.access, h'.find.trans h.find⟩

/-- What an update meets for the first time it remembers. -/
theorem agrees_remember {t : Trie} {d : Draft} {key : NodeKey} {x : Node}
    (hs : d.seen[key]? = none) (hx : d.access.find key = .ok x) :
    Agrees t d { d with seen := d.seen.insert key x } := by
  refine ⟨refl_of Access.Agrees _, ?_⟩
  funext k
  rw [find, find, Trie.find, Trie.find]
  cases hk : t.dirty[k]? with
  | some y => rfl
  | none =>
    simp only [Std.ExtTreeMap.getElem?_insert, Std.LawfulEqCmp.compare_eq_iff_eq]
    by_cases e : key = k
    · subst e
      simp only [if_true, hs, hx]
    · rw [if_neg e]

theorem run_recall (t : Trie) (d : Draft) (key : NodeKey) :
    t.recall key d =
      match t.dirty[key]? with
      | some x => (.ok x, d)
      | none =>
        match d.seen[key]? with
        | some x => (.ok x, d)
        | none =>
          match readThroughCache key d.access with
          | (.ok x, access) => (.ok x, ⟨access, d.seen.insert key x⟩)
          | (.error e, access) => (.error e, ⟨access, d.seen⟩) := by
  have hget : (getThe Draft : DraftM Draft) d = (.ok d, d) := rfl
  unfold Trie.recall
  cases t.dirty[key]? with
  | some x => rfl
  | none =>
    simp only [run_bind, hget]
    cases d.seen[key]? with
    | some x => rfl
    | none =>
      simp only [run_bind, AccessM.draft]
      cases readThroughCache key d.access with
      | mk o access => cases o <;> rfl

theorem recall_answers (t : Trie) (d : Draft) (key : NodeKey) :
    Answers (Agrees t) d.access.Doubtful (t.recall key) d (d.find t key) := by
  have hfind : d.find t key =
      match t.dirty[key]? with
      | some x => .ok x
      | none =>
        match d.seen[key]? with
        | some x => .ok x
        | none => d.access.find key := rfl
  rw [Answers, Yields, run_recall, hfind]
  cases t.dirty[key]? with
  | some x => exact ⟨refl_of (Agrees t) d, rfl⟩
  | none =>
    cases hs : d.seen[key]? with
    | some x => exact ⟨refl_of (Agrees t) d, rfl⟩
    | none =>
      obtain ⟨ha, ho⟩ := d.access.readThroughCache_answers key
      cases hr : readThroughCache key d.access with
      | mk o access =>
        rw [hr] at ha ho
        have hread : Agrees t d ⟨access, d.seen⟩ := ⟨ha, Trie.find_agrees _ ha⟩
        cases o with
        | error e => exact ⟨hread, ho⟩
        | ok x =>
          refine ⟨trans_of (Agrees t) hread (agrees_remember hs ?_), ho⟩
          rw [ha.find]
          exact ho

/-- A walk of an update is answered by the walk over what it finds. -/
theorem walk_answers (t : Trie) (d : Draft) (root : Option NodeKey) (path : Path) :
    Answers (Agrees t) d.access.Doubtful (descend t.recall root path []) d
      (descend (d.find t) root path []) := by
  refine descend_answers (fun d' k hd => ?_) root path []
  rw [← hd.find]
  exact (d'.recall_answers t k).mono hd.access.reads

end Draft

end VersionedTrie
