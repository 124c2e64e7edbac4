import VersionedTrie.Proofs.Commit
import VersionedTrie.Proofs.Run

/-! # Linear histories

A session is one handle after another on one store: updates, and commits that are followed by
loading the root which they have returned. Beside the handle it keeps account of what has been
written to the store. Any step may fail; the session then goes on with what it has, and a commit
whose root could not be loaded is loaded the next time.

`Stands` is the invariant of sessions: the handle represents a tree which holds a map, and while a
root waits to be loaded, the store has the anchor of that tree. Nothing is asked of the store but
that its answers, if it gives any, are what has been written (`Honest`).
-/

set_option autoImplicit false

namespace VersionedTrie

open VersionedTrie.Tree

inductive Action where
  | update (version : Version) (key value : ByteArray)
  /-- Commits and loads the root that the commit has returned. -/
  | commit

structure Session where
  trie : Trie
  access : Access
  /-- The root that a commit has returned, until it is loaded. -/
  returned : Option Digest
  /-- What the store should have: what was there, and what commits have written. -/
  contents : Contents

/-- The map after an action; an update that is refused leaves it as it is. -/
def Entries.after (m : Entries) : Action → Entries
  | .update _ key value =>
    match m.update key value with
    | .ok m' => m'
    | .error _ => m
  | .commit => m

namespace Session

def start (tree : TreePrefix) (a : Access) (contents : Contents) : Session :=
  ⟨{ Trie.empty with tree }, a, none, contents⟩

def commit (s : Session) : Session :=
  match s.trie.commit s.access with
  | (.ok (j, trie), access) => ⟨trie, access, some j.root, (j.batch false).apply s.contents⟩
  | (.error _, access) => { s with access }

/-- Loads a root; one without entries is given the prefix of the handle before. -/
def load (s : Session) (root : Digest) : AccessM Trie := do
  let t ← Trie.load root
  if root = Digest.placeholder then
    match t.withPrefix s.trie.tree.bytes with
    | .ok t => pure t
    | .error e => throw e
  else pure t

def reopen (s : Session) : Session :=
  match s.returned with
  | none => s
  | some root =>
    match s.load root s.access with
    | (.ok trie, access) => { s with trie, access, returned := none }
    | (.error _, access) => { s with access }

def perform (s : Session) : Action → Session
  | .update version key value =>
    { s with
      trie := (s.trie.update version key value s.access).1.2
      access := (s.trie.update version key value s.access).2 }
  | .commit => s.commit.reopen

def run (s : Session) (actions : List Action) : Session := actions.foldl perform s

/-- Whatever the store answers is what it should have. -/
def Honest (s : Session) : Prop :=
  ∀ b found, s.access.lookup b = .ok found → found = s.contents[b]?

/-- The store answers, with what it should have. -/
def Served (s : Session) : Prop := ∀ b, s.access.lookup b = .ok s.contents[b]?

theorem Served.honest {s : Session} (h : s.Served) : s.Honest := by
  intro b found hb
  rw [h b] at hb
  exact (Except.ok.inj hb).symm

/-- No read and no batch is planned to fail. -/
def Faultless (s : Session) : Prop := s.access.store.plan = FaultPlan.none

/-! ## What the store has -/

section Stored

variable {s : Session} {k : NodeKey} {x y : Node} {root : Digest}

theorem Honest.stored (h : s.Honest) (hy : s.access.stored k = .ok y) :
    ∃ b, s.contents[k.encode]? = some b ∧ Node.decode b = .ok y := by
  obtain ⟨b, hb, hd⟩ := Access.stored_eq_ok.mp hy
  exact ⟨b, (h _ _ hb).symm, hd⟩

theorem Honest.anchor (h : s.Honest) (hk : s.access.anchor root = .ok k) :
    ∃ b, s.contents[root.bytes]? = some b ∧ NodeKey.decode b = .ok k := by
  obtain ⟨b, hb, hd⟩ := Access.anchor_eq_ok.mp hk
  exact ⟨b, (h _ _ hb).symm, hd⟩

theorem Served.stored (h : s.Served) (hk : s.contents.Keeps k x) : s.access.stored k = .ok x := by
  refine Access.stored_eq_ok.mpr ⟨x.encode, ?_, Node.decode_encode hk.2⟩
  rw [h, hk.1]

theorem Served.anchor (h : s.Served) (hk : s.contents[root.bytes]? = some k.encode) :
    s.access.anchor root = .ok k := by
  refine Access.anchor_eq_ok.mpr ⟨k.encode, ?_, NodeKey.decode_encode k⟩
  rw [h, hk]

theorem Honest.keeps (h : s.Honest) (hx : s.access.stored k = .ok x) : s.contents.Keeps k x := by
  obtain ⟨b, hb, hd⟩ := h.stored hx
  obtain ⟨rfl, hs⟩ := Node.decode_eq_ok.mp hd
  exact ⟨hb, hs⟩

end Stored

theorem honest_congr {s s' : Session} (ha : s.access.Agrees s'.access)
    (hc : s'.contents = s.contents) : s'.Honest ↔ s.Honest := by
  rw [Honest, Honest, hc]
  simp only [ha.lookup]

theorem served_congr {s s' : Session} (ha : s.access.Agrees s'.access)
    (hc : s'.contents = s.contents) : s'.Served ↔ s.Served := by
  rw [Served, Served, hc]
  simp only [ha.lookup]

/-! ## The invariant -/

/-- The session stands at a tree and the map that it holds, over a committed tree. -/
structure Stands (s : Session) (base T : Tree) (m : Entries) : Prop where
  holds : T.Holds m
  bounded : m.Bounded
  compact : T.Compact []
  cached : ∀ k x y, Owns s.trie.tree [] base k x → s.access.peek k = some y → y = x
  stored : ∀ k x, Owns s.trie.tree [] base k x → s.contents.Backs k x
  live : s.trie.committed = false → s.returned = none ∧ s.trie.Represents base T
  closed : s.trie.committed = true → s.returned = some T.digest ∧ base = T ∧
    ∀ k, T.key? s.trie.tree [] = some k → s.contents[T.digest.bytes]? = some k.encode

variable {s : Session} {base T : Tree} {m : Entries}

theorem stands_start (tree : TreePrefix) (a : Access) (c : Contents) :
    (start tree a c).Stands .vacant .vacant ∅ where
  holds := holds_vacant
  bounded := Entries.bounded_empty
  compact := .vacant
  cached _ _ _ hk := absurd hk not_owns_vacant
  stored _ _ hk := absurd hk not_owns_vacant
  live _ := ⟨rfl, Trie.represents_opened tree .vacant⟩
  closed := nofun

theorem Stands.backed (h : s.Stands base T m) (hh : s.Honest) :
    s.access.Backed s.trie.tree base := by
  intro k x hk
  refine ⟨fun y => h.cached k x y hk, fun y hy => ?_⟩
  obtain ⟨b, hb, hd⟩ := hh.stored hy
  exact h.stored k x hk b y hb hd

theorem Stands.agrees (h : s.Stands base T m) {a : Access} (ha : s.access.Agrees a) :
    ({ s with access := a } : Session).Stands base T m :=
  { h with
    cached := fun k x y hk hy => h.cached k x y hk (by rwa [ha.peek] at hy) }

/-- What the store loses does not matter, except for the anchor of a root that waits to be loaded. -/
theorem Stands.lose (h : s.Stands base T m) {a : Access} {held : Contents}
    (hpeek : ∀ k, a.peek k = s.access.peek k)
    (hless : ∀ b v : ByteArray, held[b]? = some v → s.contents[b]? = some v)
    (hanchor : s.trie.committed = true → T ≠ .vacant →
      held[T.digest.bytes]? = s.contents[T.digest.bytes]?) :
    ({ s with access := a, contents := held } : Session).Stands base T m := by
  refine { h with
    cached := fun k x y hk hy => h.cached k x y hk (by rwa [hpeek] at hy)
    stored := fun k x hk b y hb hd => h.stored k x hk b y (hless _ b hb) hd
    closed := fun hc => ?_ }
  obtain ⟨hreturned, hbase, hfound⟩ := h.closed hc
  refine ⟨hreturned, hbase, fun k hk => ?_⟩
  have hne : T ≠ .vacant := by
    rintro rfl
    cases hk
  rw [hanchor hc hne]
  exact hfound k hk

/-! ## Updates -/

/-- An update of a live handle has the outcome that the map has, or fails and leaves the map. -/
theorem Stands.update (h : s.Stands base T m) (hh : s.Honest) (hlive : s.trie.committed = false)
    (version : Version) (key value : ByteArray) :
    s.access.Agrees (s.perform (.update version key value)).access ∧
      ∃ T' m', (s.perform (.update version key value)).Stands base T' m' ∧
        s.trie.Becomes base T version (s.perform (.update version key value)).trie T' ∧
        ((m.update key value = .ok m' ∧
            (s.trie.update version key value s.access).1.1 = .ok ()) ∨
          ∃ e, (s.trie.update version key value s.access).1.1 = .error e ∧ m' = m ∧
            ((∃ r, m.update key value = .error r ∧ e.refusal? = some r) ∨
              ¬ T.Whole s.trie.tree (s.trie.find s.access) ∨ s.access.Doubtful)) := by
  obtain ⟨hreturned, hrep⟩ := h.live hlive
  obtain ⟨ha, T', hbecomes, hcases⟩ := hrep.update (h.backed hh) h.holds version key value
  have hstands : ∀ m', T'.Holds m' → m'.Bounded →
      (s.perform (.update version key value)).Stands base T' m' := by
    intro m' hm' hb'
    have hafter : ({ s with
        access := (s.trie.update version key value s.access).2 } : Session).Stands base T m :=
      h.agrees ha
    refine ⟨hm', hb', hbecomes.represents.compact, ?_, ?_, fun _ => ⟨hreturned, ?_⟩, fun hc => ?_⟩
    · intro k x y hk
      refine hafter.cached k x y ?_
      rwa [← hbecomes.tree]
    · intro k x hk
      refine hafter.stored k x ?_
      rwa [← hbecomes.tree]
    · exact hbecomes.represents
    · rw [show (s.perform (.update version key value)).trie.committed = false from
        hbecomes.represents.live] at hc
      cases hc
  refine ⟨ha, T', ?_⟩
  obtain ⟨m', hm', hok, hT'⟩ | ⟨e, he, rfl, hwhy⟩ := hcases
  · exact ⟨m', hstands m' hT' (h.bounded.update hm'), hbecomes, .inl ⟨hm', hok⟩⟩
  · exact ⟨m, hstands m h.holds h.bounded, hbecomes, .inr ⟨e, he, rfl, hwhy⟩⟩

theorem update_closed (hc : s.trie.committed = true) (version : Version)
    (key value : ByteArray) : s.perform (.update version key value) = s := by
  rw [perform, Trie.update_closed hc]

/-! ## Commits -/

def committedTo (s : Session) (a : Access) (root : Digest) : Session :=
  ⟨s.trie.ended, s.trie.committedTo a root, some root,
    ((s.trie.journal root).batch false).apply s.contents⟩

theorem commit_closed (hc : s.trie.committed = true) : s.commit = s := by
  rw [commit, Trie.commit_closed hc]

theorem Stands.commit_cases (h : s.Stands base T m) (hh : s.Honest)
    (hlive : s.trie.committed = false) :
    (∃ a, s.access.Agrees a ∧ s.commit = { s with access := a } ∧
      (¬ T.Whole s.trie.tree (s.trie.find s.access) ∨ s.access.Doubtful ∨
        s.access.store.plan.writes ≠ none)) ∨
    ∃ a, s.access.Agrees a ∧ s.commit = s.committedTo a T.digest := by
  obtain ⟨e, a, hrun, ha, hwhy⟩ | ⟨a, ha, hrun⟩ := (h.live hlive).2.commit (h.backed hh)
  · exact .inl ⟨a, ha, by rw [commit, hrun], hwhy⟩
  · exact .inr ⟨a, ha, by rw [commit, hrun]; rfl⟩

theorem Stands.committedTo (h : s.Stands base T m) (hh : s.Honest)
    (hlive : s.trie.committed = false) {a : Access} (ha : s.access.Agrees a) :
    (s.committedTo a T.digest).Stands T T m := by
  have hrep := (h.live hlive).2
  have hback := ha.backed (h.backed hh)
  have hm := h.holds.admissible h.bounded
  refine ⟨h.holds, h.bounded, h.compact, ?_, ?_, nofun, fun _ => ⟨rfl, rfl, fun k hk => ?_⟩⟩
  · exact fun k x y hk => hrep.peek_committedTo hback hk
  · exact fun k x hk => hrep.backs_batch hm h.stored hk
  · exact Trie.getElem?_batch_anchor (hrep.root.trans hk)

/-! ## Loading -/

def loadedAs (s : Session) (a : Access) (T : Tree) : Session :=
  { s with trie := Trie.opened s.trie.tree T, access := a, returned := none }

theorem honest_loadedAs {a : Access} (ha : s.access.Agrees a) :
    (s.loadedAs a T).Honest ↔ s.Honest :=
  honest_congr ha rfl

theorem load_agrees (s : Session) (root : Digest) (a : Access) : a.Agrees (s.load root a).2 := by
  unfold load
  rw [run_bind]
  cases hr : Trie.load root a with
  | mk o b =>
    have hb : a.Agrees b := by
      have := Trie.load_agrees root a
      rwa [hr] at this
    cases o with
    | error e => exact hb
    | ok t =>
      simp only
      split
      · cases t.withPrefix s.trie.tree.bytes <;> exact hb
      · exact hb

theorem reopen_agrees (s : Session) :
    s.access.Agrees s.reopen.access ∧ s.reopen.contents = s.contents := by
  unfold reopen
  cases s.returned with
  | none => exact ⟨refl_of Access.Agrees s.access, rfl⟩
  | some root =>
    simp only
    cases hr : s.load root s.access with
    | mk o a =>
      have ha : s.access.Agrees a := by
        have := s.load_agrees root s.access
        rwa [hr] at this
      cases o <;> exact ⟨ha, rfl⟩

theorem withPrefix_empty (tree : TreePrefix) :
    Trie.empty.withPrefix tree.bytes = .ok (Trie.opened tree .vacant) := by
  unfold Trie.withPrefix
  have htree : TreePrefix.ofBytes? tree.bytes = some tree := dif_pos tree.size_le
  rw [htree]
  rfl

/-- The root of a trie without entries stands for the empty trie, whatever has been committed. -/
theorem reopen_placeholder (hr : s.returned = some Digest.placeholder) :
    s.reopen = s.loadedAs s.access .vacant := by
  have hload : s.load Digest.placeholder s.access =
      (.ok (Trie.opened s.trie.tree .vacant), s.access) := by
    unfold load Trie.load
    rw [if_pos rfl, run_bind]
    simp only [run_pure, if_true, withPrefix_empty]
  unfold reopen
  rw [hr]
  simp only [hload]
  rfl

theorem Stands.reopen_cases (h : s.Stands base T m) (hh : s.Honest)
    (hc : s.trie.committed = true) (hne : T.digest ≠ Digest.placeholder) {k : NodeKey} {x : Node}
    (hk : T.key? s.trie.tree [] = some k) (hx : T.node? = some x) :
    (∃ a, s.access.Agrees a ∧ s.reopen = { s with access := a } ∧
      (¬ (s.access.anchor T.digest = .ok k ∧ s.access.stored k = .ok x) ∨ s.access.Doubtful)) ∨
    ∃ a, s.access.Agrees a ∧ s.reopen = s.loadedAs a T ∧ s.access.stored k = .ok x := by
  obtain ⟨hreturned, rfl, hanchored⟩ := h.closed hc
  have hanchor : ∀ j, s.access.anchor base.digest = .ok j → j = k := by
    intro j hj
    obtain ⟨b, hb, hd⟩ := hh.anchor hj
    rw [hanchored k hk] at hb
    cases hb
    rw [NodeKey.decode_encode] at hd
    exact (Except.ok.inj hd).symm
  have hnode : ∀ y, s.access.stored k = .ok y → y = x := by
    intro y hy
    exact (h.backed hh k x (owns_self hk hx)).2 y hy
  obtain ⟨ha, ho⟩ := Trie.load_yields hk hx hne hanchor hnode
  have hload : s.load base.digest s.access = Trie.load base.digest s.access := by
    unfold load
    rw [run_bind]
    cases Trie.load base.digest s.access with
    | mk o a => cases o <;> simp only [if_neg hne, run_pure]
  unfold reopen
  rw [hreturned]
  simp only [hload]
  cases hr : Trie.load base.digest s.access with
  | mk o a =>
    rw [hr] at ha ho
    cases o with
    | error e => exact .inl ⟨a, ha, rfl, ho⟩
    | ok t =>
      obtain ⟨rfl, hstored⟩ := ho
      exact .inr ⟨a, ha, rfl, hstored⟩

theorem Stands.loadedAs (h : s.Stands base T m) (hc : s.trie.committed = true) {a : Access}
    (ha : s.access.Agrees a) : (s.loadedAs a T).Stands T T m := by
  obtain ⟨_, rfl, _⟩ := h.closed hc
  have hafter := h.agrees ha
  exact ⟨h.holds, h.bounded, h.compact, hafter.cached, h.stored,
    fun _ => ⟨rfl, Trie.represents_opened s.trie.tree h.compact⟩, nofun⟩

theorem stands_loadedAs_vacant (s : Session) (a : Access) :
    (s.loadedAs a .vacant).Stands .vacant .vacant ∅ :=
  stands_start s.trie.tree a s.contents

/-! ## Nodes that stay in the store -/

/-- The nodes of the committed tree are in the store; as long as its root waits to be loaded,
nothing is said of the root node, and nothing at all if the root counts as the one without entries.
-/
def Firm (s : Session) (base : Tree) : Prop :=
  ∀ k x, Owns s.trie.tree [] base k x →
    (s.trie.committed = true →
      base.digest ≠ Digest.placeholder ∧ base.key? s.trie.tree [] ≠ some k) →
    s.contents.Keeps k x

theorem Firm.live (h : s.Firm base) (hlive : s.trie.committed = false) {k : NodeKey} {x : Node}
    (hk : Owns s.trie.tree [] base k x) : s.contents.Keeps k x := by
  refine h k x hk fun hc => ?_
  rw [hlive] at hc
  cases hc

theorem firm_vacant (s : Session) : s.Firm .vacant := fun _ _ hk => absurd hk not_owns_vacant

theorem Firm.committedTo (h : s.Firm base) (hstands : s.Stands base T m)
    (hlive : s.trie.committed = false) (hT : T.Spared s.trie.tree) (a : Access) :
    (s.committedTo a T.digest).Firm T := by
  intro k x hk hnot
  obtain ⟨hne, hroot⟩ := hnot rfl
  exact (hstands.live hlive).2.keeps_batch (hstands.holds.admissible hstands.bounded)
    (fun _ _ => h.live hlive) hk (hT hne k x hk hroot)

theorem Firm.loadedAs (h : s.Firm base) (hh : s.Honest) (hne : base.digest ≠ Digest.placeholder)
    {k : NodeKey} {x : Node} (hk : base.key? s.trie.tree [] = some k) (hx : base.node? = some x)
    (hstored : s.access.stored k = .ok x) (a : Access) : (s.loadedAs a base).Firm base := by
  intro j y hj _
  by_cases e : k = j
  · subst e
    rw [hj.unique (owns_self hk hx)]
    exact hh.keeps hstored
  · refine h j y hj fun _ => ⟨hne, ?_⟩
    rw [hk]
    exact fun e' => e (Option.some.inj e')

/-! ## Steps and runs -/

theorem Stands.commit (h : s.Stands base T m) (hh : s.Honest) :
    ∃ base', s.commit.Stands base' T m ∧
      (s.Firm base → (s.trie.committed = false → T.Spared s.trie.tree) → s.commit.Firm base') := by
  cases hc : s.trie.committed with
  | true =>
    rw [commit_closed hc]
    exact ⟨base, h, fun hf _ => hf⟩
  | false =>
    obtain ⟨a, ha, hrun, _⟩ | ⟨a, ha, hrun⟩ := h.commit_cases hh hc
    · rw [hrun]
      exact ⟨base, h.agrees ha, fun hf _ => hf⟩
    · rw [hrun]
      exact ⟨T, h.committedTo hh hc ha, fun hf hT => hf.committedTo h hc (hT rfl) a⟩

theorem Stands.reopen (h : s.Stands base T m) (hh : s.Honest) :
    ∃ base' T' m', s.reopen.Stands base' T' m' ∧ (s.Firm base → s.reopen.Firm base') := by
  cases hc : s.trie.committed with
  | false =>
    have hrun : s.reopen = s := by
      rw [Session.reopen, (h.live hc).1]
    rw [hrun]
    exact ⟨base, T, m, h, id⟩
  | true =>
    obtain ⟨hreturned, rfl, _⟩ := h.closed hc
    by_cases hne : base.digest = Digest.placeholder
    · rw [hne] at hreturned
      rw [reopen_placeholder hreturned]
      exact ⟨.vacant, .vacant, ∅, stands_loadedAs_vacant s s.access, fun _ => firm_vacant _⟩
    · obtain ⟨x, hx⟩ := exists_node?_of_digest hne
      obtain ⟨k, hk⟩ := key?_of_node? hx s.trie.tree []
      obtain ⟨a, ha, hrun, _⟩ | ⟨a, ha, hrun, hstored⟩ := h.reopen_cases hh hc hne hk hx
      · rw [hrun]
        exact ⟨base, base, m, h.agrees ha, id⟩
      · rw [hrun]
        exact ⟨base, base, m, h.loadedAs hc ha, fun hf => hf.loadedAs hh hne hk hx hstored a⟩

/-- What one step preserves, whether it succeeds or fails. -/
theorem Stands.perform (h : s.Stands base T m) (hh : s.Honest) (action : Action)
    (hh' : (s.perform action).Honest) :
    ∃ base' T' m', (s.perform action).Stands base' T' m' ∧
      (s.Firm base → (action = .commit → s.trie.committed = false → T.Spared s.trie.tree) →
        (s.perform action).Firm base') := by
  cases action with
  | update version key value =>
    cases hc : s.trie.committed with
    | true =>
      rw [update_closed hc]
      exact ⟨base, T, m, h, fun hf _ => hf⟩
    | false =>
      obtain ⟨_, T', m', hstands, hbecomes, _⟩ := h.update hh hc version key value
      refine ⟨base, T', m', hstands, fun hf _ k x hk _ => ?_⟩
      rw [hbecomes.tree] at hk
      exact hf.live hc hk
  | commit =>
    have hcommit : s.commit.Honest :=
      (honest_congr s.commit.reopen_agrees.1 s.commit.reopen_agrees.2).mp hh'
    obtain ⟨base₁, hstands₁, hfirm₁⟩ := h.commit hh
    obtain ⟨base₂, T₂, m₂, hstands₂, hfirm₂⟩ := hstands₁.reopen hcommit
    exact ⟨base₂, T₂, m₂, hstands₂, fun hf hT => hfirm₂ (hfirm₁ hf (hT rfl))⟩

theorem run_append (s : Session) (pre : List Action) (action : Action) :
    s.run (pre ++ [action]) = (s.run pre).perform action := by
  rw [run, run, List.foldl_append]
  rfl

/-- At every point of a run. -/
def Throughout (P : Session → Prop) (s : Session) (actions : List Action) : Prop :=
  Always perform P s actions

/-- Wherever a run commits. -/
def AtCommits (P : Session → Prop) (s : Session) (actions : List Action) : Prop :=
  AtEach perform (fun s action => action = .commit → P s) s actions

section Run

variable {tree : TreePrefix} {a : Access} {c : Contents} {actions : List Action}

/-- What a whole run preserves. -/
theorem stands_run (hh : (start tree a c).Throughout Honest actions) :
    ∀ pre, pre <+: actions → ∃ base T m, ((start tree a c).run pre).Stands base T m := by
  refine always_of (P := fun s : Session => ∃ base T m, s.Stands base T m)
    ⟨.vacant, .vacant, ∅, stands_start tree a c⟩ ?_
  rintro pre action hpre ⟨base, T, m, h⟩
  obtain ⟨hbefore, hafter⟩ := hh.around hpre
  obtain ⟨base', T', m', h', _⟩ := h.perform hbefore action hafter
  exact ⟨base', T', m', h'⟩

/-! ## Properties of the access

Reading, and writing what a commit writes, is all that happens to an access. -/

variable {P : Session → Prop}

theorem Stands.perform_of (hs : s.Stands base T m) (hh : s.Honest)
    (hagrees : ∀ s s', P s → s.access.Agrees s'.access → s'.contents = s.contents → P s')
    (hcommit : ∀ s b root, P s → s.access.Agrees b → P (s.committedTo b root)) (h : P s)
    (action : Action) : P (s.perform action) := by
  cases action with
  | update version key value =>
    cases hc : s.trie.committed with
    | true => rwa [update_closed hc]
    | false => exact hagrees s _ h (hs.update hh hc version key value).1 rfl
  | commit =>
    refine hagrees s.commit _ ?_ s.commit.reopen_agrees.1 s.commit.reopen_agrees.2
    cases hc : s.trie.committed with
    | true => rwa [commit_closed hc]
    | false =>
      obtain ⟨b, hb, hrun, _⟩ | ⟨b, hb, hrun⟩ := hs.commit_cases hh hc
      · rw [hrun]
        exact hagrees s _ h hb rfl
      · rw [hrun]
        exact hcommit s b _ h hb

theorem run_of (hagrees : ∀ s s', P s → s.access.Agrees s'.access → s'.contents = s.contents → P s')
    (hcommit : ∀ s b root, P s → s.access.Agrees b → P (s.committedTo b root))
    (hstart : P (start tree a c))
    (hh : (start tree a c).Throughout (fun s => P s → s.Honest) actions) :
    (start tree a c).Throughout (fun s => P s ∧ ∃ base T m, s.Stands base T m) actions := by
  refine always_of ⟨hstart, .vacant, .vacant, ∅, stands_start tree a c⟩ ?_
  rintro pre action hpre ⟨h, base, T, m, hs⟩
  obtain ⟨hbefore, hafter⟩ := hh.around hpre
  have h' := hs.perform_of (hbefore h) hagrees hcommit h action
  obtain ⟨base', T', m', hs', _⟩ := hs.perform (hbefore h) action (hafter h')
  exact ⟨h', base', T', m', hs'⟩

def InMemory (s : Session) : Prop := s.access.store.medium = .memory s.contents

theorem InMemory.served (h : s.InMemory) : s.Served := by
  intro b
  rw [Access.lookup, Store.lookup, h]

theorem inMemory_committedTo {s : Session} {b : Access} (h : s.InMemory) (hb : s.access.Agrees b)
    (root : Digest) : (s.committedTo b root).InMemory := by
  have hmedium : b.writeOnce.store.medium = .memory s.contents := hb.medium.trans h
  show (b.writeOnce.store.write _ _).1.medium = _
  rw [Store.write, hmedium]
  rfl

theorem served_inMemory (ha : a.store.medium = .memory c) (actions : List Action) :
    (start tree a c).Throughout Served actions := by
  intro pre hpre
  refine InMemory.served (run_of (P := InMemory) (fun s s' h hr hc => ?_)
    (fun s b root h hb => inMemory_committedTo h hb root) ha (fun _ _ h => h.served.honest) pre
    hpre).1
  rw [InMemory, hr.medium, h, hc]

theorem faultless_run (ha : a.store.plan = FaultPlan.none)
    (hh : (start tree a c).Throughout Honest actions) :
    (start tree a c).Throughout Faultless actions := fun pre hpre =>
  (run_of (P := Faultless) (fun _ _ h hr _ => hr.faultless h)
    (fun _ _ _ h hb => Trie.faultless_committedTo (hb.faultless h)) ha
    (fun p hp _ => hh p hp) pre hpre).1

theorem uncached_run (ha : a.cache = none) (hh : (start tree a c).Throughout Honest actions) :
    (start tree a c).Throughout (fun s => s.access.cache = none) actions := fun pre hpre =>
  (run_of (P := fun s => s.access.cache = none) (fun _ _ h hr _ => hr.uncached h)
    (fun _ _ _ h hb => Trie.uncached_committedTo (hb.uncached h)) ha
    (fun p hp _ => hh p hp) pre hpre).1

end Run

end Session

end VersionedTrie
