import VersionedTrie.Proofs.Session

/-! # Histories that are pruned

A lineage is a session that keeps account of its commits: their journals, the entries that each
commit had, and the commits whose deletes have been applied. Beside updating, committing and loading
the root that was returned, a move may apply the deletes of any earlier commit, in any order and at
any time.
-/

set_option autoImplicit false

namespace VersionedTrie

inductive Move where
  | update (version : Version) (key value : ByteArray)
  | commit
  /-- Loads the root that the last commit has returned. -/
  | reopen
  /-- Applies the deletes of a commit's journal; commits are counted from the first, which is 0. -/
  | prune (commit : Nat)

structure Lineage where
  session : Session
  /-- The entries that the handle should have. -/
  entries : Entries
  /-- The journals of the commits, each with the entries that were committed. -/
  commits : List (Journal × Entries)
  /-- The commits whose deletes have been applied. -/
  pruned : List Nat

namespace Lineage

def start (tree : TreePrefix) (a : Access) : Lineage := ⟨Session.start tree a ∅, ∅, [], []⟩

def journals (l : Lineage) : List Journal := l.commits.map Prod.fst

def perform (l : Lineage) : Move → Lineage
  | .update version key value =>
    { l with
      session := l.session.perform (.update version key value)
      entries := l.entries.reported key value
        (l.session.trie.update version key value l.session.access).1.1 }
  | .commit =>
    { l with
      session := l.session.commit
      commits :=
        match (l.session.trie.commit l.session.access).1 with
        | .ok (j, _) => l.commits ++ [(j, l.entries)]
        | .error _ => l.commits }
  | .reopen => { l with session := l.session.reopen }
  | .prune n =>
    match l.commits[n]? with
    | none => l
    | some (j, _) =>
      match j.prune l.session.access with
      | (.ok _, access) =>
        { l with
          session := { l.session with access, contents := j.deletes.apply l.session.contents }
          pruned := n :: l.pruned }
      | (.error _, access) => { l with session := { l.session with access } }

def run (l : Lineage) (moves : List Move) : Lineage := moves.foldl perform l

/-- At every point of a run. -/
def Throughout (l : Lineage) (P : Lineage → Prop) (moves : List Move) : Prop :=
  Always perform P l moves

/-- The store answers, with what it should have. -/
def Served (l : Lineage) : Prop := l.session.Served

/-- An update must be at a higher version than all that has been written before. -/
def Admits (l : Lineage) : Move → Prop
  | .update version _ _ => ∀ c, c ∈ l.commits → ∀ r, r ∈ c.1.written → r.1.version < version
  | _ => True

instance (l : Lineage) (move : Move) : Decidable (l.Admits move) :=
  match move with
  | .update version _ _ => inferInstanceAs (Decidable (∀ c, c ∈ l.commits →
      ∀ r, r ∈ c.1.written → r.1.version < version))
  | .commit => isTrue trivial
  | .reopen => isTrue trivial
  | .prune _ => isTrue trivial

def Rising (l : Lineage) (moves : List Move) : Prop := AtEach perform Admits l moves

instance (l : Lineage) (moves : List Move) : Decidable (l.Rising moves) :=
  inferInstanceAs (Decidable (AtEach perform Admits l moves))

/-- The lineage with another session that stands where the old one did. -/
def settle (l : Lineage) (a : Access) : Lineage :=
  { l with session := { l.session with access := a } }

def record (l : Lineage) (a : Access) (root : Digest) : Lineage :=
  { l with
    session := l.session.committedTo a root
    commits := l.commits ++ [(l.session.trie.journal root, l.entries)] }

def clear (l : Lineage) (n : Nat) (j : Journal) (a : Access) : Lineage :=
  { l with
    session := { l.session with access := a, contents := j.deletes.apply l.session.contents }
    pruned := n :: l.pruned }

variable {l : Lineage}

/-! ## What a move makes of a lineage -/

/-- A commit fails and has only read, or it writes what the handle has. -/
theorem perform_commit (l : Lineage) :
    (∃ a, l.session.access.Agrees a ∧ l.perform .commit = l.settle a) ∨
      ∃ root a, (l.session.trie.rootDigest l.session.access).1 = .ok root ∧
        l.session.access.Agrees a ∧ l.perform .commit = l.record a root := by
  obtain ⟨e, a, hrun, ha, _⟩ | ⟨root, a, hroot, ha, _, hrun⟩ :=
    l.session.trie.commit_cases l.session.access
  · refine .inl ⟨a, ha, ?_⟩
    rw [perform, Session.commit, hrun]
    rfl
  · refine .inr ⟨root, a, by rw [hroot], ha, ?_⟩
    rw [perform, Session.commit, hrun]
    rfl

theorem perform_prune (l : Lineage) (n : Nat) :
    (∃ a, l.session.access.Agrees a ∧ l.perform (.prune n) = l.settle a) ∨
      ∃ j m a, l.commits[n]? = some (j, m) ∧ (∀ k, a.peek k = l.session.access.peek k) ∧
        (∀ c, l.session.access.store.medium = .memory c →
          a.store.medium = .memory (j.deletes.apply c)) ∧
        l.perform (.prune n) = l.clear n j a := by
  cases hj : l.commits[n]? with
  | none =>
    refine .inl ⟨l.session.access, refl_of Access.Agrees _, ?_⟩
    simp only [perform, hj]
    rfl
  | some r =>
    obtain ⟨j, m⟩ := r
    obtain ⟨e, a, hrun, ha⟩ | ⟨hnone, hrun⟩ | ⟨a, ha, hrun⟩ := j.prune_cases l.session.access
    · refine .inl ⟨a, ha, ?_⟩
      simp only [perform, hj, hrun]
      rfl
    · refine .inr ⟨j, m, l.session.access, rfl, fun _ => rfl, fun c hc => ?_, ?_⟩
      · rw [hnone, hc]
        rfl
      · simp only [perform, hj, hrun]
        rfl
    · refine .inr ⟨j, m, a.written j.deletes, rfl, fun k => ?_, fun c hc => ?_, ?_⟩
      · exact ha.peek k
      · rw [← ha.medium] at hc
        show (a.store.write j.deletes a.volume).1.medium = _
        rw [Store.write, hc]
      · simp only [perform, hj, hrun]
        rfl

theorem commits_perform (l : Lineage) (move : Move) : l.commits <+: (l.perform move).commits := by
  cases move with
  | update | reopen => exact List.prefix_rfl
  | commit =>
    obtain ⟨a, _, hrun⟩ | ⟨root, a, _, _, hrun⟩ := l.perform_commit
    · rw [hrun]
      exact List.prefix_rfl
    · rw [hrun]
      exact List.prefix_append _ _
  | prune n =>
    obtain ⟨a, _, hrun⟩ | ⟨j, m, a, _, _, _, hrun⟩ := l.perform_prune n
    · rw [hrun]
      exact List.prefix_rfl
    · rw [hrun]
      exact List.prefix_rfl

/-- Commits are never forgotten. -/
theorem commits_kept (l : Lineage) (moves : List Move) : l.commits <+: (l.run moves).commits := by
  induction moves generalizing l with
  | nil => exact List.prefix_rfl
  | cons move moves ih => exact (l.commits_perform move).trans (ih (l.perform move))

theorem run_append (l : Lineage) (pre post : List Move) :
    l.run (pre ++ post) = (l.run pre).run post := List.foldl_append

/-! ## Stores in memory -/

def InMemory (l : Lineage) : Prop := l.session.InMemory

theorem InMemory.settle (h : l.InMemory) {a : Access} (ha : l.session.access.Agrees a) :
    (l.settle a).InMemory := ha.medium.trans h

theorem InMemory.perform (h : l.InMemory) (move : Move) : (l.perform move).InMemory := by
  cases move with
  | update version key value =>
    exact (reads_update l.session.trie version key value _).agrees.medium.trans h
  | commit =>
    obtain ⟨a, ha, hrun⟩ | ⟨root, a, _, ha, hrun⟩ := l.perform_commit
    · rw [hrun]
      exact h.settle ha
    · rw [hrun]
      exact Session.inMemory_committedTo h ha root
  | reopen =>
    obtain ⟨ha, hc⟩ := l.session.reopen_agrees
    exact (ha.medium.trans h).trans (congrArg Medium.memory hc.symm)
  | prune n =>
    obtain ⟨a, ha, hrun⟩ | ⟨j, m, a, _, _, hmedium, hrun⟩ := l.perform_prune n
    · rw [hrun]
      exact h.settle ha
    · rw [hrun]
      exact hmedium _ h

theorem served_inMemory {tree : TreePrefix} {a : Access} (ha : a.store.medium = .memory ∅)
    (moves : List Move) : (start tree a).Throughout Served moves := by
  have hstart : (start tree a).InMemory := ha
  exact fun pre _ => Session.InMemory.served (foldl_induction
    (Q := fun _ (l : Lineage) => l.InMemory) hstart (fun _ move _ h => h.perform move) pre
    List.prefix_rfl)

end Lineage

end VersionedTrie
