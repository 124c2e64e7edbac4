import VersionedTrie.Proofs.Commit
import VersionedTrie.Proofs.Run

/-! # Many handles on one store

A hub is a store with the handles that are open on it and the journals of the commits made so far,
the first one first. Handles take turns in any order: one is opened, for an empty trie or for the
root of any commit, asked, updated or committed, or the deletes of some journal are applied. Every
turn has the faults planned for it and may go through one of several node caches.

Beside the store the hub keeps account of what has been written to it, and beside every handle and
every commit, of the entries that it should have: a handle begins with those of the commit that is
loaded, and an update that is reported to have been made changes them.

What a turn makes of a hub is said once (`Hub.Makes`): all but a successful commit and the deletes of
a journal leave the store and the caches as they were.
-/

set_option autoImplicit false

namespace VersionedTrie

inductive Question where
  | value (key : ByteArray)
  | proof (key : ByteArray)
  | root

inductive Answer where
  | value (found : Option ByteArray)
  | proof (p : Inclusion)
  | root (d : Digest)

def Trie.answer (t : Trie) : Question → AccessM Answer
  | .value key => do pure (.value (← t.get key))
  | .proof key => do pure (.proof (← t.prove key))
  | .root => do pure (.root (← t.rootDigest))

theorem Trie.preserves_answer (t : Trie) (question : Question) :
    Preserves Access.Reads (t.answer question) := by
  cases question with
  | value key => exact (t.preserves_get key).bind fun _ => preserves_pure _
  | proof key => exact (t.preserves_prove key).bind fun _ => preserves_pure _
  | root => exact t.preserves_rootDigest.bind fun _ => preserves_pure _

/-- Handles and commits are counted from the first, which is 0. -/
inductive Deed where
  | create (tree : TreePrefix)
  | load (commit : Nat)
  | ask (handle : Nat) (question : Question)
  | update (handle : Nat) (version : Version) (key value : ByteArray)
  | commit (handle : Nat)
  /-- Applies the deletes of a commit's journal. -/
  | prune (commit : Nat)

/-- The handle whose turn it is; opening and pruning are no handle's. -/
def Deed.handle? : Deed → Option Nat
  | .ask i _ => some i
  | .update i _ _ _ => some i
  | .commit i => some i
  | _ => none

structure Turn where
  /-- Which of the reads and batches of this turn fail. -/
  plan : FaultPlan
  /-- The node cache that this turn goes through, if any. -/
  cache : Option Nat
  deed : Deed

inductive Report where
  | opened
  | answered (a : Answer)
  | updated
  | committed (j : Journal)
  | pruned (count : Nat)

structure Hub where
  volume : Volume
  store : Store
  caches : Nat → NodeCache
  /-- The handles, each with the entries that it should have. -/
  handles : List (Trie × Entries)
  /-- The journals of the commits, each with the entries that were committed. -/
  commits : List (Journal × Entries)
  /-- What the store should have: what was there, and what has been written and deleted. -/
  contents : Contents

namespace Hub

def start (volume : Volume) (store : Store) (capacity : Nat → Nat) (contents : Contents) : Hub :=
  ⟨volume, store, fun n => .ofCapacity (capacity n), [], [], contents⟩

def access (h : Hub) (plan : FaultPlan) (cache : Option Nat) : Access :=
  ⟨h.volume, { h.store with plan }, cache.map h.caches⟩

/-- The hub with what an action has left of its access. -/
def settle (h : Hub) (cache : Option Nat) (a : Access) : Hub :=
  { h with
    volume := a.volume
    store := a.store
    caches :=
      match cache, a.cache with
      | some n, some c => Function.update h.caches n c
      | _, _ => h.caches }

def enroll (h : Hub) (t : Trie) (m : Entries) : Hub :=
  { h with handles := h.handles ++ [(t, m)] }

def replace (h : Hub) (i : Nat) (t : Trie) (m : Entries) : Hub :=
  { h with handles := h.handles.set i (t, m) }

def record (h : Hub) (j : Journal) (m : Entries) : Hub :=
  { h with commits := h.commits ++ [(j, m)], contents := (j.batch false).apply h.contents }

def journals (h : Hub) : List Journal := h.commits.map Prod.fst

/-- What is reported of a turn, and the hub after it; nothing is reported of a turn on a handle or a
commit that does not exist. -/
def perform (h : Hub) (turn : Turn) : Option (Except Error Report) × Hub :=
  let a := h.access turn.plan turn.cache
  match turn.deed with
  | .create tree => (some (.ok .opened), h.enroll { Trie.empty with tree } ∅)
  | .load n =>
    match h.commits[n]? with
    | none => (none, h)
    | some (j, m) =>
      match Trie.load j.root a with
      | (.ok t, a) => (some (.ok .opened), (h.settle turn.cache a).enroll t m)
      | (.error e, a) => (some (.error e), h.settle turn.cache a)
  | .ask i question =>
    match h.handles[i]? with
    | none => (none, h)
    | some (t, _) =>
      match t.answer question a with
      | (r, a) => (some (r.map .answered), h.settle turn.cache a)
  | .update i version key value =>
    match h.handles[i]? with
    | none => (none, h)
    | some (t, m) =>
      match t.update version key value a with
      | ((r, t), a) =>
        (some (r.map fun _ => .updated),
          (h.settle turn.cache a).replace i t (m.reported key value r))
  | .commit i =>
    match h.handles[i]? with
    | none => (none, h)
    | some (t, m) =>
      match t.commit a with
      | (.ok (j, t), a) =>
        (some (.ok (.committed j)), ((h.settle turn.cache a).replace i t m).record j m)
      | (.error e, a) => (some (.error e), h.settle turn.cache a)
  | .prune n =>
    match h.commits[n]? with
    | none => (none, h)
    | some (j, _) =>
      match j.prune a with
      | (.ok count, a) =>
        (some (.ok (.pruned count)),
          { h.settle turn.cache a with contents := j.deletes.apply h.contents })
      | (.error e, a) => (some (.error e), h.settle turn.cache a)

def told (h : Hub) (turn : Turn) : Option (Except Error Report) := (h.perform turn).1

def after (h : Hub) (turn : Turn) : Hub := (h.perform turn).2

def run (h : Hub) (turns : List Turn) : Hub := turns.foldl after h

/-- At every point of a run. -/
def Throughout (h : Hub) (P : Hub → Prop) (turns : List Turn) : Prop := Always after P h turns

/-- The store answers, with what it should have. -/
def Served (h : Hub) : Prop := ∀ b, h.store.lookup h.volume b = .ok h.contents[b]?

theorem run_append (h : Hub) (pre post : List Turn) : h.run (pre ++ post) = (h.run pre).run post :=
  List.foldl_append

/-! ## Turns of a handle -/

section Own

variable {h : Hub} {i : Nat} {t : Trie} {m : Entries} {plan : FaultPlan} {cache : Option Nat}

theorem perform_absent (hi : h.handles[i]? = none) {turn : Turn}
    (hturn : turn.deed.handle? = some i) :
    h.perform turn = (none, h) := by
  obtain ⟨plan, cache, deed⟩ := turn
  cases deed <;> cases hturn <;> (unfold perform; simp only [hi])

theorem perform_ask (ht : h.handles[i]? = some (t, m)) (question : Question) :
    h.perform ⟨plan, cache, .ask i question⟩ =
      (some ((t.answer question (h.access plan cache)).1.map .answered),
        h.settle cache (t.answer question (h.access plan cache)).2) := by
  unfold perform
  simp only [ht]
  rfl

theorem perform_update (ht : h.handles[i]? = some (t, m)) (version : Version)
    (key value : ByteArray) :
    h.perform ⟨plan, cache, .update i version key value⟩ =
      (some ((t.update version key value (h.access plan cache)).1.1.map fun _ => .updated),
        (h.settle cache (t.update version key value (h.access plan cache)).2).replace i
          (t.update version key value (h.access plan cache)).1.2
          (m.reported key value (t.update version key value (h.access plan cache)).1.1)) := by
  unfold perform
  simp only [ht]
  rfl

theorem perform_commit_ok (ht : h.handles[i]? = some (t, m)) {j : Journal} {t' : Trie} {a : Access}
    (hrun : t.commit (h.access plan cache) = (.ok (j, t'), a)) :
    h.perform ⟨plan, cache, .commit i⟩ =
      (some (.ok (.committed j)), ((h.settle cache a).replace i t' m).record j m) := by
  unfold perform
  simp only [ht, hrun]

theorem perform_commit_error (ht : h.handles[i]? = some (t, m)) {e : Error} {a : Access}
    (hrun : t.commit (h.access plan cache) = (.error e, a)) :
    h.perform ⟨plan, cache, .commit i⟩ = (some (.error e), h.settle cache a) := by
  unfold perform
  simp only [ht, hrun]

end Own

/-! ## What a turn makes of a hub -/

/-- The second hub is the first one after some reading, whatever handles there are. -/
structure Reads (h h' : Hub) : Prop where
  volume : h'.volume = h.volume
  medium : h'.store.medium = h.store.medium
  cached : ∀ n (k : NodeKey), (h'.caches n).node? (k.version, k) = (h.caches n).node? (k.version, k)
  commits : h'.commits = h.commits
  contents : h'.contents = h.contents

/-- The handle that is opened on a turn, with its entries. -/
def Opens (h : Hub) (turn : Turn) (t : Trie) (m : Entries) : Prop :=
  (∃ tree, turn.deed = .create tree ∧ t = { Trie.empty with tree } ∧ m = ∅) ∨
    ∃ n j, turn.deed = .load n ∧ h.commits[n]? = some (j, m) ∧
      (Trie.load j.root (h.access turn.plan turn.cache)).1 = .ok t

inductive Makes (h : Hub) (turn : Turn) : Hub → Prop
  | reads {h' : Hub} (hr : h.Reads h') (hh : h'.handles = h.handles) : Makes h turn h'
  | opens {h' : Hub} {t : Trie} {m : Entries} (ht : h.Opens turn t m) (hr : h.Reads h')
    (hh : h'.handles = h.handles ++ [(t, m)]) : Makes h turn h'
  | updates {h' : Hub} {i : Nat} {t : Trie} {m : Entries} {version : Version}
    {key value : ByteArray} (hd : turn.deed = .update i version key value)
    (ht : h.handles[i]? = some (t, m)) (hr : h.Reads h')
    (hh : h'.handles = h.handles.set i
      ((t.update version key value (h.access turn.plan turn.cache)).1.2,
        m.reported key value (t.update version key value (h.access turn.plan turn.cache)).1.1)) :
    Makes h turn h'
  | commits {i : Nat} {t : Trie} {m : Entries} {root : Digest} {b : Access}
    (hd : turn.deed = .commit i) (ht : h.handles[i]? = some (t, m))
    (hroot : t.rootDigest (h.access turn.plan turn.cache) = (.ok root, b))
    (hb : (h.access turn.plan turn.cache).Agrees b)
    (hj : h.told turn = some (.ok (.committed (t.journal root)))) :
    Makes h turn
      (((h.settle turn.cache (t.committedTo b root)).replace i t.ended m).record (t.journal root) m)
  | prunes {n : Nat} {j : Journal} {m : Entries} {b : Access} (hd : turn.deed = .prune n)
    (hj : h.commits[n]? = some (j, m)) (hb : (h.access turn.plan turn.cache).Agrees b)
    (hcount : h.told turn = some (.ok (.pruned j.superseded.size))) :
    Makes h turn
      { h.settle turn.cache (b.written j.deletes) with contents := j.deletes.apply h.contents }

variable {h h' : Hub} {turn : Turn} {a : Access}

theorem reads_refl (h : Hub) : h.Reads h := ⟨rfl, rfl, fun _ _ => rfl, rfl, rfl⟩

theorem Reads.enroll (hr : h.Reads h') (t : Trie) (m : Entries) : h.Reads (h'.enroll t m) :=
  ⟨hr.volume, hr.medium, hr.cached, hr.commits, hr.contents⟩

theorem Reads.replace (hr : h.Reads h') (i : Nat) (t : Trie) (m : Entries) :
    h.Reads (h'.replace i t m) :=
  ⟨hr.volume, hr.medium, hr.cached, hr.commits, hr.contents⟩

/-- What a cache holds after an action on the access of a turn. -/
theorem node?_settle (cache : Option Nat) {plan : FaultPlan} {P : NodeCache → Prop} {n : Nat}
    (hc : a.cache.isSome = (h.access plan cache).cache.isSome)
    (hn : cache ≠ some n → P (h.caches n))
    (ha : cache = some n → ∀ c, a.cache = some c → P c) : P ((h.settle cache a).caches n) := by
  cases cache with
  | none => exact hn nofun
  | some m =>
    obtain ⟨volume, store, cache⟩ := a
    cases cache with
    | none => cases hc
    | some c =>
      show P (Function.update h.caches m c n)
      by_cases e : n = m
      · subst e
        rw [Function.update_self]
        exact ha rfl c rfl
      · rw [Function.update_of_ne e]
        exact hn fun e' => e (Option.some.inj e').symm

theorem reads_settle {plan : FaultPlan} {cache : Option Nat}
    (ha : (h.access plan cache).Agrees a) : h.Reads (h.settle cache a) := by
  refine ⟨ha.volume, ha.medium, fun n k => ?_, rfl, rfl⟩
  refine node?_settle (P := fun c => c.node? (k.version, k) = (h.caches n).node? (k.version, k))
    cache ha.cached (fun _ => rfl) ?_
  rintro rfl c hc
  have hpeek := ha.peek k
  rw [Access.peek, hc] at hpeek
  exact hpeek

theorem makes_after (h : Hub) (turn : Turn) : h.Makes turn (h.after turn) := by
  obtain ⟨plan, cache, deed⟩ := turn
  cases deed with
  | create tree => exact .opens (.inl ⟨tree, rfl, rfl, rfl⟩) (h.reads_refl.enroll _ _) rfl
  | load n =>
    unfold after perform
    simp only
    cases hj : h.commits[n]? with
    | none => exact .reads h.reads_refl rfl
    | some r =>
      obtain ⟨j, m⟩ := r
      have hread := (Trie.preserves_load j.root (h.access plan cache)).agrees
      simp only
      cases hr : Trie.load j.root (h.access plan cache) with
      | mk o a =>
        rw [hr] at hread
        cases o with
        | error e => exact .reads (reads_settle hread) rfl
        | ok t =>
          exact .opens (.inr ⟨n, j, rfl, hj, by rw [hr]⟩) ((reads_settle hread).enroll t m) rfl
  | ask i question =>
    cases ht : h.handles[i]? with
    | none =>
      rw [after, perform_absent ht rfl]
      exact .reads h.reads_refl rfl
    | some r =>
      rw [after, perform_ask ht]
      exact .reads (reads_settle (r.1.preserves_answer question _).agrees) rfl
  | update i version key value =>
    cases ht : h.handles[i]? with
    | none =>
      rw [after, perform_absent ht rfl]
      exact .reads h.reads_refl rfl
    | some r =>
      have hread := (reads_update r.1 version key value (h.access plan cache)).agrees
      rw [after, perform_update ht]
      exact .updates rfl ht ((reads_settle hread).replace i _ _) rfl
  | commit i =>
    cases ht : h.handles[i]? with
    | none =>
      rw [after, perform_absent ht rfl]
      exact .reads h.reads_refl rfl
    | some r =>
      obtain ⟨t, m⟩ := r
      obtain ⟨e, b, hrun, hb, _⟩ | ⟨root, b, hroot, hb, _, hrun⟩ :=
        t.commit_cases (h.access plan cache)
      · rw [after, perform_commit_error ht hrun]
        exact .reads (reads_settle hb) rfl
      · rw [after, perform_commit_ok ht hrun]
        exact .commits rfl ht hroot hb (congrArg Prod.fst (perform_commit_ok ht hrun))
  | prune n =>
    unfold after perform
    simp only
    cases hj : h.commits[n]? with
    | none => exact .reads h.reads_refl rfl
    | some r =>
      obtain ⟨j, m⟩ := r
      obtain ⟨e, b, hrun, hb⟩ | ⟨hnone, hrun⟩ | ⟨b, hb, hrun⟩ := j.prune_cases (h.access plan cache)
      · simp only [hrun]
        exact .reads (reads_settle hb) rfl
      · simp only [hrun, hnone]
        exact .reads (reads_settle (refl_of Access.Agrees _)) rfl
      · have htold : h.told ⟨plan, cache, .prune n⟩ = some (.ok (.pruned j.superseded.size)) := by
          unfold told perform
          simp only [hj, hrun]
        simp only [hrun]
        exact .prunes rfl hj hb htold

/-- The journal that a turn adds, if it does, is that of some handle. -/
theorem commits_after (h : Hub) (turn : Turn) :
    (h.after turn).commits = h.commits ∨
      ∃ (t : Trie) (root : Digest) (m : Entries),
        (h.after turn).commits = h.commits ++ [(t.journal root, m)] := by
  have hmakes := h.makes_after turn
  generalize h.after turn = h' at hmakes
  cases hmakes with
  | reads hr => exact .inl hr.commits
  | opens _ hr => exact .inl hr.commits
  | updates _ _ hr => exact .inl hr.commits
  | @commits i t m root => exact .inr ⟨t, root, m, rfl⟩
  | prunes => exact .inl rfl

/-- Commits are never forgotten. -/
theorem commits_kept (h : Hub) (turns : List Turn) : h.commits <+: (h.run turns).commits := by
  induction turns generalizing h with
  | nil => exact List.prefix_rfl
  | cons turn turns ih =>
    refine List.IsPrefix.trans ?_ (ih (h.after turn))
    obtain hc | ⟨t, root, m, hc⟩ := h.commits_after turn
    · exact ⟨[], by rw [List.append_nil, hc]⟩
    · exact ⟨[(t.journal root, m)], hc.symm⟩

theorem journals_subset (h : Hub) (turns : List Turn) : h.journals ⊆ (h.run turns).journals :=
  List.map_subset Prod.fst (h.commits_kept turns).subset

theorem journals_run_subset {pre turns : List Turn} (hpre : pre <+: turns) :
    (h.run pre).journals ⊆ (h.run turns).journals := by
  obtain ⟨post, rfl⟩ := hpre
  rw [run_append]
  exact journals_subset _ post

/-! ## Stores in memory -/

def InMemory (h : Hub) : Prop := h.store.medium = .memory h.contents

theorem InMemory.served (hm : h.InMemory) : h.Served := by
  intro b
  rw [Store.lookup, hm]

theorem medium_written {c : Contents} (ha : a.store.medium = .memory c) (batch : WriteBatch) :
    (a.written batch).store.medium = .memory (batch.apply c) := by
  show (a.store.write batch a.volume).1.medium = _
  rw [Store.write, ha]

theorem InMemory.after (hm : h.InMemory) (turn : Turn) : (h.after turn).InMemory := by
  have hmakes := h.makes_after turn
  generalize h.after turn = h' at hmakes
  cases hmakes with
  | reads hr => exact (hr.medium.trans hm).trans (congrArg Medium.memory hr.contents.symm)
  | opens _ hr => exact (hr.medium.trans hm).trans (congrArg Medium.memory hr.contents.symm)
  | updates _ _ hr => exact (hr.medium.trans hm).trans (congrArg Medium.memory hr.contents.symm)
  | @commits i t m root b _ _ _ hb _ =>
    exact medium_written (a := b.writeOnce) (hb.medium.trans hm) ((t.journal root).batch false)
  | @prunes n j m b _ _ hb _ => exact medium_written (a := b) (hb.medium.trans hm) j.deletes

/-- A store in memory always answers, with what it should have. -/
theorem served_inMemory (hm : h.InMemory) (turns : List Turn) : h.Throughout Served turns :=
  fun pre _ => InMemory.served (foldl_induction (Q := fun _ (h : Hub) => h.InMemory) hm
    (fun _ turn _ hm => hm.after turn) pre List.prefix_rfl)

/-- An empty store in memory, on which no handle is open. -/
def blank : Hub := start default default (fun _ => 8) ∅

theorem served_blank (turns : List Turn) : blank.Throughout Served turns :=
  served_inMemory (h := blank) rfl turns

end Hub

end VersionedTrie
