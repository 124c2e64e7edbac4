import VersionedTrie.Proofs.Traversal.Frontier
import VersionedTrie.Proofs.ReadOnly

/-! # Traversals under way

Worker, consumer and clock act on a traversal in any order, and so do requests to stop it: a sweep
is a traversal with what it reads through and what the consumer has received so far. What the worker
can do in a step is said once (`Traversal.Works`).

The invariant of sweeps over nodes, `Sweep.Covers`, keeps the list of the nodes visited: what is
pending is their frontier (`Covers.bounds`), and they have been emitted in the order of the visits.
So a sweep that is completed has visited what is reached from the root, and what has been received
of it are these nodes.
-/

set_option autoImplicit false

namespace VersionedTrie

/-! ## Moves -/

namespace Traversal

/-- What can happen to a traversal whose consumer stays. -/
inductive Event where
  | work
  | receive
  | stop
  | expire
  deriving DecidableEq

/-- What a visit makes of a traversal, once the node key has been looked up. -/
def lookedUp (t : Traversal) (k : NodeKey) : Except Error Node → Traversal
  | .error e => { t with pending := t.pending.erase k }.finish (.failed e)
  | .ok x =>
    let t := { t with
      pending := (childKeys k x).foldl (fun s k => s.insert k) (t.pending.erase k) }
    match emission t.leavesOnly k x with
    | .error e => t.finish (.failed e)
    | .ok held => { t with held }

theorem visit_eq (t : Traversal) (k : NodeKey) (a : Access) :
    t.visit k a = (t.lookedUp k (readThroughCache k a).1, (readThroughCache k a).2) := by
  unfold visit lookedUp
  cases hr : readThroughCache k a with
  | mk o b =>
    have hrun : (ExceptT.run (readThroughCache k)) a = (o, b) := hr
    simp only [Bind.bind, StateT.bind, hrun]
    cases o with
    | error e => rfl
    | ok x =>
      simp only
      cases emission t.leavesOnly k x <;> rfl

/-- A step of the worker looks up one node key at most, whatever it reads through. -/
theorem advance_cases (t : Traversal) :
    (∃ u, ∀ a, t.advance a = (u, a)) ∨ ∃ k, ∀ a, t.advance a = t.visit k a := by
  unfold advance
  cases t.outcome.isSome with
  | true => exact .inl ⟨_, fun _ => rfl⟩
  | false =>
    cases t.held with
    | some item =>
      cases t.stopAsked with
      | true => exact .inl ⟨_, fun _ => rfl⟩
      | false => cases t.hasRoom <;> exact .inl ⟨_, fun _ => rfl⟩
    | none =>
      cases t.pending.max? with
      | none => exact .inl ⟨_, fun _ => rfl⟩
      | some k =>
        cases t.stopAsked with
        | true => exact .inl ⟨_, fun _ => rfl⟩
        | false => exact .inr ⟨k, fun _ => rfl⟩

/-- What a step of the worker makes of a traversal over nodes and of what it reads through. -/
inductive Works (t : Traversal) (a : Access) : Traversal → Access → Prop
  | idle (h : t.outcome ≠ none ∨ t.hasRoom = false) : Works t a t a
  | interrupted (h : t.outcome = none) (hs : t.stopAsked = true) :
    Works t a (t.finish (.cut .interrupted)) a
  | completed (h : t.outcome = none) (hh : t.held = none) (hp : t.pending = ∅) :
    Works t a (t.finish .completed) a
  | emits {item : Item} (h : t.outcome = none) (hh : t.held = some item) :
    Works t a { t with held := none, queue := t.queue.push item } a
  | fails {k : NodeKey} {e : Error} {b : Access} (h : t.outcome = none) (hh : t.held = none)
    (hk : k ∈ t.pending) (hread : readThroughCache k a = (.error e, b)) :
    Works t a ({ t with pending := t.pending.erase k }.finish (.failed e)) b
  | visits {k : NodeKey} {x : Node} {b : Access} (h : t.outcome = none) (hh : t.held = none)
    (hk : k ∈ t.pending) (hread : readThroughCache k a = (.ok x, b)) :
    Works t a { t with
      pending := (childKeys k x).foldl (fun s k => s.insert k) (t.pending.erase k)
      held := some (.node k x) } b

variable {t t' : Traversal} {a b : Access}

theorem works_advance (hmode : t.leavesOnly = false) (a : Access) :
    Works t a (t.advance a).1 (t.advance a).2 := by
  obtain ⟨root, capacity, leavesOnly, pending, held, queue, stopAsked, outcome⟩ := t
  obtain rfl : leavesOnly = false := hmode
  unfold advance
  cases outcome with
  | some o => exact .idle (.inl nofun)
  | none =>
    cases held with
    | some item =>
      simp only [Option.isSome_none, Bool.false_eq_true, if_false]
      cases stopAsked with
      | true => exact .interrupted rfl rfl
      | false =>
        simp only [Bool.false_eq_true, if_false]
        split
        · exact .emits rfl rfl
        · next h => exact .idle (.inr (Bool.eq_false_iff.mpr h))
    | none =>
      simp only [Option.isSome_none, Bool.false_eq_true, if_false]
      cases hmax : pending.max? with
      | none => exact .completed rfl rfl (Std.ExtTreeSet.max?_eq_none_iff.mp hmax)
      | some k =>
        cases stopAsked with
        | true => exact .interrupted rfl rfl
        | false =>
          have hk : k ∈ pending := Std.ExtTreeSet.max?_mem hmax
          simp only [Bool.false_eq_true, if_false, visit_eq]
          cases hr : readThroughCache k a with
          | mk o b =>
            cases o with
            | error e => exact .fails rfl rfl hk hr
            | ok x => exact .visits rfl rfl hk hr

theorem receive_cases (t : Traversal) :
    t.receive = (none, t) ∧ t.queue.toList = [] ∨
      ∃ item queue, t.receive = (some item, { t with queue }) ∧
        t.queue.toList = item :: queue.toList := by
  have hpop := t.queue.pop_eq
  unfold receive
  cases hq : t.queue.pop with
  | none =>
    rw [hq] at hpop
    refine .inl ⟨rfl, ?_⟩
    by_contra hne
    rw [if_neg hne] at hpop
    cases hpop
  | some r =>
    obtain ⟨item, queue⟩ := r
    rw [hq, Option.map_some] at hpop
    refine .inr ⟨item, queue, rfl, ?_⟩
    split at hpop
    · cases hpop
    · exact (Option.some.inj hpop).symm

/-- The traversal has not ended, or is completed. -/
def Unbroken (t : Traversal) : Prop := ∀ o, t.outcome = some o → o = .completed

theorem unbroken_of_none (h : t.outcome = none) : t.Unbroken := by
  intro o ho
  rw [h] at ho
  cases ho

theorem not_unbroken {o : Outcome} (ho : t.outcome = some o) (hne : o ≠ .completed) :
    ¬ t.Unbroken := fun h => hne (h o ho)

end Traversal

/-! ## Sweeps -/

open Traversal

/-- A traversal under way: what it reads through, and what has been received of it. -/
structure Sweep where
  traversal : Traversal
  access : Access
  /-- The item received first comes first. -/
  received : List Item

namespace Sweep

def make (s : Sweep) : Event → Sweep
  | .work =>
    { s with
      traversal := (s.traversal.advance s.access).1
      access := (s.traversal.advance s.access).2 }
  | .receive =>
    { s with
      traversal := s.traversal.receive.2
      received := s.received ++ s.traversal.receive.1.toList }
  | .stop => { s with traversal := s.traversal.stop }
  | .expire => { s with traversal := s.traversal.expire }

def run (s : Sweep) (events : List Event) : Sweep := events.foldl make s

/-- The traversal has ended, and all that it emitted has been received. -/
def Finished (s : Sweep) : Prop := s.traversal.outcome ≠ none ∧ s.traversal.queue.toList = []

/-- The sweep over nodes, from the access `a₀`, has visited the given nodes, in this order. -/
structure Covers (find : NodeKey → Except Error Node) (root : Option NodeKey) (a₀ : Access)
    (s : Sweep) (visited : List (NodeKey × Node)) : Prop where
  mode : s.traversal.leavesOnly = false
  rooted : s.traversal.root = root
  roomy : 0 < s.traversal.capacity
  reads : a₀.Reads s.access
  found : ∀ r, r ∈ visited → Reached find root r.1 ∧ find r.1 = .ok r.2
  nodup : (visited.map Prod.fst).Nodup
  fresh : ∀ k, k ∈ s.traversal.pending → Reached find root k ∧ k ∉ visited.map Prod.fst
  /-- Only an item that is held when the traversal is broken off is lost. -/
  emitted : ∃ lost, s.received ++ s.traversal.queue.toList ++ s.traversal.held.toList ++ lost =
    visited.map (fun r => .node r.1 r.2) ∧ (s.traversal.Unbroken → lost = [])
  frontier : s.traversal.Unbroken → ∀ k, k ∈ visited.map Prod.fst ∨ k ∈ s.traversal.pending ↔
    root = some k ∨ ∃ r, r ∈ visited ∧ k ∈ childKeys r.1 r.2
  done : s.traversal.outcome = some .completed →
    s.traversal.pending = ∅ ∧ s.traversal.held = none
  failing : ∀ e, s.traversal.outcome = some (.failed e) → ∃ k, Reached find root k ∧
    k ∉ visited.map Prod.fst ∧ (find k = .error e ∨ a₀.store.plan.reads = some visited.length)
  /-- Every visit has used up one read. -/
  spared : s.traversal.Unbroken →
    s.access.store.plan.reads = a₀.store.plan.reads.map (· - visited.length) ∧
      ∀ n, a₀.store.plan.reads = some n → visited.length ≤ n

variable {find : NodeKey → Except Error Node} {root : Option NodeKey} {a₀ : Access} {s : Sweep}
  {visited : List (NodeKey × Node)}

/-! ### Steps -/

section Steps

variable (h : s.Covers find root a₀ visited)
include h

/-- A traversal that has not ended ends, other than by a failure. -/
theorem Covers.ends (hout : s.traversal.outcome = none) {o : Outcome}
    (ho : (∃ cutoff, o = .cut cutoff) ∨
      o = .completed ∧ s.traversal.pending = ∅ ∧ s.traversal.held = none) :
    Covers find root a₀ { s with traversal := s.traversal.finish o } visited := by
  have hopen := unbroken_of_none hout
  refine ⟨h.mode, h.rooted, h.roomy, h.reads, h.found, h.nodup, h.fresh, ?_,
    fun _ => h.frontier hopen, ?_, ?_, fun _ => h.spared hopen⟩
  · obtain ⟨lost, hitems, hlost⟩ := h.emitted
    rw [hlost hopen, List.append_nil] at hitems
    refine ⟨s.traversal.held.toList, ?_, fun hu => ?_⟩
    · rw [← hitems]
      exact congrArg (· ++ s.traversal.held.toList) (List.append_nil _)
    · obtain ⟨_, rfl⟩ | ⟨-, -, hheld⟩ := ho
      · exact absurd hu (not_unbroken rfl nofun)
      · rw [hheld]
        rfl
  · rintro hdone
    obtain ⟨_, rfl⟩ | ⟨-, hp, -⟩ := ho
    · cases hdone
    · exact ⟨hp, rfl⟩
  · rintro e he
    obtain ⟨_, rfl⟩ | ⟨rfl, -⟩ := ho <;> cases he

theorem Covers.emit (hout : s.traversal.outcome = none) {item : Item}
    (hheld : s.traversal.held = some item) :
    Covers find root a₀ { s with
      traversal := { s.traversal with held := none, queue := s.traversal.queue.push item } }
      visited := by
  refine ⟨h.mode, h.rooted, h.roomy, h.reads, h.found, h.nodup, h.fresh, ?_, h.frontier,
    fun hdone => ?_, h.failing, h.spared⟩
  · obtain ⟨lost, hitems, hlost⟩ := h.emitted
    refine ⟨lost, ?_, hlost⟩
    rw [← hitems, hheld]
    simp
  · rw [show s.traversal.outcome = some .completed from hdone] at hout
    cases hout

theorem Covers.receive : Covers find root a₀ (s.make .receive) visited := by
  obtain ⟨hr, -⟩ | ⟨item, queue, hr, hqueue⟩ := s.traversal.receive_cases
  · rw [make, hr]
    simpa using h
  · rw [make, hr]
    refine ⟨h.mode, h.rooted, h.roomy, h.reads, h.found, h.nodup, h.fresh, ?_, h.frontier, h.done,
      h.failing, h.spared⟩
    obtain ⟨lost, hitems, hlost⟩ := h.emitted
    refine ⟨lost, ?_, hlost⟩
    rw [← hitems, hqueue]
    simp

theorem Covers.expire : Covers find root a₀ (s.make .expire) visited := by
  rw [make, Traversal.expire]
  split
  · next hb =>
    refine h.ends ?_ (.inl ⟨_, rfl⟩)
    simp only [isBlocked, Bool.and_eq_true, Option.isNone_iff_eq_none] at hb
    exact hb.1.1.1
  · exact h

theorem Covers.bounds (hopen : s.traversal.Unbroken) :
    Frontier find root visited (· ∈ s.traversal.pending) :=
  ⟨h.found, h.nodup, h.fresh, h.frontier hopen⟩

section Reading

variable (ha₀ : a₀.cache = none) (hfind : a₀.find = find) (hout : s.traversal.outcome = none)
  {k : NodeKey} (hk : k ∈ s.traversal.pending)
include ha₀ hfind hout hk

/-- A read fails for the node key, or because it is the one that is planned to fail. -/
theorem Covers.fail {e : Error} {b : Access}
    (hread : readThroughCache k s.access = (.error e, b)) :
    Covers find root a₀ { s with
      traversal := Traversal.finish
        { s.traversal with pending := s.traversal.pending.erase k } (.failed e)
      access := b } visited := by
  have hopen := unbroken_of_none hout
  obtain ⟨hreached, hnew⟩ := h.fresh k hk
  obtain ⟨hleft, henough⟩ := h.spared hopen
  have hreads : s.access.Reads b := by
    have hp := preserves_readThroughCache k s.access
    rwa [hread] at hp
  refine ⟨h.mode, h.rooted, h.roomy, trans_of Access.Reads h.reads hreads, h.found, h.nodup,
    fun j hj => h.fresh j (Std.ExtTreeSet.mem_of_mem_erase hj), ?_,
    fun hu => absurd hu (not_unbroken rfl nofun), nofun, fun e' he' => ⟨k, hreached, hnew, ?_⟩,
    fun hu => absurd hu (not_unbroken rfl nofun)⟩
  · obtain ⟨lost, hitems, -⟩ := h.emitted
    refine ⟨s.traversal.held.toList ++ lost, ?_, fun hu => absurd hu (not_unbroken rfl nofun)⟩
    rw [← hitems]
    simp [Traversal.finish]
  · obtain rfl : e = e' := by cases he'; rfl
    rw [Access.run_readThroughCache (h.reads.agrees.uncached ha₀)] at hread
    split at hread
    · next ht =>
      refine .inr ?_
      cases hp : a₀.store.plan.reads with
      | none =>
        rw [hleft, hp] at ht
        cases ht
      | some n =>
        rw [hleft, hp, Option.map_some] at ht
        have hle := henough n hp
        cases hn : n - visited.length with
        | zero => exact congrArg some (by omega)
        | succ m =>
          rw [hn] at ht
          cases ht
    · refine .inl ?_
      rw [← hfind, ← funext h.reads.agrees.find]
      exact congrArg Prod.fst hread

/-- A node is met, and its children are pending from then on. -/
theorem Covers.visit {x : Node} {b : Access} (hheld : s.traversal.held = none)
    (hread : readThroughCache k s.access = (.ok x, b)) :
    Covers find root a₀ { s with
      traversal := { s.traversal with
        pending := (childKeys k x).foldl (fun s k => s.insert k) (s.traversal.pending.erase k)
        held := some (.node k x) }
      access := b } (visited ++ [(k, x)]) := by
  have hopen := unbroken_of_none hout
  obtain ⟨hleft, henough⟩ := h.spared hopen
  have hreads : s.access.Reads b := by
    have hp := preserves_readThroughCache k s.access
    rwa [hread] at hp
  rw [Access.run_readThroughCache (h.reads.agrees.uncached ha₀)] at hread
  have htick : (FaultPlan.tick s.access.store.plan.reads).1 = false := by
    cases ht : (FaultPlan.tick s.access.store.plan.reads).1 with
    | false => rfl
    | true =>
      rw [ht] at hread
      cases congrArg Prod.fst hread
  rw [htick, if_neg Bool.false_ne_true] at hread
  have hx : find k = .ok x := by
    rw [← hfind, ← funext h.reads.agrees.find]
    exact congrArg Prod.fst hread
  have hb : b = s.access.readOnce := (congrArg Prod.snd hread).symm
  have hvisited := ((h.bounds hopen).visit hk hx).congr fun j => mem_widened
  refine ⟨h.mode, h.rooted, h.roomy, trans_of Access.Reads h.reads hreads, hvisited.found,
    hvisited.nodup, hvisited.fresh, ?_, fun _ => hvisited.closed, ?_, ?_, ?_⟩
  · obtain ⟨lost, hitems, hlost⟩ := h.emitted
    refine ⟨[], ?_, fun _ => rfl⟩
    rw [hlost hopen, hheld] at hitems
    simp only [Option.toList_none, List.append_nil] at hitems
    simp only [Option.toList_some, List.append_nil, List.map_append, hitems, List.map_singleton]
  · intro hdone
    rw [show s.traversal.outcome = some .completed from hdone] at hout
    cases hout
  · intro e he
    rw [show s.traversal.outcome = some (.failed e) from he] at hout
    cases hout
  · intro _
    rw [List.length_append, List.length_singleton]
    cases hp : a₀.store.plan.reads with
    | none =>
      rw [hp] at hleft
      refine ⟨?_, fun _ => nofun⟩
      rw [hb, Access.readOnce, hleft]
      rfl
    | some n =>
      rw [hp, Option.map_some] at hleft
      have hle := henough n hp
      cases hn : n - visited.length with
      | zero =>
        rw [hleft, hn] at htick
        cases htick
      | succ m =>
        refine ⟨?_, fun n' hn' => ?_⟩
        · rw [hb, Access.readOnce, hleft, hn]
          show some m = some (n - (visited.length + 1))
          exact congrArg some (by omega)
        · obtain rfl := Option.some.inj hn'
          omega

end Reading

end Steps

/-! ### Runs -/

/-- What the worker may still have to do, if no more than `bound` nodes can be read: three steps for
each node that is left, for a node that is held and for the queue what is left of them, and one more
visit. -/
def debt (bound : Nat) (s : Sweep) (visited : List (NodeKey × Node)) : Nat :=
  3 * (bound - visited.length) + (if s.traversal.held.isSome then 2 else 0) +
    s.traversal.queue.toList.length + if s.traversal.outcome.isNone then 2 else 0

section Runs

variable (ha₀ : a₀.cache = none) (hfind : a₀.find = find)
include ha₀ hfind

/-- The worker does nothing only if it has ended or has no room; else what it has to do gets less. -/
theorem Covers.work (h : s.Covers find root a₀ visited) :
    ∃ visited', (s.make .work).Covers find root a₀ visited' ∧
      (s.traversal.outcome = none → s.traversal.hasRoom = true →
        ∀ bound, visited'.length ≤ bound →
          debt bound (s.make .work) visited' < debt bound s visited) := by
  have hworks := works_advance h.mode s.access
  have hmake : s.make .work = { s with
      traversal := (s.traversal.advance s.access).1
      access := (s.traversal.advance s.access).2 } := rfl
  rw [hmake]
  generalize (s.traversal.advance s.access).1 = t, (s.traversal.advance s.access).2 = b at hworks
  cases hworks with
  | idle hidle =>
    refine ⟨visited, h, fun hout hroom => ?_⟩
    obtain hn | hn := hidle
    · exact absurd hout hn
    · rw [hroom] at hn
      cases hn
  | interrupted hout hs =>
    refine ⟨visited, h.ends hout (.inl ⟨_, rfl⟩), fun _ _ bound _ => ?_⟩
    simp only [debt, Traversal.finish, hout]
    simp
    omega
  | completed hout hheld hp =>
    refine ⟨visited, h.ends hout (.inr ⟨rfl, hp, hheld⟩), fun _ _ bound _ => ?_⟩
    simp [debt, Traversal.finish, hout, hheld]
  | emits hout hheld =>
    refine ⟨visited, h.emit hout hheld, fun _ _ bound _ => ?_⟩
    simp [debt, hout, hheld]
    omega
  | fails hout hheld hk hread =>
    refine ⟨visited, h.fail ha₀ hfind hout hk hread, fun _ _ bound _ => ?_⟩
    simp [debt, Traversal.finish, hout, hheld]
  | visits hout hheld hk hread =>
    refine ⟨_, h.visit ha₀ hfind hout hk hheld hread, fun _ _ bound hle => ?_⟩
    simp only [List.length_append, List.length_singleton] at hle
    simp [debt, hout, hheld]
    omega

theorem Covers.make (h : s.Covers find root a₀ visited) (event : Event) :
    ∃ visited', (s.make event).Covers find root a₀ visited' := by
  cases event with
  | work =>
    obtain ⟨visited', h', -⟩ := h.work ha₀ hfind
    exact ⟨visited', h'⟩
  | receive => exact ⟨visited, h.receive⟩
  | stop => exact ⟨visited, ⟨h.mode, h.rooted, h.roomy, h.reads, h.found, h.nodup, h.fresh,
      h.emitted, h.frontier, h.done, h.failing, h.spared⟩⟩
  | expire => exact ⟨visited, h.expire⟩

theorem Covers.run (h : s.Covers find root a₀ visited) (events : List Event) :
    ∃ visited', (s.run events).Covers find root a₀ visited' := by
  induction events generalizing s visited with
  | nil => exact ⟨visited, h⟩
  | cons event events ih =>
    obtain ⟨visited', h'⟩ := h.make ha₀ hfind event
    exact ih h'

end Runs

/-- A traversal from a node key that has not begun. -/
theorem covers_ofRoot (root : Option NodeKey) (o : TraversalOptions) (hmode : o.leavesOnly = false)
    (a₀ : Access) : Covers find root a₀ ⟨ofRoot root o, a₀, []⟩ [] := by
  have hpending : ∀ k, k ∈ (ofRoot root o).pending ↔ root = some k := by
    intro k
    cases root with
    | none => exact ⟨fun hk => absurd hk Std.ExtTreeSet.not_mem_empty, nofun⟩
    | some r =>
      show k ∈ (∅ : NodeSet).insert r ↔ _
      rw [Std.ExtTreeSet.mem_insert, Std.LawfulEqCmp.compare_eq_iff_eq, Option.some.injEq]
      exact or_iff_left Std.ExtTreeSet.not_mem_empty
  refine ⟨hmode, rfl, Nat.lt_of_lt_of_le Nat.one_pos (Nat.le_max_left ..), refl_of Access.Reads a₀,
    fun _ hr => absurd hr List.not_mem_nil, List.nodup_nil, ?_, ⟨[], rfl, fun _ => rfl⟩, ?_, nofun,
    nofun, ?_⟩
  · exact fun k hk => ⟨.root ((hpending k).mp hk), List.not_mem_nil⟩
  · intro _ k
    constructor
    · rintro (hk | hk)
      · exact absurd hk List.not_mem_nil
      · exact .inl ((hpending k).mp hk)
    · rintro (hk | ⟨r, hr, -⟩)
      · exact .inr ((hpending k).mpr hk)
      · exact absurd hr List.not_mem_nil
  · intro _
    refine ⟨?_, fun n _ => Nat.zero_le n⟩
    cases a₀.store.plan.reads <;> simp

/-! ### Ends -/

section Ends

variable (h : s.Covers find root a₀ visited)
include h

/-- A sweep that is completed has received what is reached from the root, each node once. -/
theorem Covers.complete (hdone : s.traversal.outcome = some .completed)
    (hqueue : s.traversal.queue.toList = []) :
    s.received = visited.map (fun r => .node r.1 r.2) ∧
      ∀ k, k ∈ visited.map Prod.fst ↔ Reached find root k := by
  obtain ⟨hpending, hheld⟩ := h.done hdone
  have hopen : s.traversal.Unbroken := by
    intro o ho
    rw [hdone] at ho
    exact (Option.some.inj ho).symm
  refine ⟨?_, fun k => (h.bounds hopen).complete fun j => ?_⟩
  · obtain ⟨lost, hitems, hlost⟩ := h.emitted
    rw [hlost hopen, hqueue, hheld] at hitems
    simpa using hitems
  · rw [hpending]
    exact Std.ExtTreeSet.not_mem_empty

/-- A sweep that has ended without being cut short is completed, if everything that is reached can
be read and no read is planned to fail before that. -/
theorem Covers.completed {o : Outcome} (hout : s.traversal.outcome = some o)
    (hcut : ∀ cutoff, o ≠ .cut cutoff) (hall : ∀ k, Reached find root k → ∃ x, find k = .ok x)
    (hspared : ∀ n, a₀.store.plan.reads = some n → ∀ keys : List NodeKey, keys.Nodup →
      (∀ k, k ∈ keys → Reached find root k) → keys.length ≤ n) : o = .completed := by
  cases o with
  | completed => rfl
  | cut cutoff => exact absurd rfl (hcut cutoff)
  | failed e =>
    obtain ⟨k, hk, hnew, hwhy⟩ := h.failing e hout
    obtain hf | hn := hwhy
    · obtain ⟨x, hx⟩ := hall k hk
      rw [hf] at hx
      cases hx
    · have hle := hspared _ hn (k :: visited.map Prod.fst)
        (List.nodup_cons.mpr ⟨hnew, h.nodup⟩) fun j hj => by
          obtain rfl | hj := List.mem_cons.mp hj
          · exact hk
          · obtain ⟨r, hr, rfl⟩ := List.mem_map.mp hj
            exact (h.found r hr).1
      rw [List.length_cons, List.length_map] at hle
      omega

end Ends

/-- Nothing has asked the traversal to end early. -/
structure Uncut (s : Sweep) : Prop where
  asked : s.traversal.stopAsked = false
  outcome : ∀ cutoff, s.traversal.outcome ≠ some (.cut cutoff)

theorem Uncut.run (h : s.Uncut) (hmode : s.traversal.leavesOnly = false) {events : List Event}
    (hmoves : ∀ event, event ∈ events → event = .work ∨ event = .receive) : (s.run events).Uncut := by
  induction events generalizing s with
  | nil => exact h
  | cons event events ih =>
    have hrest : ∀ m, m ∈ events → m = .work ∨ m = .receive :=
      fun m hm => hmoves m (List.mem_cons_of_mem _ hm)
    obtain rfl | rfl := hmoves event List.mem_cons_self
    · have hworks := works_advance hmode s.access
      have hmake : s.make .work = { s with
          traversal := (s.traversal.advance s.access).1
          access := (s.traversal.advance s.access).2 } := rfl
      show ((s.make .work).run events).Uncut
      rw [hmake]
      generalize (s.traversal.advance s.access).1 = t, (s.traversal.advance s.access).2 = b
        at hworks
      cases hworks with
      | idle => exact ih h hmode hrest
      | interrupted _ hs =>
        rw [h.asked] at hs
        cases hs
      | completed => exact ih ⟨h.asked, nofun⟩ hmode hrest
      | emits hout => exact ih ⟨h.asked, h.outcome⟩ hmode hrest
      | fails => exact ih ⟨h.asked, nofun⟩ hmode hrest
      | visits => exact ih ⟨h.asked, h.outcome⟩ hmode hrest
    · show ((s.make .receive).run events).Uncut
      obtain ⟨hr, -⟩ | ⟨item, queue, hr, -⟩ := s.traversal.receive_cases
      · rw [Sweep.make, hr]
        exact ih ⟨h.asked, h.outcome⟩ hmode hrest
      · rw [Sweep.make, hr]
        exact ih ⟨h.asked, h.outcome⟩ hmode hrest

end Sweep

end VersionedTrie
