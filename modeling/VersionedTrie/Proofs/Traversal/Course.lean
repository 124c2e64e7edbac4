import VersionedTrie.Proofs.Traversal.Progress

/-! # The course of a traversal

What a worker does that nobody interrupts is settled by what is pending and by what it reads
through: it visits the greatest node key pending until none is left, one cannot be read, or a leaf
cannot be emitted (`Course`). There is a course from everywhere, and only one (`exists_course`,
`Course.unique`), since the nodes visited are found under different node keys. What is visited is at
every point the next in order of what the visits so far have opened (`Course.next`), and no node key
is ever met twice (`Course.met_once`), so that a set of node keys is as good as a heap.

Worker and consumer taking turns follow the course: a drain gives what it emits and how it ends
(`Course.drain`).
-/

set_option autoImplicit false

namespace VersionedTrie

namespace Traversal

/-- What the worker does that is left to itself: the nodes that it visits, and the node key at which
it fails, if it does. -/
inductive Course (leavesOnly : Bool) :
    NodeSet → Access → List (NodeKey × Node) → Option (NodeKey × Error) → Prop
  | completed {pending : NodeSet} {a : Access} (h : pending.max? = none) :
    Course leavesOnly pending a [] none
  | unreadable {pending : NodeSet} {a b : Access} {k : NodeKey} {e : Error}
      (hk : pending.max? = some k) (hread : readThroughCache k a = (.error e, b)) :
    Course leavesOnly pending a [] (some (k, e))
  | unfit {pending : NodeSet} {a b : Access} {k : NodeKey} {x : Node} {e : Error}
      (hk : pending.max? = some k) (hread : readThroughCache k a = (.ok x, b))
      (hitem : emission leavesOnly k x = .error e) :
    Course leavesOnly pending a [] (some (k, e))
  | visits {pending : NodeSet} {a b : Access} {k : NodeKey} {x : Node} {item : Option Item}
      {visited : List (NodeKey × Node)} {stop : Option (NodeKey × Error)}
      (hk : pending.max? = some k) (hread : readThroughCache k a = (.ok x, b))
      (hitem : emission leavesOnly k x = .ok item)
      (rest : Course leavesOnly ((childKeys k x).foldl (fun s k => s.insert k) (pending.erase k)) b
        visited stop) :
    Course leavesOnly pending a ((k, x) :: visited) stop

/-- What is emitted of a node that has been visited. -/
def emitted (leavesOnly : Bool) (r : NodeKey × Node) : Option Item :=
  match emission leavesOnly r.1 r.2 with
  | .ok item => item
  | .error _ => none

def emissions (leavesOnly : Bool) (visited : List (NodeKey × Node)) : List Item :=
  visited.filterMap (emitted leavesOnly)

/-- The node keys that have been taken up, the one that fails at last. -/
def popped (visited : List (NodeKey × Node)) (stop : Option (NodeKey × Error)) : List NodeKey :=
  visited.map Prod.fst ++ (stop.map Prod.fst).toList

def ending (stop : Option (NodeKey × Error)) : Outcome := stop.elim .completed fun r => .failed r.2

/-- The node key is the root or has a parent that has been visited, and has not been visited
itself. -/
def Opened (root : Option NodeKey) (visited : List (NodeKey × Node)) (k : NodeKey) : Prop :=
  k ∉ visited.map Prod.fst ∧ (root = some k ∨ ∃ r, r ∈ visited ∧ k ∈ childKeys r.1 r.2)

/-- The node key is the greatest of those that the visits have opened. -/
def Next (root : Option NodeKey) (visited : List (NodeKey × Node)) (k : NodeKey) : Prop :=
  Opened root visited k ∧ ∀ j, Opened root visited j → (compare j k).isLE = true

variable {leavesOnly : Bool} {pending : NodeSet} {a b : Access} {root : Option NodeKey}
  {k : NodeKey} {x : Node} {visited visited' before : List (NodeKey × Node)}
  {stop stop' : Option (NodeKey × Error)}

theorem emissions_cons {item : Option Item} (h : emission leavesOnly k x = .ok item) :
    emissions leavesOnly ((k, x) :: visited) = item.toList ++ emissions leavesOnly visited := by
  have hitem : emitted leavesOnly (k, x) = item := by
    rw [emitted, h]
  rw [emissions, List.filterMap_cons, hitem]
  cases item <;> rfl

theorem emissions_nodes (visited : List (NodeKey × Node)) :
    emissions false visited = visited.map fun r => .node r.1 r.2 := by
  rw [← List.filterMap_eq_map]
  rfl

theorem next_of_max? (h : Frontier a.find root visited (· ∈ pending)) (hk : pending.max? = some k) :
    Next root visited k := by
  obtain ⟨hmem, hmax⟩ := Std.ExtTreeSet.max?_eq_some_iff_mem_and_forall.mp hk
  exact ⟨h.pending_iff.mp hmem, fun j hj => hmax j (h.pending_iff.mpr hj)⟩

theorem frontier_ofRoot (find : NodeKey → Except Error Node) (root : Option NodeKey)
    (o : TraversalOptions) : Frontier find root [] (· ∈ (ofRoot root o).pending) := by
  refine (Frontier.start find root).congr fun k => ?_
  cases root with
  | none => simp [ofRoot]
  | some r => simp [ofRoot, Std.LawfulEqCmp.compare_eq_iff_eq]

/-! ## Reading on the way -/

theorem read_ok (hread : readThroughCache k a = (.ok x, b)) :
    a.find k = .ok x ∧ b.find = a.find ∧ (b.Doubtful → a.Doubtful) := by
  have hanswers := a.readThroughCache_answers k
  have hb : a.Agrees b := by
    have := hanswers.1
    rwa [hread] at this
  exact ⟨hanswers.eq_of_ok (congrArg Prod.fst hread), funext hb.find, hb.reads⟩

theorem read_error {e : Error} (hread : readThroughCache k a = (.error e, b)) :
    a.find k = .error e ∨ a.Doubtful := by
  have hanswers := (a.readThroughCache_answers k).2
  rwa [hread] at hanswers

/-- A visit moves the frontier on. -/
theorem frontier_visit (h : Frontier a.find root before (· ∈ pending)) (hk : pending.max? = some k)
    (hread : readThroughCache k a = (.ok x, b)) :
    Frontier b.find root (before ++ [(k, x)])
      (· ∈ (childKeys k x).foldl (fun s k => s.insert k) (pending.erase k)) := by
  obtain ⟨hx, hfind, -⟩ := read_ok hread
  rw [hfind]
  exact (h.visit (Std.ExtTreeSet.max?_mem hk) hx).congr fun j => mem_widened

/-! ## Every traversal has one course -/

theorem exists_course (leavesOnly : Bool) (h : Frontier a.find root before (· ∈ pending)) :
    ∃ visited stop, Course leavesOnly pending a visited stop := by
  have hbound : ∀ l : List NodeKey, l.Nodup → (∀ k, k ∈ l → ∃ x, a.find k = .ok x) →
      l.length ≤ a.store.size + a.cache.elim 0 (·.size) := fun l => a.length_le
  generalize a.store.size + a.cache.elim 0 (·.size) = bound at hbound
  generalize hfind : a.find = find at h hbound
  generalize hleft : bound - before.length = left
  -- every visit uses up one of the node keys that can be found at all
  induction left using Nat.strongRecOn generalizing a before pending with
  | ind left ih =>
    cases hk : pending.max? with
    | none => exact ⟨[], none, .completed hk⟩
    | some k =>
      cases hread : readThroughCache k a with
      | mk o b =>
        cases o with
        | error e => exact ⟨[], some (k, e), .unreadable hk hread⟩
        | ok x =>
          cases hitem : emission leavesOnly k x with
          | error e => exact ⟨[], some (k, e), .unfit hk hread hitem⟩
          | ok item =>
            have hvisit := frontier_visit (hfind ▸ h) hk hread
            have hb : b.find = find := (read_ok hread).2.1.trans hfind
            rw [hb] at hvisit
            have hlonger := hbound _ hvisit.nodup fun j hj => by
              obtain ⟨r, hr, rfl⟩ := List.mem_map.mp hj
              exact ⟨r.2, (hvisit.found r hr).2⟩
            rw [List.length_map, List.length_append, List.length_singleton] at hlonger
            have hless : bound - (before ++ [(k, x)]).length < left := by
              rw [List.length_append, List.length_singleton]
              omega
            obtain ⟨visited, stop, hrest⟩ := ih _ hless hb hvisit rfl
            exact ⟨_, stop, .visits hk hread hitem hrest⟩

section Steps

variable (h : Course leavesOnly pending a visited stop)
include h

theorem Course.of_none (hmax : pending.max? = none) : visited = [] ∧ stop = none := by
  cases h with
  | completed => exact ⟨rfl, rfl⟩
  | unreadable hk => cases hmax.symm.trans hk
  | unfit hk => cases hmax.symm.trans hk
  | visits hk => cases hmax.symm.trans hk

variable (hk : pending.max? = some k)
include hk

theorem Course.of_error {e : Error} (hread : readThroughCache k a = (.error e, b)) :
    visited = [] ∧ stop = some (k, e) := by
  cases h with
  | completed hmax => cases hmax.symm.trans hk
  | unreadable hk' hread' =>
    cases hk.symm.trans hk'
    cases hread.symm.trans hread'
    exact ⟨rfl, rfl⟩
  | unfit hk' hread' =>
    cases hk.symm.trans hk'
    cases hread.symm.trans hread'
  | visits hk' hread' =>
    cases hk.symm.trans hk'
    cases hread.symm.trans hread'

theorem Course.of_unfit {e : Error} (hread : readThroughCache k a = (.ok x, b))
    (hitem : emission leavesOnly k x = .error e) : visited = [] ∧ stop = some (k, e) := by
  cases h with
  | completed hmax => cases hmax.symm.trans hk
  | unreadable hk' hread' =>
    cases hk.symm.trans hk'
    cases hread.symm.trans hread'
  | unfit hk' hread' hitem' =>
    cases hk.symm.trans hk'
    cases hread.symm.trans hread'
    cases hitem.symm.trans hitem'
    exact ⟨rfl, rfl⟩
  | visits hk' hread' hitem' =>
    cases hk.symm.trans hk'
    cases hread.symm.trans hread'
    cases hitem.symm.trans hitem'

theorem Course.of_visit {item : Option Item} (hread : readThroughCache k a = (.ok x, b))
    (hitem : emission leavesOnly k x = .ok item) :
    ∃ rest, visited = (k, x) :: rest ∧
      Course leavesOnly ((childKeys k x).foldl (fun s k => s.insert k) (pending.erase k)) b rest
        stop := by
  cases h with
  | completed hmax => cases hmax.symm.trans hk
  | unreadable hk' hread' =>
    cases hk.symm.trans hk'
    cases hread.symm.trans hread'
  | unfit hk' hread' hitem' =>
    cases hk.symm.trans hk'
    cases hread.symm.trans hread'
    cases hitem.symm.trans hitem'
  | visits hk' hread' _ rest =>
    cases hk.symm.trans hk'
    cases hread.symm.trans hread'
    exact ⟨_, rfl, rest⟩

end Steps

theorem Course.unique (h : Course leavesOnly pending a visited stop)
    (h' : Course leavesOnly pending a visited' stop') : visited' = visited ∧ stop' = stop := by
  induction h generalizing visited' stop' with
  | completed hmax => exact h'.of_none hmax
  | unreadable hk hread => exact h'.of_error hk hread
  | unfit hk hread hitem => exact h'.of_unfit hk hread hitem
  | visits hk hread hitem rest ih =>
    obtain ⟨rest', rfl, hrest⟩ := h'.of_visit hk hread hitem
    obtain ⟨rfl, rfl⟩ := ih hrest
    exact ⟨rfl, rfl⟩

/-! ## What a course visits -/

/-- When a course ends, what is left pending is the frontier of all visits. -/
theorem Course.frontier (h : Course leavesOnly pending a visited stop)
    (hf : Frontier a.find root before (· ∈ pending)) :
    ∃ left : NodeSet, Frontier a.find root (before ++ visited) (· ∈ left) ∧
      (stop = none → left = ∅) ∧ ∀ k e, stop = some (k, e) → left.max? = some k ∧
        (a.find k = .error e ∨ a.Doubtful ∨
          ∃ x, a.find k = .ok x ∧ emission leavesOnly k x = .error e) := by
  induction h generalizing before with
  | @completed pending a hmax =>
    rw [List.append_nil]
    exact ⟨pending, hf, fun _ => Std.ExtTreeSet.max?_eq_none_iff.mp hmax, nofun⟩
  | @unreadable pending a b k e hk hread =>
    rw [List.append_nil]
    refine ⟨pending, hf, nofun, ?_⟩
    rintro _ _ ⟨⟩
    exact ⟨hk, (read_error hread).imp_right .inl⟩
  | @unfit pending a b k x e hk hread hitem =>
    rw [List.append_nil]
    refine ⟨pending, hf, nofun, ?_⟩
    rintro _ _ ⟨⟩
    exact ⟨hk, .inr (.inr ⟨x, (read_ok hread).1, hitem⟩)⟩
  | @visits pending a b k x item visited stop hk hread hitem rest ih =>
    obtain ⟨-, hfind, hdoubtful⟩ := read_ok hread
    obtain ⟨left, hleft, hdone, hstop⟩ := ih (frontier_visit hf hk hread)
    rw [List.append_assoc, hfind] at hleft
    refine ⟨left, hleft, hdone, fun j e hj => ?_⟩
    obtain ⟨hmax, hwhy⟩ := hstop j e hj
    rw [hfind] at hwhy
    exact ⟨hmax, hwhy.imp_right fun hwhy => hwhy.imp_left hdoubtful⟩

/-- Whatever is taken up is the next in order after the visits before it. -/
theorem Course.next (h : Course leavesOnly pending a visited stop)
    (hf : Frontier a.find root before (· ∈ pending)) (n : Nat) (k : NodeKey)
    (hn : (popped visited stop)[n]? = some k) : Next root (before ++ visited.take n) k := by
  induction h generalizing before n with
  | completed => cases hn
  | unreadable hk =>
    cases n with
    | zero =>
      cases hn
      simpa using next_of_max? hf hk
    | succ n => cases hn
  | unfit hk =>
    cases n with
    | zero =>
      cases hn
      simpa using next_of_max? hf hk
    | succ n => cases hn
  | @visits pending a b j x item visited stop hk hread hitem rest ih =>
    cases n with
    | zero =>
      cases hn
      simpa using next_of_max? hf hk
    | succ n =>
      have hrest := ih (frontier_visit hf hk hread) n hn
      rwa [List.append_assoc] at hrest

theorem nodup_childKeys (k : NodeKey) (x : Node) : (childKeys k x).Nodup := by
  cases x with
  | leaf l => exact List.nodup_nil
  | branch b =>
    have hpaths : ((childKeys k (.branch b)).map NodeKey.path).Nodup := by
      have hmap := b.nodup_children.map (f := fun n => k.path ++ [n]) fun n m h =>
        (List.cons.inj (List.append_cancel_left h)).1
      rw [childKeys, List.map_map]
      rw [List.map_map] at hmap
      convert hmap using 2
      funext r
      exact NodeKey.path_child ..
    exact hpaths.of_map _

/-- No node key is ever met twice: the children of each node visited are new. -/
theorem Course.met_once (h : Course leavesOnly pending a visited stop)
    (hf : Frontier a.find root before (· ∈ pending)) :
    (visited.flatMap fun r => childKeys r.1 r.2).Nodup ∧
      ∀ j, (j ∈ visited.flatMap fun r => childKeys r.1 r.2) →
        j ∉ before.map Prod.fst ∧ j ∉ pending := by
  induction h generalizing before with
  | completed => exact ⟨List.nodup_nil, nofun⟩
  | unreadable => exact ⟨List.nodup_nil, nofun⟩
  | unfit => exact ⟨List.nodup_nil, nofun⟩
  | @visits pending a b k x item visited stop hk hread hitem rest ih =>
    obtain ⟨hnodup, hnew⟩ := ih (frontier_visit hf hk hread)
    have hmem := Std.ExtTreeSet.max?_mem hk
    simp only [mem_widened, not_or, not_and_not_right, List.map_append, List.mem_append,
      List.map_singleton, List.mem_singleton] at hnew
    rw [List.flatMap_cons, List.nodup_append]
    refine ⟨⟨nodup_childKeys k x, hnodup, ?_⟩, fun j hj => ?_⟩
    · rintro i hi j hj rfl
      exact (hnew i hj).2.1 hi
    · obtain hj | hj := List.mem_append.mp hj
      · exact (hf.child_new hmem hj).2
      · obtain ⟨⟨hbefore, hne⟩, -, hpending⟩ := hnew j hj
        exact ⟨hbefore, fun hp => hne (hpending hp)⟩

/-! ## Draining -/

theorem advance_completed {t : Traversal} (hout : t.outcome = none) (hheld : t.held = none)
    (hmax : t.pending.max? = none) (a : Access) : t.advance a = (t.finish .completed, a) := by
  unfold advance
  rw [hout, hheld]
  simp only [Option.isSome_none, Bool.false_eq_true, if_false, hmax]
  rfl

theorem advance_visit {t : Traversal} (hout : t.outcome = none) (hheld : t.held = none)
    (hasked : t.stopAsked = false) (hk : t.pending.max? = some k) (a : Access) :
    t.advance a = (t.lookedUp k (readThroughCache k a).1, (readThroughCache k a).2) := by
  rw [← visit_eq]
  unfold advance
  rw [hout, hheld]
  simp only [Option.isSome_none, Bool.false_eq_true, if_false, hk, hasked]

theorem advance_emit {t : Traversal} {item : Item} (hout : t.outcome = none)
    (hheld : t.held = some item) (hasked : t.stopAsked = false) (hroom : t.hasRoom = true)
    (a : Access) :
    t.advance a = ({ t with held := none, queue := t.queue.push item }, a) := by
  unfold advance
  rw [hout, hheld]
  simp only [Option.isSome_none, Bool.false_eq_true, if_false, hasked, hroom, if_true]
  rfl

theorem advance_ended {t : Traversal} {o : Outcome} (hout : t.outcome = some o) (a : Access) :
    t.advance a = (t, a) := by
  unfold advance
  rw [hout]
  rfl

theorem advance_stopped {t : Traversal} (hout : t.outcome = none) (hasked : t.stopAsked = true)
    (hmore : t.held ≠ none ∨ t.pending.max? ≠ none) (a : Access) :
    t.advance a = (t.finish (.cut .interrupted), a) := by
  unfold advance
  rw [hout, hasked]
  cases hheld : t.held with
  | some item => rfl
  | none =>
    cases hmax : t.pending.max? with
    | none => exact absurd hmore (by simp [hheld, hmax])
    | some k => rfl

theorem advance_full {t : Traversal} {item : Item} (hout : t.outcome = none)
    (hheld : t.held = some item) (hasked : t.stopAsked = false) (hroom : t.hasRoom = false)
    (a : Access) : t.advance a = (t, a) := by
  unfold advance
  rw [hout, hheld]
  simp only [Option.isSome_none, Bool.false_eq_true, if_false, hasked, hroom]
  rfl

theorem takeWith_work {t : Traversal} (hqueue : t.queue.toList = []) (hout : t.outcome = none)
    (fuel limit : Nat) (taken : List Item) (a : Access) :
    takeWith (fuel + 1) (limit + 1) t taken a =
      takeWith fuel (limit + 1) (t.advance a).1 taken (t.advance a).2 := by
  obtain ⟨hr, -⟩ | ⟨item, queue, -, hq⟩ := t.receive_cases
  · rw [takeWith, if_neg (Nat.succ_ne_zero limit), hr]
    simp only [hout, Option.isSome_none, Bool.false_eq_true, if_false]
    rfl
  · rw [hqueue] at hq
    cases hq

theorem takeWith_end {t : Traversal} {o : Outcome} (hqueue : t.queue.toList = [])
    (hout : t.outcome = some o) (fuel limit : Nat) (taken : List Item) (a : Access) :
    takeWith (fuel + 1) (limit + 1) t taken a = ((taken.reverse, t), a) := by
  obtain ⟨hr, -⟩ | ⟨item, queue, -, hq⟩ := t.receive_cases
  · rw [takeWith, if_neg (Nat.succ_ne_zero limit), hr]
    simp only [hout, Option.isSome_some, if_true]
    rfl
  · rw [hqueue] at hq
    cases hq

theorem takeWith_receive {t : Traversal} {item : Item} {rest : List Item}
    (hqueue : t.queue.toList = item :: rest) (fuel limit : Nat) (taken : List Item) (a : Access) :
    ∃ queue : Queue Item, queue.toList = rest ∧
      takeWith (fuel + 1) (limit + 1) t taken a =
        takeWith fuel limit { t with queue } (item :: taken) a := by
  obtain ⟨-, hq⟩ | ⟨item', queue, hr, hq⟩ := t.receive_cases
  · rw [hqueue] at hq
    cases hq
  · rw [hqueue] at hq
    cases hq
    exact ⟨queue, rfl, by rw [takeWith, if_neg (Nat.succ_ne_zero limit), hr]; rfl⟩

/-- A worker that may go on, with nothing held or queued. -/
structure Ready (t : Traversal) (leavesOnly : Bool) (pending : NodeSet) : Prop where
  mode : t.leavesOnly = leavesOnly
  pending : t.pending = pending
  held : t.held = none
  queue : t.queue.toList = []
  asked : t.stopAsked = false
  outcome : t.outcome = none
  roomy : 0 < t.capacity

theorem ready_ofRoot (root : Option NodeKey) (o : TraversalOptions) :
    (ofRoot root o).Ready o.leavesOnly (ofRoot root o).pending :=
  ⟨rfl, rfl, rfl, rfl, rfl, rfl, Nat.lt_of_lt_of_le Nat.one_pos (Nat.le_max_left ..)⟩

namespace Ready

variable {t : Traversal} (ht : t.Ready leavesOnly pending) (fuel limit : Nat) (taken : List Item)
include ht

theorem ends (hmax : pending.max? = none) (a : Access) :
    takeWith (fuel + 2) (limit + 1) t taken a = ((taken.reverse, t.finish .completed), a) := by
  rw [takeWith_work ht.queue ht.outcome, advance_completed ht.outcome ht.held (ht.pending ▸ hmax)]
  exact takeWith_end (t := t.finish .completed) ht.queue rfl ..

theorem fails {e : Error} (hk : pending.max? = some k) {o : Except Error Node}
    (hread : readThroughCache k a = (o, b))
    (ho : o = .error e ∨ ∃ x, o = .ok x ∧ emission leavesOnly k x = .error e) :
    ∃ t', takeWith (fuel + 2) (limit + 1) t taken a = ((taken.reverse, t'), b) ∧
      t'.outcome = some (.failed e) := by
  have hlooked : ∃ pending, t.lookedUp k o = { t with pending }.finish (.failed e) := by
    obtain rfl | ⟨x, rfl, hitem⟩ := ho
    · exact ⟨_, rfl⟩
    · exact ⟨_, by rw [lookedUp, ht.mode, hitem]⟩
  obtain ⟨pending, hlooked⟩ := hlooked
  rw [takeWith_work ht.queue ht.outcome,
    advance_visit ht.outcome ht.held ht.asked (ht.pending ▸ hk), hread, hlooked]
  exact ⟨_, takeWith_end (t := { t with pending }.finish (.failed e)) ht.queue rfl .., rfl⟩

/-- A visit of which nothing is emitted. -/
theorem visits_silent (hk : pending.max? = some k) (hread : readThroughCache k a = (.ok x, b))
    (hitem : emission leavesOnly k x = .ok none) :
    ∃ t', takeWith (fuel + 1) (limit + 1) t taken a = takeWith fuel (limit + 1) t' taken b ∧
      t'.Ready leavesOnly ((childKeys k x).foldl (fun s k => s.insert k) (pending.erase k)) := by
  obtain ⟨rfl, rfl, hheld, hqueue, hasked, hout, hroomy⟩ := ht
  have hlooked : t.lookedUp k (.ok x) = { t with
      pending := (childKeys k x).foldl (fun s k => s.insert k) (t.pending.erase k)
      held := none } := by
    rw [lookedUp, hitem]
  rw [takeWith_work hqueue hout, advance_visit hout hheld hasked hk, hread, hlooked]
  exact ⟨_, rfl, rfl, rfl, rfl, hqueue, hasked, hout, hroomy⟩

/-- A visit of which an item is emitted, up to the receipt of the item. -/
theorem visits {item : Item} (hk : pending.max? = some k)
    (hread : readThroughCache k a = (.ok x, b))
    (hitem : emission leavesOnly k x = .ok (some item)) :
    ∃ t', takeWith (fuel + 3) (limit + 1) t taken a = takeWith fuel limit t' (item :: taken) b ∧
      t'.Ready leavesOnly ((childKeys k x).foldl (fun s k => s.insert k) (pending.erase k)) := by
  obtain ⟨rfl, rfl, hheld, hqueue, hasked, hout, hroomy⟩ := ht
  have hlooked : t.lookedUp k (.ok x) = { t with
      pending := (childKeys k x).foldl (fun s k => s.insert k) (t.pending.erase k)
      held := some item } := by
    rw [lookedUp, hitem]
  have hroom : Traversal.hasRoom { t with
      pending := (childKeys k x).foldl (fun s k => s.insert k) (t.pending.erase k)
      held := some item } = true := by
    rw [hasRoom, t.queue.size_eq_length, hqueue]
    exact decide_eq_true hroomy
  rw [takeWith_work hqueue hout, advance_visit hout hheld hasked hk, hread, hlooked,
    takeWith_work (by exact hqueue) (by exact hout),
    advance_emit (by exact hout) rfl (by exact hasked) hroom]
  have hqueued : (t.queue.push item).toList = [item] := by
    rw [Queue.toList_push, hqueue, List.nil_append]
  obtain ⟨queue, hrest, htake⟩ := takeWith_receive (t := { t with
      pending := (childKeys k x).foldl (fun s k => s.insert k) (t.pending.erase k)
      held := none
      queue := t.queue.push item }) hqueued fuel limit taken b
  exact ⟨_, htake, rfl, rfl, rfl, hrest, hasked, hout, hroomy⟩

end Ready

/-- With three steps for each visit, and two for the end, all items of the course are taken. -/
theorem Course.takeWith (h : Course leavesOnly pending a visited stop) {t : Traversal}
    (ht : t.Ready leavesOnly pending) {fuel limit : Nat} (hfuel : 3 * visited.length + 2 ≤ fuel)
    (hlimit : fuel ≤ limit) (taken : List Item) :
    ∃ t' b, takeWith fuel limit t taken a =
        ((taken.reverse ++ emissions leavesOnly visited, t'), b) ∧
      t'.outcome = some (ending stop) := by
  obtain ⟨limit, rfl⟩ : ∃ l, limit = l + 1 := ⟨limit - 1, by omega⟩
  induction h generalizing t fuel limit taken with
  | @completed pending a hmax =>
    obtain ⟨fuel, rfl⟩ : ∃ f, fuel = f + 2 := ⟨fuel - 2, by omega⟩
    refine ⟨t.finish .completed, a, ?_, rfl⟩
    rw [ht.ends fuel limit taken hmax a, emissions, List.filterMap_nil, List.append_nil]
  | @unreadable pending a b k e hk hread =>
    obtain ⟨fuel, rfl⟩ : ∃ f, fuel = f + 2 := ⟨fuel - 2, by omega⟩
    obtain ⟨t', hrun, hend⟩ := ht.fails fuel limit taken hk hread (.inl rfl)
    refine ⟨t', b, ?_, hend⟩
    rw [hrun, emissions, List.filterMap_nil, List.append_nil]
  | @unfit pending a b k x e hk hread hitem =>
    obtain ⟨fuel, rfl⟩ : ∃ f, fuel = f + 2 := ⟨fuel - 2, by omega⟩
    obtain ⟨t', hrun, hend⟩ := ht.fails fuel limit taken hk hread (.inr ⟨_, rfl, hitem⟩)
    refine ⟨t', b, ?_, hend⟩
    rw [hrun, emissions, List.filterMap_nil, List.append_nil]
  | @visits pending a b k x item visited stop hk hread hitem rest ih =>
    rw [List.length_cons] at hfuel
    obtain ⟨fuel, rfl⟩ : ∃ f, fuel = f + 3 := ⟨fuel - 3, by omega⟩
    rw [emissions_cons hitem]
    cases item with
    | none =>
      obtain ⟨t', hrun, ht'⟩ := ht.visits_silent (fuel + 2) limit taken hk hread hitem
      rw [hrun]
      exact ih ht' (by omega) taken limit (by omega)
    | some item =>
      obtain ⟨limit, rfl⟩ : ∃ l, limit = l + 1 := ⟨limit - 1, by omega⟩
      obtain ⟨t', hrun, ht'⟩ := ht.visits fuel (limit + 1) taken hk hread hitem
      have hfuel' : 3 * visited.length + 2 ≤ fuel := by omega
      obtain ⟨t'', b', hrest, hend⟩ := ih ht' hfuel' (item :: taken) limit (by omega)
      refine ⟨t'', b', ?_, hend⟩
      rw [hrun, hrest, List.reverse_cons, List.append_assoc]
      rfl

/-- A drain follows the course to its end. -/
theorem Course.drain (h : Course leavesOnly pending a visited stop) {t : Traversal}
    (ht : t.Ready leavesOnly pending) (hf : Frontier a.find root [] (· ∈ pending)) :
    (t.drain a).1.1 = emissions leavesOnly visited ∧
      (t.drain a).1.2.outcome = some (ending stop) := by
  obtain ⟨left, hleft, -⟩ := h.frontier hf
  have hle := a.length_le hleft.nodup fun k hk => by
    obtain ⟨r, hr, rfl⟩ := List.mem_map.mp hk
    exact ⟨r.2, (hleft.found r hr).2⟩
  rw [List.nil_append, List.length_map] at hle
  have hbound : 3 * visited.length + 2 ≤ 2 * stepBound a + t.queue.size := by
    rw [stepBound]
    omega
  obtain ⟨t', b, hrun, hend⟩ := h.takeWith ht hbound (Nat.le_refl _) []
  rw [List.reverse_nil, List.nil_append] at hrun
  have hdrain : t.drain a = ((emissions leavesOnly visited, t'), b) := hrun
  rw [hdrain]
  exact ⟨rfl, hend⟩

end Traversal

end VersionedTrie
