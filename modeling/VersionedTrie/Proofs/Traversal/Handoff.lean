import VersionedTrie.Proofs.Traversal.Course
import Mathlib.Logic.Relation

/-! # Handing over

The worker of a traversal and its consumer share a queue of bounded length, a slot for a request to
stop and a slot for the outcome, and act on them in any order (`Handoff.Step`). The worker looks for
a request after it has taken up a node key and before it emits an item; an item that finds the queue
full waits until whatever is ready first wakes the worker: a request, room in the queue, the loss of
the consumer or the end of the time allowed. The outcome goes another way than the items, and before
the queue is closed.

What is left of the course of the traversal is known at every stage (`Handoff.Ahead`), and with it
the items that the worker would still emit. The invariant `Handoff.Orderly` says that they make up,
with what has been queued, all that the traversal emits, and that an outcome which has been reported
is in one place.
-/

set_option autoImplicit false

namespace VersionedTrie

namespace Traversal

/-- Where the worker is. -/
inductive Stage where
  | looping
  /-- It has taken up a node key, and looks whether it is to stop. -/
  | popped (k : NodeKey)
  | reading (k : NodeKey)
  /-- It has an item to emit, and looks whether it is to stop. -/
  | offering (item : Item)
  | trying (item : Item)
  /-- It has found the queue full. -/
  | waiting (item : Item)
  | returned (outcome : Outcome)
  | reported (outcome : Outcome)
  /-- It has closed the queue and the slot of the outcome. -/
  | gone (outcome : Outcome)

namespace Stage

def key? : Stage → Option NodeKey
  | popped k | reading k => some k
  | _ => none

def item? : Stage → Option Item
  | offering item | trying item | waiting item => some item
  | _ => none

/-- The item that may be queued in the next step. -/
def sending? : Stage → Option Item
  | trying item | waiting item => some item
  | _ => none

def outcome? : Stage → Option Outcome
  | returned outcome | reported outcome | gone outcome => some outcome
  | _ => none

def reported? : Stage → Option Outcome
  | reported outcome | gone outcome => some outcome
  | _ => none

/-- Whether a request to stop is seen in the next step. -/
def heeds : Stage → Bool
  | popped _ | offering _ | waiting _ => true
  | _ => false

/-- After a visit: an item is emitted, if there is one. -/
def next : Option Item → Stage
  | none => looping
  | some item => offering item

/-- A bound on what a stage has to do before the next visit. -/
def toil : Stage → Nat
  | looping => 5
  | popped _ => 4
  | reading _ => 3
  | offering _ => 9
  | trying _ => 8
  | waiting _ => 7
  | returned _ => 2
  | reported _ => 1
  | gone _ => 0

variable {stage : Stage} {item : Item} {outcome : Outcome}

theorem item?_of_sending? (h : stage.sending? = some item) : stage.item? = some item := by
  cases stage <;> first | exact h | cases h

theorem key?_of_item? (h : stage.item? = some item) : stage.key? = none := by
  cases stage <;> first | rfl | cases h

theorem toil_of_sending? (h : stage.sending? = some item) : 7 ≤ stage.toil := by
  cases stage with
  | trying => exact Nat.le_succ 7
  | waiting => exact Nat.le_refl 7
  | _ => cases h

theorem toil_of_outcome? (h : stage.outcome? = none) : 2 < stage.toil := by
  cases stage <;> first | (simp [toil]; done) | cases h

theorem outcome?_of_item? (h : stage.item? = some item) : stage.outcome? = none := by
  cases stage <;> first | rfl | cases h

theorem outcome?_of_key? {k : NodeKey} (h : stage.key? = some k) : stage.outcome? = none := by
  cases stage <;> first | rfl | cases h

theorem outcome?_of_heeds (h : stage.heeds = true) : stage.outcome? = none := by
  cases stage <;> first | rfl | cases h

theorem outcome?_of_reported? (h : stage.reported? = some outcome) :
    stage.outcome? = some outcome := by
  cases stage <;> first | exact h | cases h

theorem reported?_of_outcome? (h : stage.outcome? = none) : stage.reported? = none := by
  cases stage <;> first | rfl | cases h

end Stage

/-- What a drain learns of the outcome. -/
inductive Report where
  | outcome (outcome : Outcome)
  /-- The slot was closed, and empty. -/
  | unreported

/-- A drain under way. -/
structure Drain where
  items : List Item
  /-- Whether it still waits for items. -/
  listening : Bool
  report : Option Report

def Drain.outcome? (d : Drain) : Option Outcome :=
  match d.report with
  | some (.outcome outcome) => some outcome
  | _ => none

/-- A traversal that is handed over. -/
structure Handoff where
  stage : Stage
  pending : NodeSet
  /-- What the worker reads through. -/
  access : Access
  /-- The items that have been queued and not received; if the queue has been dropped, those that
  were in it. -/
  queue : List Item
  dropped : Bool
  stop : Bool
  status : Option Outcome
  /-- Every outcome that has been put into the slot. -/
  reports : List Outcome
  /-- The items that the consumer has received by itself, apart from a drain. -/
  received : List Item
  /-- The outcome that the consumer has taken by itself. -/
  taken : Option Outcome
  drain : Option Drain

namespace Handoff

def collected (s : Handoff) : List Item := s.drain.elim [] (·.items)

/-- Everything that has been queued so far, whether it has been received or not. -/
def enqueued (s : Handoff) : List Item := s.received ++ s.collected ++ s.queue

def start (root : Option NodeKey) (o : TraversalOptions) (a : Access) : Handoff where
  stage := .looping
  pending := (ofRoot root o).pending
  access := a
  queue := []
  dropped := false
  stop := false
  status := none
  reports := []
  received := []
  taken := none
  drain := none

/-! ## Steps -/

/-- What the worker can do. -/
inductive Works (o : TraversalOptions) (s : Handoff) : Handoff → Prop
  | completes (h : s.stage = .looping) (hmax : s.pending.max? = none) :
    Works o s { s with stage := .returned .completed }
  | pops {k : NodeKey} (h : s.stage = .looping) (hk : s.pending.max? = some k) :
    Works o s { s with stage := .popped k, pending := s.pending.erase k }
  | passes {k : NodeKey} (h : s.stage = .popped k) (hstop : s.stop = false) :
    Works o s { s with stage := .reading k }
  | fails {k : NodeKey} {e : Error} {b : Access} (h : s.stage = .reading k)
    (hread : readThroughCache k s.access = (.error e, b)) :
    Works o s { s with stage := .returned (.failed e), access := b }
  | rejects {k : NodeKey} {x : Node} {e : Error} {b : Access} (h : s.stage = .reading k)
    (hread : readThroughCache k s.access = (.ok x, b))
    (hitem : emission o.leavesOnly k x = .error e) :
    Works o s { s with stage := .returned (.failed e), access := b }
  | visits {k : NodeKey} {x : Node} {item : Option Item} {b : Access} (h : s.stage = .reading k)
    (hread : readThroughCache k s.access = (.ok x, b))
    (hitem : emission o.leavesOnly k x = .ok item) :
    Works o s { s with
      stage := .next item
      pending := (childKeys k x).foldl (fun s k => s.insert k) s.pending
      access := b }
  | attempts {item : Item} (h : s.stage = .offering item) (hstop : s.stop = false) :
    Works o s { s with stage := .trying item }
  | sends {item : Item} (h : s.stage.sending? = some item) (hopen : s.dropped = false)
    (hroom : s.queue.length < max 1 o.capacity) :
    Works o s { s with stage := .looping, queue := s.queue ++ [item] }
  | waits {item : Item} (h : s.stage = .trying item) (hopen : s.dropped = false)
    (hfull : max 1 o.capacity ≤ s.queue.length) :
    Works o s { s with stage := .waiting item }
  | heeds (h : s.stage.heeds = true) (hstop : s.stop = true) :
    Works o s { s with stage := .returned (.cut .interrupted), stop := false }
  | refused {item : Item} (h : s.stage.sending? = some item) (hdropped : s.dropped = true) :
    Works o s { s with stage := .returned (.cut .interrupted) }
  /-- The time allowed ends; the queue has been found full before. -/
  | expires {item : Item} (h : s.stage.sending? = some item) (htimed : o.timeout.isSome = true)
    (hfull : s.stage = .trying item → s.dropped = false ∧ max 1 o.capacity ≤ s.queue.length) :
    Works o s { s with stage := .returned (.cut .timedOut) }
  | reports {outcome : Outcome} (h : s.stage = .returned outcome) :
    Works o s { s with
      stage := .reported outcome
      status := some outcome
      reports := s.reports ++ [outcome] }
  | leaves {outcome : Outcome} (h : s.stage = .reported outcome) :
    Works o s { s with stage := .gone outcome }

/-- A request to stop; a second one finds the slot taken. -/
def asked (s : Handoff) : Handoff := { s with stop := true }

/-- What the consumer can do. -/
inductive Acts (s : Handoff) : Handoff → Prop
  | receives {item : Item} {rest : List Item} (hopen : s.dropped = false) (hd : s.drain = none)
    (hq : s.queue = item :: rest) :
    Acts s { s with queue := rest, received := s.received ++ [item] }
  | stops : Acts s s.asked
  | takes {outcome : Outcome} (hd : s.drain = none) (h : s.status = some outcome) :
    Acts s { s with status := none, taken := some outcome }
  | drops (hd : s.drain = none) : Acts s { s with dropped := true }
  | drains (hopen : s.dropped = false) (hd : s.drain = none) :
    Acts s { s with drain := some ⟨[], true, none⟩ }

/-- What a drain can do. -/
inductive Drains (s : Handoff) : Handoff → Prop
  | receives {d : Drain} {item : Item} {rest : List Item} (hd : s.drain = some d)
    (hl : d.listening = true) (hq : s.queue = item :: rest) :
    Drains s { s with queue := rest, drain := some { d with items := d.items ++ [item] } }
  | closed {d : Drain} {outcome : Outcome} (hd : s.drain = some d) (hl : d.listening = true)
    (hq : s.queue = []) (hgone : s.stage = .gone outcome) :
    Drains s { s with drain := some { d with listening := false } }
  | told {d : Drain} {outcome : Outcome} (hd : s.drain = some d) (hr : d.report = none)
    (h : s.status = some outcome) :
    Drains s { s with status := none, drain := some { d with report := some (.outcome outcome) } }
  | untold {d : Drain} {outcome : Outcome} (hd : s.drain = some d) (hr : d.report = none)
    (h : s.status = none) (hgone : s.stage = .gone outcome) :
    Drains s { s with drain := some { d with report := some .unreported } }

inductive Step (o : TraversalOptions) (s s' : Handoff) : Prop
  | works (h : Works o s s')
  | acts (h : Acts s s')
  | drains (h : Drains s s')

/-- The states that may follow. -/
def Leads (o : TraversalOptions) : Handoff → Handoff → Prop := Relation.ReflTransGen (Step o)

variable {o : TraversalOptions} {s s' : Handoff} {visited : List (NodeKey × Node)}
  {rest full : List Item} {final : Outcome}

/-! ## What each side leaves alone -/

theorem Works.frame (h : Works o s s') : s'.received = s.received ∧ s'.dropped = s.dropped ∧
    s'.taken = s.taken ∧ s'.drain = s.drain := by
  cases h <;> exact ⟨rfl, rfl, rfl, rfl⟩

/-- The worker queues the item it holds, where there is room, or leaves the queue alone. -/
theorem Works.queue (h : Works o s s') : s'.queue = s.queue ∨
    ∃ item, s.stage.sending? = some item ∧ s'.stage = .looping ∧ s'.stop = s.stop ∧
      s.queue.length < max 1 o.capacity ∧ s'.queue = s.queue ++ [item] := by
  cases h with
  | sends h hopen hroom => exact .inr ⟨_, h, rfl, rfl, hroom, rfl⟩
  | _ => exact .inl rfl

theorem Works.enqueued (h : Works o s s') : s'.enqueued = s.enqueued ∨
    ∃ item, s.stage.sending? = some item ∧ s'.stage = .looping ∧ s'.stop = s.stop ∧
      s'.enqueued = s.enqueued ++ [item] := by
  obtain ⟨hreceived, -, -, hdrain⟩ := h.frame
  rw [Handoff.enqueued, Handoff.enqueued, collected, collected, hreceived, hdrain]
  obtain hq | ⟨item, hitem, hstage, hstop, -, hq⟩ := h.queue
  · exact .inl (by rw [hq])
  · exact .inr ⟨item, hitem, hstage, hstop, by rw [hq, ← List.append_assoc]⟩

/-- The worker says nothing before it has an outcome; then it reports it, and leaves. -/
theorem Works.outcome (h : Works o s s') :
    (s.stage.outcome? = none ∧ s'.stage.reported? = none ∧ s'.status = s.status ∧
      s'.reports = s.reports) ∨
    (∃ outcome, s.stage = .returned outcome ∧ s' = { s with
      stage := .reported outcome
      status := some outcome
      reports := s.reports ++ [outcome] }) ∨
    ∃ outcome, s.stage = .reported outcome ∧ s' = { s with stage := .gone outcome } := by
  have hquiet : s.stage.outcome? = none → s'.stage.reported? = none → s'.status = s.status →
      s'.reports = s.reports → s.stage.outcome? = none ∧ s'.stage.reported? = none ∧
        s'.status = s.status ∧ s'.reports = s.reports :=
    fun h₁ h₂ h₃ h₄ => ⟨h₁, h₂, h₃, h₄⟩
  cases h with
  | completes h => exact .inl (hquiet (by rw [h]; rfl) rfl rfl rfl)
  | pops h => exact .inl (hquiet (by rw [h]; rfl) rfl rfl rfl)
  | passes h => exact .inl (hquiet (by rw [h]; rfl) rfl rfl rfl)
  | fails h => exact .inl (hquiet (by rw [h]; rfl) rfl rfl rfl)
  | rejects h => exact .inl (hquiet (by rw [h]; rfl) rfl rfl rfl)
  | @visits k x item b h => exact .inl (hquiet (by rw [h]; rfl) (by cases item <;> rfl) rfl rfl)
  | attempts h => exact .inl (hquiet (by rw [h]; rfl) rfl rfl rfl)
  | sends h =>
    exact .inl (hquiet (Stage.outcome?_of_item? (Stage.item?_of_sending? h)) rfl rfl rfl)
  | waits h => exact .inl (hquiet (by rw [h]; rfl) rfl rfl rfl)
  | heeds h => exact .inl (hquiet (Stage.outcome?_of_heeds h) rfl rfl rfl)
  | refused h =>
    exact .inl (hquiet (Stage.outcome?_of_item? (Stage.item?_of_sending? h)) rfl rfl rfl)
  | expires h =>
    exact .inl (hquiet (Stage.outcome?_of_item? (Stage.item?_of_sending? h)) rfl rfl rfl)
  | reports h => exact .inr (.inl ⟨_, h, rfl⟩)
  | leaves h => exact .inr (.inr ⟨_, h, rfl⟩)

/-- Whatever the consumer does, the worker is where it was, and as much has been queued. -/
theorem consumer_frame (h : Acts s s' ∨ Drains s s') : s'.stage = s.stage ∧
    s'.pending = s.pending ∧ s'.access = s.access ∧ s'.reports = s.reports ∧
      s'.enqueued = s.enqueued ∧ s'.queue.length ≤ s.queue.length := by
  obtain h | h := h
  · cases h with
    | receives hopen hd hq => simp [enqueued, collected, hd, hq]
    | stops => exact ⟨rfl, rfl, rfl, rfl, rfl, Nat.le_refl _⟩
    | takes => exact ⟨rfl, rfl, rfl, rfl, rfl, Nat.le_refl _⟩
    | drops => exact ⟨rfl, rfl, rfl, rfl, rfl, Nat.le_refl _⟩
    | drains hopen hd => simp [enqueued, collected, hd]
  · cases h with
    | receives hd hl hq => simp [enqueued, collected, hd, hq]
    | closed hd => simp [enqueued, collected, hd]
    | told hd => simp [enqueued, collected, hd]
    | untold hd => simp [enqueued, collected, hd]

/-! ## What is left of the course -/

/-- Left to itself, the worker would visit these nodes yet, emit these items and end so. -/
inductive Ahead (leavesOnly : Bool) (s : Handoff) :
    List (NodeKey × Node) → List Item → Outcome → Prop
  | looping {visited : List (NodeKey × Node)} {stop : Option (NodeKey × Error)}
    (hs : s.stage = .looping) (h : Course leavesOnly s.pending s.access visited stop) :
    Ahead leavesOnly s visited (emissions leavesOnly visited) (ending stop)
  | taken {k : NodeKey} {pending : NodeSet} {visited : List (NodeKey × Node)}
    {stop : Option (NodeKey × Error)} (hs : s.stage.key? = some k) (hk : pending.max? = some k)
    (hp : s.pending = pending.erase k) (h : Course leavesOnly pending s.access visited stop) :
    Ahead leavesOnly s visited (emissions leavesOnly visited) (ending stop)
  | emitting {item : Item} {visited : List (NodeKey × Node)} {stop : Option (NodeKey × Error)}
    (hs : s.stage.item? = some item) (h : Course leavesOnly s.pending s.access visited stop) :
    Ahead leavesOnly s visited (item :: emissions leavesOnly visited) (ending stop)

section Ahead

variable {leavesOnly : Bool} (h : Ahead leavesOnly s visited rest final)
include h

theorem Ahead.of_looping (hs : s.stage = .looping) :
    ∃ stop, Course leavesOnly s.pending s.access visited stop ∧
      rest = emissions leavesOnly visited ∧ final = ending stop := by
  cases h with
  | looping _ hc => exact ⟨_, hc, rfl, rfl⟩
  | taken hk =>
    rw [hs] at hk
    cases hk
  | emitting hi =>
    rw [hs] at hi
    cases hi

theorem Ahead.of_key {k : NodeKey} (hs : s.stage.key? = some k) :
    ∃ pending stop, pending.max? = some k ∧ s.pending = pending.erase k ∧
      Course leavesOnly pending s.access visited stop ∧ rest = emissions leavesOnly visited ∧
      final = ending stop := by
  cases h with
  | looping hl =>
    rw [hl] at hs
    cases hs
  | taken hk hmax hp hc =>
    obtain rfl := Option.some.inj (hk.symm.trans hs)
    exact ⟨_, _, hmax, hp, hc, rfl, rfl⟩
  | emitting hi =>
    rw [Stage.key?_of_item? hi] at hs
    cases hs

theorem Ahead.of_item {item : Item} (hs : s.stage.item? = some item) :
    ∃ stop, Course leavesOnly s.pending s.access visited stop ∧
      rest = item :: emissions leavesOnly visited ∧ final = ending stop := by
  cases h with
  | looping hl =>
    rw [hl] at hs
    cases hs
  | taken hk =>
    rw [Stage.key?_of_item? hs] at hk
    cases hk
  | emitting hi hc =>
    obtain rfl := Option.some.inj (hi.symm.trans hs)
    exact ⟨_, hc, rfl, rfl⟩

theorem Ahead.outcome?_eq_none : s.stage.outcome? = none := by
  cases h with
  | looping hl =>
    rw [hl]
    rfl
  | taken hk => exact Stage.outcome?_of_key? hk
  | emitting hi => exact Stage.outcome?_of_item? hi

theorem Ahead.congr (hstage : s'.stage = s.stage) (hpending : s'.pending = s.pending)
    (haccess : s'.access = s.access) : Ahead leavesOnly s' visited rest final := by
  cases h with
  | looping hl hc => exact .looping (hstage.trans hl) (by rwa [hpending, haccess])
  | taken hk hmax hp hc =>
    exact .taken (by rwa [hstage]) hmax (hpending.trans hp) (by rwa [haccess])
  | emitting hi hc => exact .emitting (by rwa [hstage]) (by rwa [hpending, haccess])

end Ahead

/-- What a step of the worker makes of what is left: it comes nearer to the end, or it ends. -/
theorem Works.ahead (hw : Works o s s') (h : Ahead o.leavesOnly s visited rest final) :
    (∃ visited' rest', Ahead o.leavesOnly s' visited' rest' final ∧
      s'.enqueued ++ rest' = s.enqueued ++ rest ∧
      8 * visited'.length + s'.stage.toil + s'.queue.length <
        8 * visited.length + s.stage.toil + s.queue.length) ∨
    ∃ outcome, s'.stage = .returned outcome ∧ s'.queue = s.queue ∧
      ((∃ cutoff, outcome = .cut cutoff) ∨ outcome = final ∧ rest = []) := by
  cases hw with
  | completes hs hmax =>
    obtain ⟨stop, hc, rfl, rfl⟩ := h.of_looping hs
    obtain ⟨rfl, rfl⟩ := hc.of_none hmax
    exact .inr ⟨_, rfl, rfl, .inr ⟨rfl, rfl⟩⟩
  | pops hs hk =>
    obtain ⟨stop, hc, rfl, rfl⟩ := h.of_looping hs
    refine .inl ⟨_, _, .taken rfl hk rfl hc, rfl, ?_⟩
    simp [hs, Stage.toil]
  | passes hs =>
    obtain ⟨pending, stop, hk, hp, hc, rfl, rfl⟩ := h.of_key (by rw [hs]; rfl)
    refine .inl ⟨_, _, .taken rfl hk hp hc, rfl, ?_⟩
    simp [hs, Stage.toil]
  | fails hs hread =>
    obtain ⟨pending, stop, hk, hp, hc, rfl, rfl⟩ := h.of_key (by rw [hs]; rfl)
    obtain ⟨rfl, rfl⟩ := hc.of_error hk hread
    exact .inr ⟨_, rfl, rfl, .inr ⟨rfl, rfl⟩⟩
  | rejects hs hread hitem =>
    obtain ⟨pending, stop, hk, hp, hc, rfl, rfl⟩ := h.of_key (by rw [hs]; rfl)
    obtain ⟨rfl, rfl⟩ := hc.of_unfit hk hread hitem
    exact .inr ⟨_, rfl, rfl, .inr ⟨rfl, rfl⟩⟩
  | @visits k x item b hs hread hitem =>
    obtain ⟨pending, stop, hk, hp, hc, rfl, rfl⟩ := h.of_key (by rw [hs]; rfl)
    obtain ⟨later, rfl, hlater⟩ := hc.of_visit hk hread hitem
    rw [hp, emissions_cons hitem]
    cases item with
    | none =>
      refine .inl ⟨_, _, .looping rfl hlater, rfl, ?_⟩
      simp only [hs, Stage.toil, Stage.next, List.length_cons]
      omega
    | some item =>
      refine .inl ⟨_, _, .emitting rfl hlater, rfl, ?_⟩
      simp only [hs, Stage.toil, Stage.next, List.length_cons]
      omega
  | attempts hs =>
    obtain ⟨stop, hc, rfl, rfl⟩ := h.of_item (by rw [hs]; rfl)
    refine .inl ⟨_, _, .emitting rfl hc, rfl, ?_⟩
    simp [hs, Stage.toil]
  | @sends item hs hopen hroom =>
    obtain ⟨stop, hc, rfl, rfl⟩ := h.of_item (Stage.item?_of_sending? hs)
    refine .inl ⟨_, _, .looping rfl hc, ?_, ?_⟩
    · simp [Handoff.enqueued, collected]
    · have htoil := Stage.toil_of_sending? hs
      show 8 * visited.length + 5 + (s.queue ++ [item]).length < _
      rw [List.length_append, List.length_singleton]
      omega
  | waits hs =>
    obtain ⟨stop, hc, rfl, rfl⟩ := h.of_item (by rw [hs]; rfl)
    refine .inl ⟨_, _, .emitting rfl hc, rfl, ?_⟩
    simp [hs, Stage.toil]
  | heeds => exact .inr ⟨_, rfl, rfl, .inl ⟨_, rfl⟩⟩
  | refused => exact .inr ⟨_, rfl, rfl, .inl ⟨_, rfl⟩⟩
  | expires => exact .inr ⟨_, rfl, rfl, .inl ⟨_, rfl⟩⟩
  | reports hs =>
    have hnone := h.outcome?_eq_none
    rw [hs] at hnone
    cases hnone
  | leaves hs =>
    have hnone := h.outcome?_eq_none
    rw [hs] at hnone
    cases hnone

/-! ## The invariant -/

/-- What is true of a traversal that is handed over, of which all is `full` and the end is `final`
unless it is cut short. -/
structure Orderly (o : TraversalOptions) (full : List Item) (final : Outcome) (s : Handoff) :
    Prop where
  ahead : s.stage.outcome? = none →
    ∃ visited rest, Ahead o.leavesOnly s visited rest final ∧ s.enqueued ++ rest = full
  ended : ∀ outcome, s.stage.outcome? = some outcome →
    (∃ cutoff, outcome = .cut cutoff) ∧ s.enqueued <+: full ∨ outcome = final ∧ s.enqueued = full
  roomy : s.queue.length ≤ max 1 o.capacity
  reports : s.reports = s.stage.reported?.toList
  /-- The outcome is in the slot, or has gone to the consumer or its drain. -/
  learnt : s.status.toList ++ s.taken.toList ++ (s.drain.bind Drain.outcome?).toList = s.reports
  draining : ∀ d, s.drain = some d → s.dropped = false ∧
    (d.listening = false → s.queue = [] ∧ ∃ outcome, s.stage = .gone outcome) ∧
    (d.report = some .unreported → s.taken ≠ none)

theorem orderly_start {root : Option NodeKey} {a : Access} {stop : Option (NodeKey × Error)}
    (h : Course o.leavesOnly (ofRoot root o).pending a visited stop) :
    Orderly o (emissions o.leavesOnly visited) (ending stop) (start root o a) where
  ahead _ := ⟨_, _, .looping rfl h, rfl⟩
  ended := nofun
  roomy := Nat.zero_le _
  reports := rfl
  learnt := rfl
  draining := nofun

/-- Everything that has been queued is the beginning of what the traversal emits. -/
theorem Orderly.prefixed (h : s.Orderly o full final) : s.enqueued <+: full := by
  cases hout : s.stage.outcome? with
  | none =>
    obtain ⟨visited, rest, -, hfull⟩ := h.ahead hout
    exact ⟨rest, hfull⟩
  | some outcome =>
    obtain ⟨-, hprefix⟩ | ⟨-, hfull⟩ := h.ended outcome hout
    · exact hprefix
    · exact hfull ▸ List.prefix_rfl

/-- An outcome that is in the slot is nowhere else. -/
theorem Orderly.slot (h : s.Orderly o full final) {outcome : Outcome}
    (hs : s.status = some outcome) :
    s.reports = [outcome] ∧ s.taken = none ∧ s.drain.bind Drain.outcome? = none := by
  have hlearnt := h.learnt
  rw [hs, h.reports] at hlearnt
  rw [h.reports]
  cases hr : s.stage.reported? with
  | none =>
    rw [hr] at hlearnt
    cases hlearnt
  | some outcome' =>
    rw [hr] at hlearnt
    obtain ⟨rfl, hrest⟩ := List.cons.inj hlearnt
    have hnone : s.taken.toList ++ (s.drain.bind Drain.outcome?).toList = [] := hrest
    rw [List.append_eq_nil_iff, Option.toList_eq_nil_iff, Option.toList_eq_nil_iff] at hnone
    exact ⟨rfl, hnone⟩

/-- A worker that is gone does nothing. -/
theorem Works.stage_ne_gone {outcome : Outcome} (h : Works o s s') : s.stage ≠ .gone outcome := by
  intro hs
  obtain ⟨hnone, -⟩ | ⟨_, hreturned, -⟩ | ⟨_, hreported, -⟩ := h.outcome
  · rw [hs] at hnone
    cases hnone
  · cases hs.symm.trans hreturned
  · cases hs.symm.trans hreported

theorem Orderly.draining_works (h : s.Orderly o full final) (hw : Works o s s') (d : Drain)
    (hd : s'.drain = some d) : s'.dropped = false ∧
      (d.listening = false → s'.queue = [] ∧ ∃ outcome, s'.stage = .gone outcome) ∧
      (d.report = some .unreported → s'.taken ≠ none) := by
  obtain ⟨-, hdropped, htaken, hdrain⟩ := hw.frame
  obtain ⟨hopen, hlistening, hreport⟩ := h.draining d (hdrain.symm.trans hd)
  refine ⟨hdropped.trans hopen, fun hl => ?_, by rwa [htaken]⟩
  obtain ⟨-, outcome, hgone⟩ := hlistening hl
  exact absurd hgone hw.stage_ne_gone

/-- The worker queues the next item or comes to its end, as it would if it were left alone, or cut
short. -/
theorem Orderly.ahead_works (h : s.Orderly o full final) (hw : Works o s s')
    (hnone : s.stage.outcome? = none) :
    (s'.stage.outcome? = none →
      ∃ visited rest, Ahead o.leavesOnly s' visited rest final ∧ s'.enqueued ++ rest = full) ∧
    ∀ outcome, s'.stage.outcome? = some outcome →
      (∃ cutoff, outcome = .cut cutoff) ∧ s'.enqueued <+: full ∨
        outcome = final ∧ s'.enqueued = full := by
  obtain ⟨visited, rest, hahead, hfull⟩ := h.ahead hnone
  obtain ⟨visited', rest', hahead', hfull', -⟩ | ⟨outcome, hs, hq, hwhy⟩ := hw.ahead hahead
  · refine ⟨fun _ => ⟨visited', rest', hahead', hfull'.trans hfull⟩, fun outcome hout => ?_⟩
    cases hahead'.outcome?_eq_none.symm.trans hout
  · obtain ⟨hreceived, -, -, hdrain⟩ := hw.frame
    have henqueued : s'.enqueued = s.enqueued := by
      rw [enqueued, enqueued, collected, collected, hreceived, hdrain, hq]
    rw [hs, henqueued]
    refine ⟨nofun, fun outcome' hout => ?_⟩
    obtain rfl : outcome = outcome' := Option.some.inj hout
    obtain hcut | ⟨rfl, rfl⟩ := hwhy
    · exact .inl ⟨hcut, h.prefixed⟩
    · exact .inr ⟨rfl, by rwa [List.append_nil] at hfull⟩

theorem Orderly.works (h : s.Orderly o full final) (hw : Works o s s') :
    s'.Orderly o full final := by
  have hdraining := h.draining_works hw
  have hroomy : s'.queue.length ≤ max 1 o.capacity := by
    obtain hq | ⟨item, -, -, -, hroom, hq⟩ := hw.queue
    · exact hq ▸ h.roomy
    · rw [hq, List.length_append, List.length_singleton]
      exact hroom
  obtain ⟨hnone, hquiet, hstatus, hreports⟩ | ⟨outcome, hs, rfl⟩ | ⟨outcome, hs, rfl⟩ := hw.outcome
  · -- the worker has had no outcome, and has not reported any
    obtain ⟨hahead, hended⟩ := h.ahead_works hw hnone
    obtain ⟨-, -, htaken, hdrain⟩ := hw.frame
    refine ⟨hahead, hended, hroomy, ?_, ?_, hdraining⟩
    · rw [hreports, hquiet, h.reports, Stage.reported?_of_outcome? hnone]
    · rw [hstatus, htaken, hdrain, hreports]
      exact h.learnt
  · have hreports : s.reports = [] := by
      rw [h.reports, hs]
      rfl
    have hlearnt := h.learnt
    rw [hreports, List.append_eq_nil_iff, List.append_eq_nil_iff] at hlearnt
    refine ⟨nofun, fun outcome' h' => ?_, hroomy, ?_, ?_, hdraining⟩
    · obtain rfl : outcome = outcome' := Option.some.inj h'
      exact h.ended outcome (by rw [hs]; rfl)
    · rw [hreports]
      rfl
    · rw [hlearnt.1.2, hlearnt.2, hreports]
      rfl
  · refine ⟨nofun, fun outcome' h' => ?_, hroomy, ?_, h.learnt, hdraining⟩
    · obtain rfl : outcome = outcome' := Option.some.inj h'
      exact h.ended outcome (by rw [hs]; rfl)
    · rw [h.reports, hs]
      rfl

/-- Receiving moves items, and taking moves the outcome. -/
theorem Orderly.learnt_consumer (h : s.Orderly o full final) (hw : Acts s s' ∨ Drains s s') :
    s'.status.toList ++ s'.taken.toList ++ (s'.drain.bind Drain.outcome?).toList = s'.reports := by
  have hlearnt := h.learnt
  obtain hw | hw := hw
  · cases hw with
    | receives => exact hlearnt
    | stops => exact hlearnt
    | takes hd hs =>
      obtain ⟨hreports, -, hdrain⟩ := h.slot hs
      rw [hdrain, hreports]
      rfl
    | drops => exact hlearnt
    | drains hopen hd =>
      rw [hd] at hlearnt
      exact hlearnt
  · cases hw with
    | receives hd =>
      rw [hd] at hlearnt
      exact hlearnt
    | closed hd =>
      rw [hd] at hlearnt
      exact hlearnt
    | told hd hr hs =>
      obtain ⟨hreports, htaken, -⟩ := h.slot hs
      rw [htaken, hreports]
      rfl
    | @untold d outcome hd hr hs =>
      have hnone : d.outcome? = none := by
        rw [Drain.outcome?, hr]
      rw [hd, Option.bind_some, hnone] at hlearnt
      exact hlearnt

/-- A drain stops listening behind the last item, and finds no outcome only if that has been taken
before. -/
theorem Orderly.draining_consumer (h : s.Orderly o full final) (hw : Acts s s' ∨ Drains s s') :
    ∀ d, s'.drain = some d → s'.dropped = false ∧
      (d.listening = false → s'.queue = [] ∧ ∃ outcome, s'.stage = .gone outcome) ∧
      (d.report = some .unreported → s'.taken ≠ none) := by
  have hdraining := h.draining
  obtain hw | hw := hw
  · cases hw with
    | receives hopen hd =>
      intro d hd'
      cases hd.symm.trans hd'
    | stops => exact hdraining
    | takes hd =>
      intro d hd'
      cases hd.symm.trans hd'
    | drops hd =>
      intro d hd'
      cases hd.symm.trans hd'
    | drains hopen =>
      rintro _ ⟨⟩
      exact ⟨hopen, nofun, nofun⟩
  · cases hw with
    | receives hd hl hq =>
      obtain ⟨hopen, -, hreport⟩ := hdraining _ hd
      rintro _ ⟨⟩
      refine ⟨hopen, fun hl' => ?_, hreport⟩
      cases hl.symm.trans hl'
    | closed hd hl hq hgone =>
      obtain ⟨hopen, -, hreport⟩ := hdraining _ hd
      rintro _ ⟨⟩
      exact ⟨hopen, fun _ => ⟨hq, _, hgone⟩, hreport⟩
    | told hd hr hs =>
      obtain ⟨hopen, hlistening, -⟩ := hdraining _ hd
      rintro _ ⟨⟩
      exact ⟨hopen, hlistening, nofun⟩
    | @untold d outcome hd hr hs hgone =>
      obtain ⟨hopen, hlistening, -⟩ := hdraining _ hd
      rintro _ ⟨⟩
      refine ⟨hopen, hlistening, fun _ htaken => ?_⟩
      -- the outcome has been reported, so it is somewhere
      have hnone : d.outcome? = none := by
        rw [Drain.outcome?, hr]
      have hlearnt := h.learnt
      rw [hs, show s.taken = none from htaken, hd, Option.bind_some, hnone, h.reports,
        hgone] at hlearnt
      cases hlearnt

theorem Orderly.consumer (h : s.Orderly o full final) (hw : Acts s s' ∨ Drains s s') :
    s'.Orderly o full final := by
  obtain ⟨hstage, hpending, haccess, hreports, henqueued, hqueue⟩ := consumer_frame hw
  constructor
  case ahead =>
    intro hnone
    obtain ⟨visited, rest, hahead, hfull⟩ := h.ahead (hstage ▸ hnone)
    exact ⟨visited, rest, hahead.congr hstage hpending haccess, henqueued ▸ hfull⟩
  case ended =>
    rw [hstage, henqueued]
    exact h.ended
  case roomy => exact Nat.le_trans hqueue h.roomy
  case reports => rw [hreports, hstage, h.reports]
  case learnt => exact h.learnt_consumer hw
  case draining => exact h.draining_consumer hw

theorem Orderly.step (h : s.Orderly o full final) (hs : Step o s s') : s'.Orderly o full final := by
  cases hs with
  | works hw => exact h.works hw
  | acts hw => exact h.consumer (.inl hw)
  | drains hw => exact h.consumer (.inr hw)

theorem Orderly.leads (h : s.Orderly o full final) (hs : Leads o s s') :
    s'.Orderly o full final := by
  induction hs with
  | refl => exact h
  | tail _ hstep ih => exact ih.step hstep

end Handoff

end Traversal

end VersionedTrie
