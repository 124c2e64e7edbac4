import VersionedTrie.Proofs.Traversal.Handoff
import VersionedTrie.Proofs.Traversal.Listing
import VersionedTrie.Proofs.Replication.Copy

/-! # What the consumer gets

Whatever the interleaving, a consumer gets what the traversal emits, in order, and one outcome
(`Handoff.hands_over`). A request to stop is passed by at most once, so it lets through one item at
most (`Handoff.Stopping`). A drain comes to its end: until then it or the worker can go on, and
whichever does makes `Handoff.debt` less (`Handoff.Returns`). On any store and from any root, the
worker and the drain can take turns until all has come out (`Handoff.exists_drained`).

The traversals that are run in turns (`Sweep.run`) are among those that are handed over: a step of
theirs is some steps of the worker, the consumer or the clock (`Handoff.Mirrors`).
-/

set_option autoImplicit false

namespace VersionedTrie

namespace Traversal

namespace Handoff

variable {o : TraversalOptions} {s s' : Handoff} {visited : List (NodeKey × Node)}
  {full : List Item} {final outcome : Outcome} {d : Drain}

/-! ## What is queued from now on -/

theorem Step.enqueued (h : Step o s s') : s'.enqueued = s.enqueued ∨
    ∃ item, s.stage.sending? = some item ∧ s'.stage = .looping ∧ s'.stop = s.stop ∧
      s'.enqueued = s.enqueued ++ [item] := by
  cases h with
  | works h => exact h.enqueued
  | acts h => exact .inl (consumer_frame (.inl h)).2.2.2.2.1
  | drains h => exact .inl (consumer_frame (.inr h)).2.2.2.2.1

theorem Leads.enqueued (h : Leads o s s') : s.enqueued <+: s'.enqueued := by
  induction h with
  | refl => exact List.prefix_rfl
  | tail _ hstep ih =>
    obtain hsame | ⟨item, -, -, -, hitem⟩ := hstep.enqueued
    · exact hsame ▸ ih
    · exact hitem ▸ ih.trans (List.prefix_append _ _)

/-- Once an outcome has been reported, nothing more is reported or queued. -/
theorem Leads.silent (h : Leads o s s') (hs : s.stage.reported? = some outcome) :
    s'.stage.reported? = some outcome ∧ s'.reports = s.reports ∧ s'.enqueued = s.enqueued := by
  induction h with
  | refl => exact ⟨hs, rfl, rfl⟩
  | tail _ hstep ih =>
    obtain ⟨hs, hreports, henqueued⟩ := ih
    rw [← hreports, ← henqueued]
    cases hstep with
    | works hw =>
      obtain ⟨hnone, -⟩ | ⟨outcome', hret, -⟩ | ⟨outcome', hrep, rfl⟩ := hw.outcome
      · cases hnone.symm.trans (Stage.outcome?_of_reported? hs)
      · rw [hret] at hs
        cases hs
      · rw [hrep] at hs
        exact ⟨hs, rfl, rfl⟩
    | acts hw =>
      obtain ⟨hstage, -, -, hreports', henqueued', -⟩ := consumer_frame (.inl hw)
      exact ⟨hstage ▸ hs, hreports', henqueued'⟩
    | drains hw =>
      obtain ⟨hstage, -, -, hreports', henqueued', -⟩ := consumer_frame (.inr hw)
      exact ⟨hstage ▸ hs, hreports', henqueued'⟩

/-- The worker is about to see a request to stop, or has ended; only an item that has passed the
request by may still be queued. -/
def Stopping (n : Nat) (s : Handoff) : Prop :=
  s.enqueued.length ≤ n + 1 ∧ (s.stage.outcome? = none →
    s.stop = true ∧ (s.stage.sending? ≠ none → s.enqueued.length ≤ n))

/-- A request to stop is seen before another item is tried. -/
theorem Works.stopping (h : Works o s s') (hnone : s'.stage.outcome? = none) :
    s.stage.outcome? = none ∧ s'.stop = s.stop ∧
      (s.stop = true → s'.stage.sending? ≠ none →
        s.stage.sending? ≠ none ∧ s'.queue = s.queue) := by
  cases h with
  | completes => cases hnone
  | pops hs =>
    rw [hs]
    exact ⟨rfl, rfl, fun _ hn => absurd rfl hn⟩
  | passes hs hstop =>
    rw [hs, hstop]
    exact ⟨rfl, rfl, nofun⟩
  | fails => cases hnone
  | rejects => cases hnone
  | @visits k x item b hs =>
    rw [hs]
    refine ⟨rfl, rfl, fun _ hn => absurd ?_ hn⟩
    cases item <;> rfl
  | attempts hs hstop =>
    rw [hs, hstop]
    exact ⟨rfl, rfl, nofun⟩
  | sends hs =>
    exact ⟨Stage.outcome?_of_item? (Stage.item?_of_sending? hs), rfl, fun _ hn => absurd rfl hn⟩
  | waits hs =>
    rw [hs]
    exact ⟨rfl, rfl, fun _ _ => ⟨nofun, rfl⟩⟩
  | heeds => cases hnone
  | refused => cases hnone
  | expires => cases hnone
  | reports => cases hnone
  | leaves => cases hnone

theorem consumer_stop (h : Acts s s' ∨ Drains s s') (hs : s.stop = true) : s'.stop = true := by
  obtain h | h := h
  · cases h <;> first | exact hs | rfl
  · cases h <;> exact hs

theorem Stopping.step {n : Nat} (h : s.Stopping n) (hs : Step o s s') : s'.Stopping n := by
  obtain ⟨hle, hstop⟩ := h
  have hconsumer : Acts s s' ∨ Drains s s' → s'.Stopping n := by
    intro hw
    obtain ⟨hstage, -, -, -, henqueued, -⟩ := consumer_frame hw
    rw [Stopping, hstage, henqueued]
    exact ⟨hle, fun hnone => ⟨consumer_stop hw (hstop hnone).1, (hstop hnone).2⟩⟩
  cases hs with
  | acts hw => exact hconsumer (.inl hw)
  | drains hw => exact hconsumer (.inr hw)
  | works hw =>
    constructor
    · obtain hsame | ⟨item, hitem, -, -, hnew⟩ := hw.enqueued
      · rwa [hsame]
      · obtain ⟨-, hfew⟩ := hstop (Stage.outcome?_of_item? (Stage.item?_of_sending? hitem))
        rw [hnew, List.length_append, List.length_singleton]
        exact Nat.succ_le_succ (hfew (by rw [hitem]; exact nofun))
    · intro hnone
      obtain ⟨hnone, hsame, hsending⟩ := hw.stopping hnone
      obtain ⟨hasked, hfew⟩ := hstop hnone
      refine ⟨hsame.trans hasked, fun hn => ?_⟩
      obtain ⟨hn, hq⟩ := hsending hasked hn
      obtain ⟨hreceived, -, -, hdrain⟩ := hw.frame
      rw [enqueued, collected, hreceived, hdrain, hq]
      exact hfew hn

theorem stopping_asked (s : Handoff) : s.asked.Stopping s.enqueued.length :=
  ⟨Nat.le_succ _, fun _ => ⟨rfl, fun _ => Nat.le_refl _⟩⟩

theorem length_after_stop (h : Leads o s.asked s') :
    s'.enqueued.length ≤ s.enqueued.length + 1 := by
  have hstopping : s'.Stopping s.enqueued.length := by
    induction h with
    | refl => exact stopping_asked s
    | tail _ hstep ih => exact ih.step hstep
  exact hstopping.1

/-! ## Draining -/

/-- However the worker and a drain take turns, the drain comes to its end. -/
inductive Returns (o : TraversalOptions) : Handoff → Prop
  | done {s : Handoff} {d : Drain} (hd : s.drain = some d) (hl : d.listening = false)
    (hr : d.report ≠ none) : Returns o s
  | goes {s : Handoff} (hgo : ∃ s', Works o s s' ∨ Drains s s')
    (h : ∀ s', Works o s s' ∨ Drains s s' → Returns o s') : Returns o s

/-- As long as the queue is not dropped, the worker goes on, waits for room or is gone. -/
theorem exists_works (o : TraversalOptions) (hopen : s.dropped = false) : (∃ s', Works o s s') ∨
    max 1 o.capacity ≤ s.queue.length ∨ ∃ outcome, s.stage = .gone outcome := by
  cases hs : s.stage with
  | looping =>
    cases hmax : s.pending.max? with
    | none => exact .inl ⟨_, .completes hs hmax⟩
    | some k => exact .inl ⟨_, .pops hs hmax⟩
  | popped k =>
    cases hstop : s.stop with
    | true => exact .inl ⟨_, .heeds (by rw [hs]; rfl) hstop⟩
    | false => exact .inl ⟨_, .passes hs hstop⟩
  | reading k =>
    cases hread : readThroughCache k s.access with
    | mk r b =>
      cases r with
      | error e => exact .inl ⟨_, .fails hs hread⟩
      | ok x =>
        cases hitem : emission o.leavesOnly k x with
        | error e => exact .inl ⟨_, .rejects hs hread hitem⟩
        | ok item => exact .inl ⟨_, .visits hs hread hitem⟩
  | offering item =>
    cases hstop : s.stop with
    | true => exact .inl ⟨_, .heeds (by rw [hs]; rfl) hstop⟩
    | false => exact .inl ⟨_, .attempts hs hstop⟩
  | trying item =>
    by_cases hroom : s.queue.length < max 1 o.capacity
    · exact .inl ⟨_, .sends (by rw [hs]; rfl) hopen hroom⟩
    · exact .inl ⟨_, .waits hs hopen (Nat.le_of_not_lt hroom)⟩
  | waiting item =>
    by_cases hroom : s.queue.length < max 1 o.capacity
    · exact .inl ⟨_, .sends (by rw [hs]; rfl) hopen hroom⟩
    · exact .inr (.inl (Nat.le_of_not_lt hroom))
  | returned outcome => exact .inl ⟨_, .reports hs⟩
  | reported outcome => exact .inl ⟨_, .leaves hs⟩
  | gone outcome => exact .inr (.inr ⟨outcome, rfl⟩)

/-- As long as a drain is not at its end, it or the worker can go on. -/
theorem Orderly.goes (h : s.Orderly o full final) (hd : s.drain = some d)
    (hnot : d.listening = true ∨ d.report = none) : ∃ s', Works o s s' ∨ Drains s s' := by
  obtain ⟨hopen, hlistening, -⟩ := h.draining d hd
  obtain ⟨s', hw⟩ | hfull | ⟨outcome, hgone⟩ := exists_works o hopen
  · exact ⟨s', .inl hw⟩
  · -- the drain makes room: it still listens, since the queue is not empty
    cases hq : s.queue with
    | nil =>
      rw [hq, List.length_nil] at hfull
      omega
    | cons item rest =>
      have hl : d.listening = true := by
        by_contra hl
        obtain ⟨hnil, -⟩ := hlistening (Bool.eq_false_iff.mpr hl)
        cases hq.symm.trans hnil
      exact ⟨_, .inr (.receives hd hl hq)⟩
  · cases hl : d.listening with
    | true =>
      cases hq : s.queue with
      | nil => exact ⟨_, .inr (.closed hd hl hq hgone)⟩
      | cons item rest => exact ⟨_, .inr (.receives hd hl hq)⟩
    | false =>
      have hr : d.report = none := hnot.resolve_left (by simp [hl])
      cases hstatus : s.status with
      | none => exact ⟨_, .inr (.untold hd hr hstatus hgone)⟩
      | some outcome => exact ⟨_, .inr (.told hd hr hstatus)⟩

theorem exists_drain (hs : Works o s s' ∨ Drains s s') (hd : s.drain = some d) :
    ∃ d', s'.drain = some d' := by
  obtain hw | hw := hs
  · exact ⟨d, hw.frame.2.2.2.trans hd⟩
  · cases hw <;> exact ⟨_, rfl⟩

/-- A bound on the steps of the worker and the drain, if these nodes are still to be visited. -/
def debt (s : Handoff) (visited : List (NodeKey × Node)) : Nat :=
  8 * visited.length + s.stage.toil + s.queue.length +
    s.drain.elim 0 fun d => d.listening.toNat + d.report.isNone.toNat

/-- Whoever goes on, less is left to do. -/
theorem debt_lt
    (hv : s.stage.outcome? = none → ∃ rest, Ahead o.leavesOnly s visited rest final)
    (hs : Works o s s' ∨ Drains s s') :
    ∃ visited', (s'.stage.outcome? = none → ∃ rest, Ahead o.leavesOnly s' visited' rest final) ∧
      s'.debt visited' < s.debt visited := by
  obtain hw | hw := hs
  · obtain ⟨-, -, -, hdrain⟩ := hw.frame
    obtain ⟨hnone, -⟩ | ⟨outcome, hs, rfl⟩ | ⟨outcome, hs, rfl⟩ := hw.outcome
    · obtain ⟨rest, hahead⟩ := hv hnone
      obtain ⟨visited', rest', hahead', -, hlt⟩ | ⟨outcome, hs', hq, -⟩ := hw.ahead hahead
      · refine ⟨visited', fun _ => ⟨rest', hahead'⟩, ?_⟩
        rw [debt, debt, hdrain]
        omega
      · refine ⟨[], fun hnone' => ?_, ?_⟩
        · rw [hs'] at hnone'
          cases hnone'
        · have htoil := Stage.toil_of_outcome? hnone
          have hreturned : (Stage.returned outcome).toil = 2 := rfl
          rw [debt, debt, hdrain, hs', hq, List.length_nil]
          omega
    · refine ⟨visited, (fun hnone => by cases hnone), ?_⟩
      simp only [debt, hs, Stage.toil]
      omega
    · refine ⟨visited, (fun hnone => by cases hnone), ?_⟩
      simp only [debt, hs, Stage.toil]
      omega
  · obtain ⟨hstage, hpending, haccess, -⟩ := consumer_frame (.inr hw)
    refine ⟨visited, fun hnone => ?_, ?_⟩
    · obtain ⟨rest, hahead⟩ := hv (hstage ▸ hnone)
      exact ⟨rest, hahead.congr hstage hpending haccess⟩
    · cases hw with
      | receives hd hl hq => simp [debt, hd, hq]
      | closed hd hl => simp [debt, hd, hl]
      | told hd hr => simp [debt, hd, hr]
      | untold hd hr => simp [debt, hd, hr]

theorem Orderly.returns (h : s.Orderly o full final) (hd : s.drain = some d) : s.Returns o := by
  have hv : ∃ visited, s.stage.outcome? = none →
      ∃ rest, Ahead o.leavesOnly s visited rest final := by
    cases hout : s.stage.outcome? with
    | none =>
      obtain ⟨visited, rest, hahead, -⟩ := h.ahead hout
      exact ⟨visited, fun _ => ⟨rest, hahead⟩⟩
    | some outcome => exact ⟨[], nofun⟩
  obtain ⟨visited, hv⟩ := hv
  generalize hn : s.debt visited = n
  induction n using Nat.strongRecOn generalizing s d visited with
  | ind n ih =>
    by_cases hdone : d.listening = false ∧ d.report ≠ none
    · exact .done hd hdone.1 hdone.2
    · have hnot : d.listening = true ∨ d.report = none := by
        by_contra hboth
        rw [not_or, Bool.not_eq_true] at hboth
        exact hdone hboth
      refine .goes (h.goes hd hnot) fun s' hs => ?_
      obtain ⟨visited', hv', hlt⟩ := debt_lt hv hs
      obtain ⟨d', hd'⟩ := exists_drain hs hd
      have h' : s'.Orderly o full final := hs.elim h.works fun hw => h.consumer (.inr hw)
      exact ih _ (hn ▸ hlt) h' hd' visited' hv' rfl

/-! ## Taking turns -/

/-- Where the worker of a traversal is, between its steps. -/
def stageOf (t : Traversal) : Stage :=
  match t.outcome, t.held with
  | some outcome, _ => .returned outcome
  | none, some item => .offering item
  | none, none => .looping

/-- The state is that of a sweep. -/
structure Mirrors (o : TraversalOptions) (t : Sweep) (s : Handoff) : Prop where
  mode : t.traversal.leavesOnly = o.leavesOnly
  capacity : t.traversal.capacity = max 1 o.capacity
  stage : s.stage = stageOf t.traversal
  pending : t.traversal.outcome = none → s.pending = t.traversal.pending
  access : s.access = t.access
  queue : s.queue = t.traversal.queue.toList
  received : s.received = t.received
  asked : t.traversal.outcome = none → s.stop = t.traversal.stopAsked
  stays : s.dropped = false ∧ s.drain = none

theorem Leads.works (h : Works o s s') : Leads o s s' := .single (.works h)

variable {t : Sweep}

theorem make_work {u : Traversal} {b : Access} (h : t.traversal.advance t.access = (u, b)) :
    t.make .work = ⟨u, b, t.received⟩ := by
  rw [Sweep.make, h]

/-- Once there is an outcome, it does not matter what is pending, or whether a stop was asked. -/
theorem Mirrors.of_outcome {outcome : Outcome} (hout : t.traversal.outcome = some outcome)
    (hmode : t.traversal.leavesOnly = o.leavesOnly)
    (hcapacity : t.traversal.capacity = max 1 o.capacity) (hstage : s.stage = stageOf t.traversal)
    (haccess : s.access = t.access) (hqueue : s.queue = t.traversal.queue.toList)
    (hreceived : s.received = t.received) (hstays : s.dropped = false ∧ s.drain = none) :
    Mirrors o t s := by
  have hended : t.traversal.outcome ≠ none := by simp [hout]
  exact ⟨hmode, hcapacity, hstage, fun hnone => absurd hnone hended, haccess, hqueue, hreceived,
    fun hnone => absurd hnone hended, hstays⟩

/-- With an item in hand: the worker is stopped, queues the item, or stays where it is. -/
theorem Mirrors.offers {item : Item} (h : Mirrors o t s) (hout : t.traversal.outcome = none)
    (hheld : t.traversal.held = some item) :
    ∃ s', Leads o s s' ∧ Mirrors o (t.make .work) s' := by
  have hstage := h.stage
  rw [stageOf, hout, hheld] at hstage
  have hasked := h.asked hout
  cases hstop : t.traversal.stopAsked with
  | true =>
    rw [make_work (advance_stopped hout hstop (.inl (by rw [hheld]; exact nofun)) t.access)]
    refine ⟨_, .works (.heeds (by rw [hstage]; rfl) (hasked.trans hstop)), ?_⟩
    exact .of_outcome rfl h.mode h.capacity rfl h.access h.queue h.received h.stays
  | false =>
    cases hroom : t.traversal.hasRoom with
    | true =>
      rw [make_work (advance_emit hout hheld hstop hroom t.access)]
      have hless : s.queue.length < max 1 o.capacity := by
        rw [h.queue, ← Queue.size_eq_length, ← h.capacity]
        exact of_decide_eq_true hroom
      refine ⟨_, (Leads.works (.attempts hstage (hasked.trans hstop))).trans
        (Leads.works (.sends rfl h.stays.1 hless)), ?_⟩
      refine ⟨h.mode, h.capacity, ?_, fun _ => h.pending hout, h.access, ?_, h.received,
        fun _ => hasked, h.stays⟩
      · rw [stageOf, hout]
      · rw [Queue.toList_push, ← h.queue]
    | false =>
      rw [make_work (advance_full hout hheld hstop hroom t.access)]
      exact ⟨s, .refl, h⟩

/-- With no item in hand: the worker takes up the next node key, if there is one. -/
theorem Mirrors.visits (h : Mirrors o t s) (hout : t.traversal.outcome = none)
    (hheld : t.traversal.held = none) : ∃ s', Leads o s s' ∧ Mirrors o (t.make .work) s' := by
  have hstage := h.stage
  rw [stageOf, hout, hheld] at hstage
  have hpending := h.pending hout
  have hasked := h.asked hout
  cases hmax : t.traversal.pending.max? with
  | none =>
    rw [make_work (advance_completed hout hheld hmax t.access)]
    refine ⟨_, .works (.completes hstage (hpending ▸ hmax)), ?_⟩
    exact .of_outcome rfl h.mode h.capacity rfl h.access h.queue h.received h.stays
  | some k =>
    have hpops : Leads o s { s with stage := .popped k, pending := s.pending.erase k } :=
      .works (.pops hstage (hpending ▸ hmax))
    cases hstop : t.traversal.stopAsked with
    | true =>
      rw [make_work (advance_stopped hout hstop (.inr (by rw [hmax]; exact nofun)) t.access)]
      refine ⟨_, hpops.trans (Leads.works (.heeds rfl (hasked.trans hstop))), ?_⟩
      exact .of_outcome rfl h.mode h.capacity rfl h.access h.queue h.received h.stays
    | false =>
      rw [make_work (advance_visit hout hheld hstop hmax t.access)]
      have hreads : Leads o s { s with stage := .reading k, pending := s.pending.erase k } :=
        hpops.trans (Leads.works (.passes rfl (hasked.trans hstop)))
      rw [← h.access]
      cases hread : readThroughCache k s.access with
      | mk r b =>
        cases r with
        | error e =>
          refine ⟨_, hreads.trans (Leads.works (.fails rfl hread)), ?_⟩
          exact .of_outcome rfl h.mode h.capacity rfl rfl h.queue h.received h.stays
        | ok x =>
          simp only [lookedUp, h.mode, ← hpending]
          cases hitem : emission o.leavesOnly k x with
          | error e =>
            refine ⟨_, hreads.trans (Leads.works (.rejects rfl hread hitem)), ?_⟩
            exact .of_outcome rfl rfl h.capacity rfl rfl h.queue h.received h.stays
          | ok item =>
            refine ⟨_, hreads.trans (Leads.works (.visits rfl hread hitem)), ?_⟩
            refine ⟨rfl, h.capacity, ?_, fun _ => rfl, rfl, h.queue, h.received,
              fun _ => hasked, h.stays⟩
            rw [stageOf, hout]
            cases item <;> rfl

/-- A step of the worker of a sweep is some steps of the worker here. -/
theorem Mirrors.work (h : Mirrors o t s) : ∃ s', Leads o s s' ∧ Mirrors o (t.make .work) s' := by
  cases hout : t.traversal.outcome with
  | some outcome =>
    rw [make_work (advance_ended hout t.access)]
    exact ⟨s, .refl, h⟩
  | none =>
    cases hheld : t.traversal.held with
    | some item => exact h.offers hout hheld
    | none => exact h.visits hout hheld

/-- Worker, consumer and clock taking turns are a traversal that is handed over. -/
theorem Mirrors.make (h : Mirrors o t s) {event : Event}
    (htimed : event = .expire → o.timeout.isSome = true) :
    ∃ s', Leads o s s' ∧ Mirrors o (t.make event) s' := by
  cases event with
  | work => exact h.work
  | receive =>
    obtain ⟨hr, -⟩ | ⟨item, queue, hr, hq⟩ := t.traversal.receive_cases
    · refine ⟨s, .refl, ?_⟩
      rw [Sweep.make, hr]
      simpa using h
    · rw [Sweep.make, hr]
      refine ⟨_, .single (.acts (.receives h.stays.1 h.stays.2 (h.queue.trans hq))), ?_⟩
      exact ⟨h.mode, h.capacity, h.stage, h.pending, h.access, rfl, by rw [h.received]; rfl,
        h.asked, h.stays⟩
  | stop =>
    refine ⟨_, .single (.acts .stops), ?_⟩
    exact ⟨h.mode, h.capacity, h.stage, h.pending, h.access, h.queue, h.received, fun _ => rfl,
      h.stays⟩
  | expire =>
    rw [Sweep.make, expire]
    split
    · next hb =>
      simp only [isBlocked, Bool.and_eq_true, Option.isNone_iff_eq_none, Option.isSome_iff_exists,
        Bool.not_eq_true'] at hb
      obtain ⟨⟨⟨hout, item, hheld⟩, hroom⟩, hstop⟩ := hb
      have hstage := h.stage
      rw [stageOf, hout, hheld] at hstage
      have hfull : max 1 o.capacity ≤ s.queue.length := by
        rw [h.queue, ← Queue.size_eq_length, ← h.capacity]
        exact Nat.le_of_not_lt (of_decide_eq_false hroom)
      refine ⟨_, (Leads.works (.attempts hstage ((h.asked hout).trans hstop))).trans
        (Leads.works (.expires rfl (htimed rfl) fun _ => ⟨h.stays.1, hfull⟩)), ?_⟩
      exact .of_outcome rfl h.mode h.capacity rfl h.access h.queue h.received h.stays
    · exact ⟨s, .refl, h⟩

theorem mirrors_start (root : Option NodeKey) (o : TraversalOptions) (a : Access) :
    Mirrors o ⟨ofRoot root o, a, []⟩ (start root o a) :=
  ⟨rfl, rfl, rfl, fun _ => rfl, rfl, rfl, rfl, fun _ => rfl, rfl, rfl⟩

theorem Mirrors.run (h : Mirrors o t s) {events : List Event}
    (htimed : ∀ event, event ∈ events → event = .expire → o.timeout.isSome = true) :
    ∃ s', Leads o s s' ∧ Mirrors o (t.run events) s' := by
  induction events generalizing t s with
  | nil => exact ⟨s, .refl, h⟩
  | cons event events ih =>
    obtain ⟨s₁, hfirst, h₁⟩ := h.make (htimed event List.mem_cons_self)
    obtain ⟨s', hrest, h'⟩ := ih h₁ fun e he => htimed e (List.mem_cons_of_mem event he)
    exact ⟨s', hfirst.trans hrest, h'⟩

/-! ## What is promised -/

/-- What a consumer can rely on, where `full` is all that the traversal emits if it is left alone,
and `final` is how it ends then. -/
structure Kept (o : TraversalOptions) (full : List Item) (final : Outcome) (s : Handoff) :
    Prop where
  prefixed : s.received ++ s.collected ++ s.queue <+: full
  roomy : s.queue.length ≤ max 1 o.capacity
  single : s.reports.length ≤ 1
  /-- Whatever the consumer is told is the outcome that has been reported. -/
  told : ∀ outcome, s.status = some outcome ∨ s.taken = some outcome ∨
    (∃ d, s.drain = some d ∧ d.report = some (.outcome outcome)) → s.reports = [outcome]
  ended : ∀ outcome, outcome ∈ s.reports → (∃ cutoff, outcome = .cut cutoff) ∨
    outcome = final ∧ s.received ++ s.collected ++ s.queue = full
  completed : .completed ∈ s.reports → s.received ++ s.collected ++ s.queue = full
  /-- What has been queued stays, and after a report nothing is added. -/
  later : ∀ s', Leads o s s' → s.enqueued <+: s'.enqueued ∧
    (s.reports ≠ [] → s'.reports = s.reports ∧ s'.enqueued = s.enqueued)
  stopped : ∀ s', Leads o s.asked s' → s'.enqueued.length ≤ s.enqueued.length + 1
  returns : ∀ d, s.drain = some d → s.Returns o
  /-- A drain at its end has everything that has been queued and not been received before, and the
  outcome, if that has not been taken before. -/
  drained : ∀ d report, s.drain = some d → d.listening = false → d.report = some report →
    s.received ++ d.items = s.enqueued ∧ ∃ outcome, s.reports = [outcome] ∧
      (s.taken = none → report = .outcome outcome)

theorem Orderly.kept (h : s.Orderly o full final) : s.Kept o full final := by
  have hreports : ∀ outcome, outcome ∈ s.reports → s.stage.reported? = some outcome := by
    intro outcome hmem
    rw [h.reports] at hmem
    exact Option.mem_toList.mp hmem
  have hended : ∀ outcome, outcome ∈ s.reports → (∃ cutoff, outcome = .cut cutoff) ∨
      outcome = final ∧ s.enqueued = full := by
    intro outcome hmem
    have hout := Stage.outcome?_of_reported? (hreports outcome hmem)
    exact (h.ended outcome hout).imp_left And.left
  have hsingle : ∀ outcome, outcome ∈ s.reports → s.reports = [outcome] := by
    intro outcome hmem
    rw [h.reports, hreports outcome hmem]
    rfl
  have htold : ∀ outcome, s.status = some outcome ∨ s.taken = some outcome ∨
      (∃ d, s.drain = some d ∧ d.report = some (.outcome outcome)) → s.reports = [outcome] := by
    intro outcome hknown
    refine hsingle outcome ?_
    rw [← h.learnt, List.mem_append, List.mem_append]
    obtain hs | ht | ⟨d, hd, hr⟩ := hknown
    · exact .inl (.inl (Option.mem_toList.mpr hs))
    · exact .inl (.inr (Option.mem_toList.mpr ht))
    · refine .inr (Option.mem_toList.mpr ?_)
      rw [hd, Option.bind_some, Drain.outcome?, hr]
  constructor
  case prefixed => exact h.prefixed
  case roomy => exact h.roomy
  case single =>
    rw [h.reports]
    exact Option.length_toList_le
  case told => exact htold
  case ended => exact hended
  case completed =>
    intro hmem
    obtain ⟨cutoff, hcut⟩ | ⟨-, hfull⟩ := hended _ hmem
    · cases hcut
    · exact hfull
  case later =>
    intro s' hs
    refine ⟨hs.enqueued, fun hne => ?_⟩
    obtain ⟨outcome, hmem⟩ := List.exists_mem_of_ne_nil _ hne
    exact (hs.silent (hreports outcome hmem)).2
  case stopped => exact fun s' => length_after_stop
  case returns => exact fun d => h.returns
  case drained =>
    intro d report hd hl hr
    obtain ⟨-, hlistening, huntold⟩ := h.draining d hd
    obtain ⟨hq, outcome, hs⟩ := hlistening hl
    have hone : s.reports = [outcome] := by
      rw [h.reports, hs]
      rfl
    refine ⟨by rw [enqueued, collected, hd, hq, List.append_nil]; rfl, outcome, hone, ?_⟩
    intro htaken
    cases report with
    | outcome outcome' =>
      have hsame := htold outcome' (.inr (.inr ⟨d, hd, hr⟩))
      rw [hone] at hsame
      rw [(List.cons.inj hsame).1]
    | unreported => exact absurd htaken (huntold hr)

/-- However the worker, its consumer and the clock get in each other's way, what is queued comes out
once and in the order in which the traversal emits it, one outcome is reported, and all has been
queued before if it says so; a request to stop lets through one item at most, and a drain comes to
its end with what has been queued and the outcome. The schedules that are run are such. -/
theorem hands_over (root : Option NodeKey) (o : TraversalOptions) (a : Access) :
    ∃ final, ((ofRoot root o).drain a).1.2.outcome = some final ∧
      (∀ s, Leads o (start root o a) s → s.Kept o ((ofRoot root o).drain a).1.1 final) ∧
      ∀ events, (∀ event, event ∈ events → event = .expire → o.timeout.isSome = true) →
        ∃ s, Leads o (start root o a) s ∧
          Mirrors o (Sweep.run ⟨ofRoot root o, a, []⟩ events) s := by
  have hf := frontier_ofRoot a.find root o
  obtain ⟨visited, stop, hcourse⟩ := exists_course o.leavesOnly hf
  obtain ⟨hitems, hend⟩ := hcourse.drain (ready_ofRoot root o) hf
  refine ⟨ending stop, hend, fun s hs => ?_, fun events htimed => ?_⟩
  · rw [hitems]
    exact ((orderly_start hcourse).leads hs).kept
  · exact (mirrors_start root o a).run htimed

/-! ## A drain that nothing disturbs -/

section Undisturbed

open Replication

variable {pending : NodeSet} {a b : Access} {k : NodeKey} {x : Node} {stage : Stage}
  {stop : Option (NodeKey × Error)}

/-- A drain that has taken everything so far, with the worker at the given stage. -/
def attended (stage : Stage) (pending : NodeSet) (a : Access) (items : List Item) : Handoff where
  stage
  pending
  access := a
  queue := []
  dropped := false
  stop := false
  status := none
  reports := []
  received := []
  taken := none
  drain := some ⟨items, true, none⟩

/-- Everything has come out of the drain, and the outcome too. -/
structure Drained (s : Handoff) (items : List Item) (outcome : Outcome) : Prop where
  drain : s.drain = some ⟨items, false, some (.outcome outcome)⟩
  received : s.received = []
  queue : s.queue = []
  reports : s.reports = [outcome]

theorem attended_pops (hk : pending.max? = some k) (items : List Item) :
    Leads o (attended .looping pending a items)
      (attended (.reading k) (pending.erase k) a items) := by
  have hpops : Leads o (attended .looping pending a items) _ := .single (.works (.pops rfl hk))
  exact hpops.tail (.works (.passes rfl rfl))

theorem attended_emits (item : Item) (items : List Item) :
    Leads o (attended (.offering item) pending a items)
      (attended .looping pending a (items ++ [item])) := by
  have hroom : 0 < max 1 o.capacity := Nat.lt_of_lt_of_le Nat.one_pos (Nat.le_max_left 1 _)
  have hattempts : Leads o (attended (.offering item) pending a items) _ :=
    .single (.works (.attempts rfl rfl))
  have hsends : Leads o _ { attended .looping pending a items with queue := [item] } :=
    hattempts.tail (.works (.sends rfl rfl hroom))
  have hreceives := hsends.tail (.drains (.receives rfl rfl rfl))
  exact hreceives

theorem attended_returned (outcome : Outcome) (items : List Item) :
    ∃ s, Leads o (attended (.returned outcome) pending a items) s ∧ s.Drained items outcome := by
  have hreports : Leads o (attended (.returned outcome) pending a items) _ :=
    .single (.works (.reports rfl))
  have hleaves := hreports.tail (.works (.leaves rfl))
  have htold := hleaves.tail (.drains (.told rfl rfl rfl))
  exact ⟨_, htold.tail (.drains (.closed rfl rfl rfl rfl)), rfl, rfl, rfl, rfl⟩

/-- The worker and the drain take turns through the whole course. -/
theorem exists_drained_of_course (h : Course o.leavesOnly pending a visited stop)
    (items : List Item) :
    ∃ s, Leads o (attended .looping pending a items) s ∧
      s.Drained (items ++ emissions o.leavesOnly visited) (ending stop) := by
  induction h generalizing items with
  | @completed pending a hmax =>
    rw [emissions, List.filterMap_nil, List.append_nil]
    have hcompletes : Leads o (attended .looping pending a items)
        (attended (.returned .completed) pending a items) := .single (.works (.completes rfl hmax))
    obtain ⟨s, hs, hdrained⟩ := attended_returned .completed items
    exact ⟨s, hcompletes.trans hs, hdrained⟩
  | @unreadable pending a b k e hk hread =>
    rw [emissions, List.filterMap_nil, List.append_nil]
    have hfails : Leads o (attended .looping pending a items)
        (attended (.returned (.failed e)) (pending.erase k) b items) :=
      (attended_pops hk items).tail (.works (.fails rfl hread))
    obtain ⟨s, hs, hdrained⟩ := attended_returned (.failed e) items
    exact ⟨s, hfails.trans hs, hdrained⟩
  | @unfit pending a b k x e hk hread hitem =>
    rw [emissions, List.filterMap_nil, List.append_nil]
    have hrejects : Leads o (attended .looping pending a items)
        (attended (.returned (.failed e)) (pending.erase k) b items) :=
      (attended_pops hk items).tail (.works (.rejects rfl hread hitem))
    obtain ⟨s, hs, hdrained⟩ := attended_returned (.failed e) items
    exact ⟨s, hrejects.trans hs, hdrained⟩
  | @visits pending a b k x item visited stop hk hread hitem rest ih =>
    have hvisits : Leads o (attended .looping pending a items) (attended (.next item)
        ((childKeys k x).foldl (fun s k => s.insert k) (pending.erase k)) b items) :=
      (attended_pops hk items).tail (.works (.visits rfl hread hitem))
    rw [emissions_cons hitem, ← List.append_assoc]
    cases item with
    | none =>
      obtain ⟨s, hs, hdrained⟩ := ih items
      rw [Option.toList_none, List.append_nil]
      exact ⟨s, hvisits.trans hs, hdrained⟩
    | some item =>
      obtain ⟨s, hs, hdrained⟩ := ih (items ++ [item])
      exact ⟨s, (hvisits.trans (attended_emits item items)).trans hs, hdrained⟩

/-- A drain that nothing disturbs gets what the traversal emits and its outcome. -/
theorem exists_drained (root : Option NodeKey) (o : TraversalOptions) (a : Access) :
    ∃ s final, Leads o (start root o a) s ∧ ((ofRoot root o).drain a).1.2.outcome = some final ∧
      s.Drained ((ofRoot root o).drain a).1.1 final := by
  have hf := frontier_ofRoot a.find root o
  obtain ⟨visited, stop, hcourse⟩ := exists_course o.leavesOnly hf
  obtain ⟨hitems, hend⟩ := hcourse.drain (ready_ofRoot root o) hf
  obtain ⟨s, hs, hdrained⟩ := exists_drained_of_course hcourse []
  have hdrains : Leads o (start root o a) (attended .looping (ofRoot root o).pending a []) :=
    .single (.acts (.drains rfl rfl))
  rw [hitems]
  exact ⟨s, _, hdrains.trans hs, hend, hdrained⟩

theorem surveys_nursery : ∃ visited,
    Surveys (some (place 1 [])) unhurried nursery visited none ∧ visited.length = 3 := by
  obtain ⟨htwig, hbud, -⟩ := storable_leaves
  obtain ⟨visited, stop, h⟩ := exists_surveys (some (place 1 [])) unhurried nursery
  obtain rfl : stop = none :=
    (h.completed rfl fun hd => hd rfl).mpr fun k => exists_find_plot htwig hbud
  have hreached : ∀ k, k ∈ visited.map Prod.fst ↔ Reached nursery.find (some (place 1 [])) k := by
    refine fun k => ⟨fun hk => ?_, h.complete rfl k⟩
    obtain ⟨r, hr, rfl⟩ := List.mem_map.mp hk
    exact (h.found r hr).1
  have hkeys : (visited.map Prod.fst).Nodup := by simpa [popped] using h.keys
  exact ⟨visited, h, length_of_reached htwig hbud hkeys hreached⟩

/-- The trie that is copied to other stores is drained, too. -/
theorem hands_over_sapling :
    ∃ s, Leads unhurried (start (some (place 1 [])) unhurried nursery) s ∧
      s.Drained ((ofRoot (some (place 1 [])) unhurried).drain nursery).1.1 .completed ∧
      s.collected.length = 3 ∧
      ∃ s', Leads unhurried (start (some (place 1 [])) unhurried nursery) s' ∧
        Mirrors unhurried (Sweep.run ⟨ofRoot (some (place 1 [])) unhurried, nursery, []⟩
          [.work, .stop, .work]) s' := by
  obtain ⟨visited, hsurveys, hthree⟩ := surveys_nursery
  obtain ⟨hitems, hend⟩ := hsurveys.drained
  obtain ⟨s, outcome, hs, houtcome, hdrained⟩ := exists_drained (some (place 1 [])) unhurried nursery
  obtain rfl : outcome = .completed := Option.some.inj (houtcome.symm.trans hend)
  obtain ⟨final, -, hkept, hschedules⟩ := hands_over (some (place 1 [])) unhurried nursery
  have hfull := (hkept s hs).completed (by rw [hdrained.reports]; exact List.mem_cons_self)
  rw [hdrained.received, hdrained.queue, List.append_nil, List.nil_append] at hfull
  refine ⟨s, hs, hdrained, ?_, hschedules _ (by simp)⟩
  rw [hfull, hitems, hsurveys.nodes rfl, List.length_map, hthree]

end Undisturbed

end Handoff

end Traversal

end VersionedTrie
