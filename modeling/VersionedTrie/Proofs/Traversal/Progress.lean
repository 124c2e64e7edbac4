import VersionedTrie.Proofs.Commit
import VersionedTrie.Proofs.Traversal.Sweep
import VersionedTrie.Replication
import Mathlib.Data.List.Perm.Subperm

/-! # Schedules

However worker and consumer take turns, what comes of it is a sweep: taking items is a run of events
of the two (`takeWith_run`), and so is letting the worker alone go on (`settleWith_run`). Every event
that is made on the way to the next item leaves less to do, and there is a bound on what there is to
do at all, since the nodes visited are under different keys of the store. So a drain comes to the
end of the traversal, and what is gathered for a replication is what a finished sweep has received
(`Replication.gather_run`).
-/

set_option autoImplicit false

namespace VersionedTrie

open Traversal

/-! ## The number of nodes that can be read -/

namespace Store

variable {s : Store} {v : Volume}

theorem length_keys (s : Store) : s.keys.length = s.size := by
  rw [keys, size]
  cases s.medium <;> exact Std.ExtTreeMap.length_keys

theorem mem_keys_of_lookup {key b : ByteArray} (h : s.lookup v key = .ok (some b)) :
    key ∈ s.keys := by
  rw [lookup] at h
  rw [keys]
  cases hm : s.medium with
  | memory m =>
    rw [hm] at h
    refine Std.ExtTreeMap.mem_keys.mpr (Std.ExtTreeMap.mem_iff_isSome_getElem?.mpr ?_)
    rw [Except.ok.inj h]
    rfl
  | log l =>
    rw [hm] at h
    refine Std.ExtTreeMap.mem_keys.mpr (Std.ExtTreeMap.mem_iff_isSome_getElem?.mpr ?_)
    cases hl : l.index[key]? with
    | some e => rfl
    | none =>
      simp only [LogStore.read, LogStore.locate, hl] at h
      cases h

end Store

/-- What is found under different node keys is in the store or the cache under different keys. -/
theorem Access.length_le {a : Access} {l : List NodeKey} (hl : l.Nodup)
    (hfound : ∀ k, k ∈ l → ∃ x, a.find k = .ok x) :
    l.length ≤ a.store.size + a.cache.elim 0 (·.size) := by
  have hcached : (l.filter fun k => (a.peek k).isSome).length ≤ a.cache.elim 0 (·.size) := by
    cases hc : a.cache with
    | none => simp [Access.peek, hc]
    | some c =>
      have hnodup := (hl.filter fun k => (a.peek k).isSome).map
        (f := fun k => (k.version, k)) fun _ _ h => (Prod.ext_iff.mp h).2
      have hsub : (l.filter fun k => (a.peek k).isSome).map (fun k => (k.version, k)) ⊆
          c.entries.keys := by
        intro key hkey
        obtain ⟨k, hk, rfl⟩ := List.mem_map.mp hkey
        have hpeek := (List.mem_filter.mp hk).2
        rw [Access.peek, hc] at hpeek
        refine Std.ExtTreeMap.mem_keys.mpr (Std.ExtTreeMap.mem_iff_isSome_getElem?.mpr ?_)
        simpa [NodeCache.node?] using hpeek
      have hle := (hnodup.subperm hsub).length_le
      rwa [List.length_map, Std.ExtTreeMap.length_keys] at hle
  have hstored : (l.filter fun k => !(a.peek k).isSome).length ≤ a.store.size := by
    have hnodup := (hl.filter fun k => !(a.peek k).isSome).map
      (f := NodeKey.encode) fun _ _ => NodeKey.encode_inj.mp
    have hsub : (l.filter fun k => !(a.peek k).isSome).map NodeKey.encode ⊆ a.store.keys := by
      intro b hb
      obtain ⟨k, hk, rfl⟩ := List.mem_map.mp hb
      obtain ⟨hk, hpeek⟩ := List.mem_filter.mp hk
      obtain ⟨x, hx⟩ := hfound k hk
      have hnone : a.peek k = none := by simpa using hpeek
      rw [Access.find, hnone] at hx
      obtain ⟨v, hv, -⟩ := Access.stored_eq_ok.mp hx
      exact Store.mem_keys_of_lookup hv
    have hle := (hnodup.subperm hsub).length_le
    rwa [List.length_map, Store.length_keys] at hle
  rw [List.length_eq_length_filter_add fun k => (a.peek k).isSome]
  omega

namespace Sweep

variable {find : NodeKey → Except Error Node} {root : Option NodeKey} {a₀ : Access} {s : Sweep}
  {visited : List (NodeKey × Node)}

theorem Covers.length_le (h : s.Covers find root a₀ visited) (ha₀ : a₀.cache = none)
    (hfind : a₀.find = find) : visited.length ≤ a₀.store.size := by
  have hle := a₀.length_le h.nodup fun k hk => by
    obtain ⟨r, hr, rfl⟩ := List.mem_map.mp hk
    rw [hfind]
    exact ⟨r.2, (h.found r hr).2⟩
  rwa [ha₀, List.length_map] at hle

/-! ## Runs of events -/

theorem run_append (s : Sweep) (l l' : List Event) : s.run (l ++ l') = (s.run l).run l' :=
  List.foldl_append

/-- What has been received before makes no difference. -/
theorem run_received (t : Traversal) (a : Access) (before received : List Item) (events : List Event) :
    run ⟨t, a, before ++ received⟩ events =
      { run ⟨t, a, received⟩ events with
        received := before ++ (run ⟨t, a, received⟩ events).received } := by
  induction events generalizing t a received with
  | nil => rfl
  | cons event events ih =>
    cases event with
    | work => exact ih _ _ _
    | receive =>
      have hmake : make ⟨t, a, before ++ received⟩ .receive =
          ⟨t.receive.2, a, before ++ (received ++ t.receive.1.toList)⟩ :=
        congrArg (Sweep.mk _ _) (List.append_assoc ..)
      show run (make ⟨t, a, before ++ received⟩ .receive) events = _
      rw [hmake]
      exact ih _ _ _
    | stop => exact ih _ _ _
    | expire => exact ih _ _ _

/-- Worker and consumer take turns, and nobody asks for an end. -/
def Plain (events : List Event) : Prop := ∀ event, event ∈ events → event = .work ∨ event = .receive

theorem plain_cons {event : Event} {events : List Event} (hmove : event = .work ∨ event = .receive)
    (h : Plain events) : Plain (event :: events) := by
  intro m hm
  obtain rfl | hm := List.mem_cons.mp hm
  · exact hmove
  · exact h m hm

theorem finished_of_debt {bound : Nat} (h : debt bound s visited = 0) : s.Finished := by
  unfold debt at h
  refine ⟨fun hout => ?_, List.eq_nil_of_length_eq_zero (by omega)⟩
  rw [hout] at h
  simp at h

/-- Taking items is a sweep. With as many steps as there may be to do, and no lower limit, it comes
to the end. -/
theorem takeWith_run (fuel limit : Nat) (t : Traversal) (taken : List Item) (a : Access) :
    ∃ events, Plain events ∧
      takeWith fuel limit t taken a =
        (((run ⟨t, a, taken.reverse⟩ events).received, (run ⟨t, a, taken.reverse⟩ events).traversal),
          (run ⟨t, a, taken.reverse⟩ events).access) ∧
      ∀ find root a₀ received visited, Covers find root a₀ ⟨t, a, received⟩ visited →
        a₀.cache = none → a₀.find = find →
          debt a₀.store.size ⟨t, a, received⟩ visited ≤ fuel → fuel ≤ limit →
            (run ⟨t, a, received⟩ events).Finished := by
  induction fuel generalizing limit t taken a with
  | zero =>
    refine ⟨[], nofun, rfl, fun _ _ _ _ _ _ _ _ hdebt _ => ?_⟩
    exact finished_of_debt (Nat.le_zero.mp hdebt)
  | succ fuel ih =>
    rw [takeWith]
    by_cases hlimit : limit = 0
    · rw [if_pos hlimit]
      refine ⟨[], nofun, rfl, fun _ _ _ _ _ _ _ _ _ hle => ?_⟩
      omega
    · rw [if_neg hlimit]
      obtain ⟨hr, hqueue⟩ | ⟨item, queue, hr, hqueue⟩ := t.receive_cases
      · simp only [hr]
        cases hout : t.outcome with
        | some o =>
          simp only [Option.isSome_some, if_true]
          refine ⟨[], nofun, rfl, fun _ _ _ _ _ _ _ _ _ _ => ⟨?_, hqueue⟩⟩
          simp [run, hout]
        | none =>
          simp only [Option.isSome_none, Bool.false_eq_true, if_false]
          obtain ⟨events, hplain, hrun, hends⟩ :=
            ih limit (t.advance a).1 taken (t.advance a).2
          refine ⟨.work :: events, plain_cons (.inl rfl) hplain, hrun, ?_⟩
          intro find root a₀ received visited hcovers ha₀ hfind hdebt hle
          have hroom : t.hasRoom = true := by
            rw [hasRoom, t.queue.size_eq_length, hqueue]
            exact decide_eq_true hcovers.roomy
          obtain ⟨visited', hcovers', hless⟩ := hcovers.work ha₀ hfind
          have hlt := hless hout hroom _ (hcovers'.length_le ha₀ hfind)
          have hle' := Nat.le_of_lt_succ (Nat.lt_of_lt_of_le hlt hdebt)
          exact hends find root a₀ received visited' hcovers' ha₀ hfind hle' (by omega)
      · simp only [hr]
        obtain ⟨events, hplain, hrun, hends⟩ := ih (limit - 1) { t with queue } (item :: taken) a
        have hstep : ∀ received, run ⟨t, a, received⟩ (.receive :: events) =
            run ⟨{ t with queue }, a, received ++ [item]⟩ events := by
          intro received
          have hmake : make ⟨t, a, received⟩ .receive = ⟨{ t with queue }, a, received ++ [item]⟩ := by
            rw [make, hr]
            rfl
          rw [run, List.foldl_cons, hmake]
          rfl
        refine ⟨.receive :: events, plain_cons (.inr rfl) hplain, ?_, ?_⟩
        · rw [hstep, ← List.reverse_cons]
          exact hrun
        · intro find root a₀ received visited hcovers ha₀ hfind hdebt hle
          have hcovers' := hcovers.receive
          rw [make, hr] at hcovers'
          rw [hstep]
          refine hends find root a₀ _ visited hcovers' ha₀ hfind ?_ (by omega)
          simp only [debt, hqueue, List.length_cons] at hdebt ⊢
          omega

theorem settleWith_run (fuel : Nat) (t : Traversal) (a : Access) (received : List Item) :
    ∃ events, Plain events ∧ run ⟨t, a, received⟩ events =
      ⟨(settleWith fuel t a).1, (settleWith fuel t a).2, received⟩ := by
  induction fuel generalizing t a with
  | zero => exact ⟨[], nofun, rfl⟩
  | succ fuel ih =>
    rw [settleWith]
    split
    · exact ⟨[], nofun, rfl⟩
    · obtain ⟨events, hplain, hrun⟩ := ih (t.advance a).1 (t.advance a).2
      exact ⟨.work :: events, plain_cons (.inl rfl) hplain, hrun⟩

/-- There is no more to do than a drain has steps for. -/
theorem Covers.debt_le (h : s.Covers find root a₀ visited) :
    debt a₀.store.size s visited ≤ 2 * stepBound s.access + s.traversal.queue.size := by
  have hsize : s.access.store.size = a₀.store.size := by
    rw [Store.size, Store.size, h.reads.agrees.medium]
  rw [debt, stepBound, hsize, s.traversal.queue.size_eq_length]
  split <;> split <;> omega

/-- What a sweep has brought out of a source. -/
def harvest (s : Sweep) (root : Digest) : Replication.Harvest :=
  ⟨root, s.traversal.root, s.received.filterMap Replication.put?, s.traversal.outcome⟩

end Sweep

/-! ## Gathering -/

namespace Replication

open Sweep

/-- The options of a replication: all nodes are wanted. -/
def whole (o : TraversalOptions) : TraversalOptions := { o with leavesOnly := false }

/-- Worker and consumer take turns; time runs out only if the consumer pauses for too long. -/
def Paced (o : TraversalOptions) (pause : Nat) (events : List Event) : Prop :=
  ∀ event, event ∈ events →
    event = .work ∨ event = .receive ∨ event = .expire ∧ tooLong o.timeout pause = true

variable {root : Digest} {o : TraversalOptions} {pause : Nat} {events events' : List Event}

theorem paced_of_plain (h : Plain events) : Paced o pause events :=
  fun event hm => (h event hm).imp_right .inl

theorem Paced.append (h : Paced o pause events) (h' : Paced o pause events') :
    Paced o pause (events ++ events') :=
  fun event hm => (List.mem_append.mp hm).elim (h event) (h' event)

/-- While the consumer pauses at a full batch the worker goes on alone, and then its time may have
run out. -/
def paused (o : TraversalOptions) (pause : Nat) (s : Sweep) : Sweep :=
  if s.received.length = batchSize ∧ tooLong o.timeout pause then
    ⟨(s.traversal.settle s.access).1.expire, (s.traversal.settle s.access).2, s.received⟩
  else s

theorem paused_run (o : TraversalOptions) (pause : Nat) (s : Sweep) :
    ∃ wait, Paced o pause wait ∧ s.run wait = paused o pause s := by
  unfold paused
  split
  · next hc =>
    obtain ⟨events, hplain, hrun⟩ :=
      settleWith_run (stepBound s.access) s.traversal s.access s.received
    refine ⟨events ++ [.expire], (paced_of_plain hplain).append fun event hm => ?_, ?_⟩
    · exact .inr (.inr ⟨List.mem_singleton.mp hm, hc.2⟩)
    · rw [run_append]
      exact congrArg (run · [.expire]) hrun
  · exact ⟨[], nofun, rfl⟩

/-- Gathering takes a first batch, may pause, and drains the rest. -/
theorem gather_eq {a b : Access} {t : Traversal} {first : List Event} {s : Sweep}
    (hstart : Traversal.start root (whole o) a = (.ok t, b))
    (htake : t.take batchSize b = (((run ⟨t, b, []⟩ first).received,
      (run ⟨t, b, []⟩ first).traversal), (run ⟨t, b, []⟩ first).access))
    (hs : paused o pause (run ⟨t, b, []⟩ first) = s) :
    gather root o pause a =
      (.ok ⟨root, (s.traversal.drain s.access).1.2.root,
        (s.received ++ (s.traversal.drain s.access).1.1).filterMap put?,
        (s.traversal.drain s.access).1.2.outcome⟩, (s.traversal.drain s.access).2) := by
  have hlift : ∀ {α : Type} (x : StateM Access α) (a : Access),
      (liftM x : AccessM α) a = (.ok (x a).1, (x a).2) := fun _ _ => rfl
  unfold gather
  simp only [run_bind]
  rw [show Traversal.start root { o with leavesOnly := false } a = (.ok t, b) from hstart]
  simp only [hlift, htake]
  subst hs
  unfold paused
  split <;> simp only [run_bind, hlift, run_pure]

/-- What is gathered is what a sweep to the end of the traversal has received. -/
theorem gather_run (pause : Nat) {a b : Access} {t : Traversal} (hb : b.cache = none)
    (hstart : Traversal.start root (whole o) a = (.ok t, b))
    (hcovers : Covers b.find t.root b ⟨t, b, []⟩ []) :
    ∃ events, Paced o pause events ∧ (run ⟨t, b, []⟩ events).Finished ∧
      gather root o pause a =
        (.ok ((run ⟨t, b, []⟩ events).harvest root), (run ⟨t, b, []⟩ events).access) := by
  obtain ⟨first, hfirst, htake, -⟩ :=
    takeWith_run (2 * stepBound b + t.queue.size) batchSize t [] b
  obtain ⟨wait, hwait, hpause⟩ := paused_run o pause (run ⟨t, b, []⟩ first)
  have hgather : gather root o pause a = _ := gather_eq hstart htake rfl
  obtain ⟨visited, hcovers'⟩ := hcovers.run hb rfl (first ++ wait)
  rw [run_append, hpause] at hcovers'
  generalize hs : paused o pause (run ⟨t, b, []⟩ first) = s at hpause hgather hcovers'
  obtain ⟨last, hlast, hdrain, hends⟩ :=
    takeWith_run (2 * stepBound s.access + s.traversal.queue.size)
      (2 * stepBound s.access + s.traversal.queue.size) s.traversal [] s.access
  have hall : run ⟨t, b, []⟩ (first ++ (wait ++ last)) = s.run last := by
    rw [run_append, run_append, hpause]
  refine ⟨first ++ (wait ++ last),
    (paced_of_plain hfirst).append (hwait.append (paced_of_plain hlast)), ?_, ?_⟩
  · rw [hall]
    exact hends b.find t.root b s.received visited hcovers' hb rfl hcovers'.debt_le (Nat.le_refl _)
  · have hrest := run_received s.traversal s.access s.received [] last
    rw [List.append_nil] at hrest
    have hdrain' : s.traversal.drain s.access = _ := hdrain
    rw [hgather, hall, hdrain', show s.run last = _ from hrest]
    rfl

end Replication

end VersionedTrie
