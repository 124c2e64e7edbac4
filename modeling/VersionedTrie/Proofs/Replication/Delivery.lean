import VersionedTrie.Proofs.Commit
import VersionedTrie.Proofs.LogStore.Basic
import VersionedTrie.Replication

/-! # Delivery

A harvest is delivered as a list of batches (`Replication.batches`), which are written one after
another up to the first that fails: every 1024 nodes make a batch, and the last one, which a harvest
that is complete has alone, brings what is left and the anchor. So whatever has been written before
the last batch is nodes (`puts_of_beginning`), and all batches together are the nodes and then the anchor
(`flatten_batches`).
-/

set_option autoImplicit false

namespace VersionedTrie

/-! ## Writing one batch after another -/

namespace Access

/-- The access after the batches, none of which has failed. -/
def writtenAll (a : Access) (batches : List WriteBatch) : Access :=
  batches.foldl (fun a batch => a.writeOnce.written batch) a

/-- After every beginning of the batches the store answers, with what it should have. -/
def Takes (a : Access) (held : Contents) (batches : List WriteBatch) : Prop :=
  ∀ pre, pre <+: batches → ∀ b,
    (a.writtenAll pre).lookup b = .ok (WriteBatch.apply pre.flatten held)[b]?

theorem cache_writtenAll (a : Access) (batches : List WriteBatch) :
    (a.writtenAll batches).cache = a.cache := by
  induction batches generalizing a with
  | nil => rfl
  | cons batch batches ih => exact ih (a.writeOnce.written batch)

theorem takes_inMemory {a : Access} {held : Contents} (ha : a.store.medium = .memory held)
    (batches : List WriteBatch) : a.Takes held batches := by
  have hmedium : ∀ (pre : List WriteBatch) (a : Access) (held : Contents),
      a.store.medium = .memory held →
        (a.writtenAll pre).store.medium = .memory (WriteBatch.apply pre.flatten held) := by
    intro pre
    induction pre with
    | nil => exact fun _ _ ha => ha
    | cons batch pre ih =>
      intro a held ha
      rw [List.flatten_cons, WriteBatch.apply_append]
      refine ih (a.writeOnce.written batch) (batch.apply held) ?_
      have hmedium : a.writeOnce.store.medium = .memory held := ha
      rw [written, Store.write, hmedium]
  intro pre _ b
  rw [lookup, Store.lookup, hmedium pre a held ha]

theorem takes_log {c : Codec} {a : Access} {l : LogStore} {header : ByteArray} {done : List WriteBatch}
    (ha : a.store.medium = .log l) (hw : l.Written c a.volume header done) {batches : List WriteBatch}
    (hfits : ∀ batch, batch ∈ batches → c.Fits batch) :
    a.Takes (WriteBatch.held done) batches := by
  have hwritten : ∀ (pre : List WriteBatch) (a : Access) (l : LogStore) (done : List WriteBatch),
      (∀ batch, batch ∈ pre → c.Fits batch) → a.store.medium = .log l →
        l.Written c a.volume header done → ∃ l' done', (a.writtenAll pre).store.medium = .log l' ∧
          l'.Written c (a.writtenAll pre).volume header done' ∧
          WriteBatch.held done' = WriteBatch.apply pre.flatten (WriteBatch.held done) := by
    intro pre
    induction pre with
    | nil => exact fun a l done _ ha hw => ⟨l, done, ha, hw, rfl⟩
    | cons batch pre ih =>
      intro a l done hfits ha hw
      have hsame : a.writeOnce.store.medium = .log l := ha
      have hmedium : (a.writeOnce.written batch).store.medium = .log (l.write batch a.volume).1 := by
        rw [written, Store.write, hsame]
        rfl
      have hvolume : (a.writeOnce.written batch).volume = (l.write batch a.volume).2 := by
        rw [written, Store.write, hsame]
        rfl
      have hrest : ∀ b, b ∈ pre → c.Fits b := fun b hb => hfits b (List.mem_cons_of_mem _ hb)
      rw [List.flatten_cons, WriteBatch.apply_append]
      cases hempty : batch.isEmpty with
      | true =>
        have hskip : l.write batch a.volume = (l, a.volume) := by
          rw [LogStore.write, if_pos hempty]
        rw [hskip] at hmedium hvolume
        rw [List.isEmpty_iff.mp hempty] at hmedium hvolume ⊢
        exact ih _ l done hrest hmedium (by rwa [hvolume])
      | false =>
        rw [← WriteBatch.held_concat]
        refine ih _ _ (done ++ [batch]) hrest hmedium ?_
        rw [hvolume]
        exact hw.write (hfits batch List.mem_cons_self) hempty
  intro pre hpre b
  obtain ⟨l', done', hmedium, hw', hheld⟩ :=
    hwritten pre a l done (fun batch hb => hfits batch (hpre.subset hb)) ha hw
  rw [lookup, Store.lookup, hmedium, ← hheld]
  exact hw'.read b

end Access

namespace Replication

def writeAll : List WriteBatch → AccessM Unit
  | [] => pure ()
  | batch :: batches => do
    Access.write batch
    writeAll batches

section WriteAll

variable {batches : List WriteBatch} {a : Access}

theorem writeAll_append (l l' : List WriteBatch) :
    writeAll (l ++ l') = (writeAll l >>= fun _ => writeAll l') := by
  induction l with
  | nil => rw [List.nil_append, writeAll, pure_bind]
  | cons batch l ih => rw [List.cons_append, writeAll, writeAll, ih, bind_assoc]

theorem plan_written (a : Access) (batch : WriteBatch) :
    (a.writeOnce.written batch).store.plan.writes = (FaultPlan.tick a.store.plan.writes).2 :=
  congrArg FaultPlan.writes (Trie.plan_write ..)

theorem run_writeAll_cons (batch : WriteBatch) (batches : List WriteBatch) (a : Access) :
    writeAll (batch :: batches) a =
      if (FaultPlan.tick a.store.plan.writes).1 then
        (.error (.corruption .plannedWrite), a.writeOnce)
      else writeAll batches (a.writeOnce.written batch) := by
  rw [writeAll, run_bind, Access.run_write]
  cases (FaultPlan.tick a.store.plan.writes).1 <;> rfl

theorem writeAll_ok (h : ∀ m, a.store.plan.writes = some m → batches.length ≤ m) :
    writeAll batches a = (.ok (), a.writtenAll batches) := by
  induction batches generalizing a with
  | nil => rfl
  | cons batch batches ih =>
    have hplan := plan_written a batch
    rw [run_writeAll_cons]
    cases hw : a.store.plan.writes with
    | none =>
      rw [hw] at hplan
      refine ih fun m hm => ?_
      rw [hm] at hplan
      cases hplan
    | some n =>
      have hle := h n hw
      rw [hw] at hplan
      cases n with
      | zero => exact absurd hle (Nat.not_succ_le_zero _)
      | succ n =>
        refine ih fun m hm => ?_
        rw [hm] at hplan
        obtain rfl : m = n := Option.some.inj hplan
        exact Nat.le_of_succ_le_succ hle

theorem writeAll_error {m : Nat} (hm : a.store.plan.writes = some m) (hlt : m < batches.length) :
    writeAll batches a =
      (.error (.corruption .plannedWrite), (a.writtenAll (batches.take m)).writeOnce) := by
  induction batches generalizing a m with
  | nil => exact absurd hlt (Nat.not_lt_zero m)
  | cons batch batches ih =>
    have hplan := plan_written a batch
    rw [hm] at hplan
    rw [run_writeAll_cons, hm]
    cases m with
    | zero => rfl
    | succ m => exact ih hplan (Nat.lt_of_succ_lt_succ hlt)

end WriteAll

/-! ## Full batches -/

def chunks : Nat → WriteBatch → List WriteBatch
  | 0, _ => []
  | n + 1, ops => ops.take batchSize :: chunks n (ops.drop batchSize)

def fullBatches (ops : WriteBatch) : List WriteBatch := chunks (ops.length / batchSize) ops

/-- What is left over when the full batches are taken. -/
def remainder (ops : WriteBatch) : WriteBatch := ops.drop (ops.length / batchSize * batchSize)

theorem flatten_chunks (n : Nat) (ops : WriteBatch) :
    (chunks n ops).flatten ++ ops.drop (n * batchSize) = ops := by
  induction n generalizing ops with
  | zero => rw [Nat.zero_mul]; rfl
  | succ n ih =>
    have hrest := ih (ops.drop batchSize)
    rw [List.drop_drop] at hrest
    rw [chunks, List.flatten_cons, List.append_assoc, Nat.succ_mul, Nat.add_comm, hrest,
      List.take_append_drop]

theorem flatten_fullBatches (ops : WriteBatch) :
    (fullBatches ops).flatten ++ remainder ops = ops := flatten_chunks _ ops

theorem writeFull_eq (fuel : Nat) (ops : WriteBatch) (hfuel : ops.length ≤ fuel) :
    writeFull fuel ops = (do
      writeAll (fullBatches ops)
      pure (remainder ops)) := by
  have hpos : 0 < batchSize := by decide
  induction fuel generalizing ops with
  | zero =>
    obtain rfl : ops = [] := List.eq_nil_of_length_eq_zero (Nat.le_zero.mp hfuel)
    rfl
  | succ fuel ih =>
    rw [writeFull]
    by_cases hfull : batchSize ≤ ops.length
    · have hcount : ops.length / batchSize = (ops.drop batchSize).length / batchSize + 1 := by
        rw [List.length_drop, Nat.div_eq_sub_div hpos hfull]
      have hbatches : fullBatches ops = ops.take batchSize :: fullBatches (ops.drop batchSize) := by
        rw [fullBatches, hcount, chunks, fullBatches]
      have hrest : remainder ops = remainder (ops.drop batchSize) := by
        rw [remainder, remainder, hcount, List.drop_drop, Nat.succ_mul, Nat.add_comm]
      rw [if_pos hfull, ih _ (by rw [List.length_drop]; omega), hbatches, hrest, writeAll, bind_assoc]
    · have hcount : ops.length / batchSize = 0 := Nat.div_eq_of_lt (Nat.lt_of_not_le hfull)
      rw [if_neg hfull, fullBatches, remainder, hcount]
      rfl

/-! ## The batches of a harvest -/

namespace Harvest

def anchorPut (h : Harvest) : WriteBatch :=
  match h.rootKey with
  | some key => [.put h.root.bytes key.encode]
  | none => []

def lastBatch (h : Harvest) : List WriteBatch :=
  let last := remainder h.puts ++ h.anchorPut
  if last.isEmpty then [] else [last]

/-- What a delivery says once all batches have been written. -/
def verdict (h : Harvest) : Except Error Nat :=
  match h.outcome with
  | some .completed => .ok h.puts.length
  | some (.failed e) => .error e
  | some (.cut cutoff) => .error (.exportIncomplete h.root cutoff)
  | none => .error .reportMissing

theorem verdict_eq_ok (h : Harvest) {n : Nat} :
    h.verdict = .ok n ↔ h.outcome = some .completed ∧ n = h.puts.length := by
  unfold verdict
  cases h.outcome with
  | none => simp
  | some out => cases out <;> simp [eq_comm]

end Harvest

def batches (h : Harvest) : List WriteBatch :=
  fullBatches h.puts ++ if h.verdict.isOk then h.lastBatch else []

theorem run_deliver (h : Harvest) (a : Access) :
    deliver h a =
      match writeAll (batches h) a with
      | (.ok (), b) => (h.verdict, b)
      | (.error e, b) => (.error e, b) := by
  have hlast : ∀ a : Access, (do
      if !(remainder h.puts ++ h.anchorPut).isEmpty then
        Access.write (remainder h.puts ++ h.anchorPut)
      pure h.puts.length : AccessM Nat) a =
      match writeAll h.lastBatch a with
      | (.ok (), b) => (.ok h.puts.length, b)
      | (.error e, b) => (.error e, b) := by
    intro a
    rw [Harvest.lastBatch]
    cases (remainder h.puts ++ h.anchorPut).isEmpty with
    | true => rfl
    | false =>
      simp only [Bool.not_false, if_true, Bool.false_eq_true, if_false, writeAll,
        run_bind]
      cases Access.write (remainder h.puts ++ h.anchorPut) a with
      | mk o b => cases o <;> rfl
  unfold deliver batches Harvest.verdict
  rw [writeFull_eq _ _ (Nat.le_refl _)]
  simp only [bind_assoc, pure_bind]
  obtain ⟨root, rootKey, puts, outcome⟩ := h
  rw [run_bind, writeAll_append, run_bind]
  cases hw : writeAll (fullBatches puts) a with
  | mk o b =>
    cases o with
    | error e => rfl
    | ok =>
      rcases outcome with _ | _ | _ | _
      · rfl
      · exact hlast b
      · rfl
      · rfl

/-- A delivery succeeds if the harvest is complete and no batch is planned to fail. -/
theorem deliver_ok_iff {h : Harvest} {a : Access} {n : Nat} :
    (deliver h a).1 = .ok n ↔ h.verdict = .ok n ∧
      ∀ m, a.store.plan.writes = some m → (batches h).length ≤ m := by
  rw [run_deliver]
  by_cases hspared : ∀ m, a.store.plan.writes = some m → (batches h).length ≤ m
  · rw [writeAll_ok hspared]
    exact (and_iff_left hspared).symm
  · simp only [not_forall] at hspared
    obtain ⟨m, hm, hlt⟩ := hspared
    rw [writeAll_error hm (Nat.lt_of_not_le hlt)]
    exact ⟨nofun, fun h => absurd (h.2 m hm) hlt⟩

/-- What the store has after a delivery is what some first batches have made of it. -/
theorem lookup_deliver {h : Harvest} {a : Access} :
    ∃ pre, pre <+: batches h ∧
      (∀ b, (deliver h a).2.lookup b = (a.writtenAll pre).lookup b) ∧
      (pre = batches h ∧ (deliver h a).1 = h.verdict ∨
        pre ≠ batches h ∧ ∃ e, (deliver h a).1 = .error e) := by
  rw [run_deliver]
  by_cases hspared : ∀ m, a.store.plan.writes = some m → (batches h).length ≤ m
  · rw [writeAll_ok hspared]
    exact ⟨batches h, List.prefix_rfl, fun _ => rfl, .inl ⟨rfl, rfl⟩⟩
  · simp only [not_forall] at hspared
    obtain ⟨m, hm, hlt⟩ := hspared
    rw [writeAll_error hm (Nat.lt_of_not_le hlt)]
    refine ⟨(batches h).take m, List.take_prefix _ _, fun _ => rfl, .inr ⟨fun e => hlt ?_, _, rfl⟩⟩
    rw [← e]
    exact List.length_take_le m _

theorem cache_deliver (h : Harvest) (a : Access) : (deliver h a).2.cache = a.cache := by
  rw [run_deliver]
  by_cases hspared : ∀ m, a.store.plan.writes = some m → (batches h).length ≤ m
  · rw [writeAll_ok hspared]
    exact a.cache_writtenAll _
  · simp only [not_forall] at hspared
    obtain ⟨m, hm, hlt⟩ := hspared
    rw [writeAll_error hm (Nat.lt_of_not_le hlt)]
    exact a.cache_writtenAll _

/-! ## What the batches hold -/

section Batches

variable {h : Harvest} {pre : List WriteBatch}

theorem flatten_batches (hok : h.verdict.isOk = true) :
    (batches h).flatten = h.puts ++ h.anchorPut := by
  have hlast : h.lastBatch.flatten = remainder h.puts ++ h.anchorPut := by
    rw [Harvest.lastBatch]
    cases hempty : (remainder h.puts ++ h.anchorPut).isEmpty with
    | true =>
      rw [List.isEmpty_iff.mp hempty]
      rfl
    | false => simp
  rw [batches, if_pos hok, List.flatten_append, hlast, ← List.append_assoc, flatten_fullBatches]

/-- Before the last batch of a complete harvest only nodes are written. -/
theorem puts_of_beginning (hpre : pre <+: batches h) (hne : h.verdict.isOk = true → pre ≠ batches h)
    {op : WriteOp} (hop : op ∈ pre.flatten) : op ∈ h.puts := by
  have hfull : pre <+: fullBatches h.puts := by
    cases hok : h.verdict.isOk with
    | false =>
      rw [batches, hok, if_neg Bool.false_ne_true, List.append_nil] at hpre
      exact hpre
    | true =>
      have hne := hne hok
      rw [batches, if_pos hok] at hpre hne
      rw [Harvest.lastBatch] at hpre hne
      split at hpre
      · rwa [List.append_nil] at hpre
      · next hlast =>
        rw [if_neg hlast] at hne
        exact (List.prefix_concat_iff.mp hpre).resolve_left hne
  have hmem : op ∈ (fullBatches h.puts).flatten := by
    obtain ⟨batch, hbatch, hop⟩ := List.mem_flatten.mp hop
    exact List.mem_flatten.mpr ⟨batch, hfull.subset hbatch, hop⟩
  rw [← flatten_fullBatches h.puts]
  exact List.mem_append_left _ hmem

end Batches

end Replication

end VersionedTrie
