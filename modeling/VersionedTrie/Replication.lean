import VersionedTrie.Traversal.Schedule

/-! # Replication

A root is copied into another store by traversing it and writing the nodes in batches of 1024; the
anchor goes with the last batch, after a completed traversal, so that the destination never holds an
anchor whose nodes it lacks. A traversal that ends early or reports no outcome, or a batch that
fails, is an error, and the anchor is not written. While a batch is being written nobody receives: if
that takes longer than an item may be held and the queue runs full, the traversal times out.
-/

set_option autoImplicit false

namespace VersionedTrie.Replication

def batchSize : Nat := 1024

/-- What a traversal has brought out of the source. -/
structure Harvest where
  root : Digest
  rootKey : Option NodeKey
  puts : WriteBatch
  outcome : Option Outcome

def put? : Item → Option WriteOp
  | .node key node => some (.put key.encode node.encode)
  | .entry _ _ => none

/-- Whether an item held throughout a pause of the consumer is held too long. -/
def tooLong (timeout : Option Nat) (pause : Nat) : Bool :=
  timeout.any (· < pause)

/-- Traverses the source for a consumer that pauses at every full batch. -/
def gather (root : Digest) (o : TraversalOptions) (pause : Nat) : AccessM Harvest := do
  let t ← Traversal.start root { o with leavesOnly := false }
  let (first, t) ← liftM (t.take batchSize)
  let t ←
    if first.length = batchSize ∧ tooLong o.timeout pause then do
      let t ← liftM t.settle
      pure t.expire
    else pure t
  let (rest, t) ← liftM t.drain
  pure ⟨root, t.root, (first ++ rest).filterMap put?, t.outcome⟩

/-- Writes the full batches among the given operations; gives the operations left over. -/
def writeFull : Nat → WriteBatch → AccessM WriteBatch
  | 0, ops => pure ops
  | fuel + 1, ops =>
    if batchSize ≤ ops.length then do
      Access.write (ops.take batchSize)
      writeFull fuel (ops.drop batchSize)
    else pure ops

/-- Writes a harvest to the destination; gives the number of nodes. -/
def deliver (h : Harvest) : AccessM Nat := do
  let left ← writeFull h.puts.length h.puts
  match h.outcome with
  | some .completed =>
    let anchor :=
      match h.rootKey with
      | some key => [WriteOp.put h.root.bytes key.encode]
      | none => []
    let last := left ++ anchor
    if !last.isEmpty then Access.write last
    pure h.puts.length
  | some (.failed e) => throw e
  | some (.cut cutoff) => throw (.exportIncomplete h.root cutoff)
  | none => throw .reportMissing

/-- Copies a root from one store of a volume into another; gives the outcome, the volume, the source
and the destination. -/
def replicate (root : Digest) (o : TraversalOptions) (v : Volume) (source dest : Store) :
    Except Error Nat × Volume × Store × Store :=
  let (h, a) := (gather root o dest.pause).run ⟨v, source, none⟩
  match h with
  | .error e => (.error e, a.volume, a.store, dest)
  | .ok h =>
    let (r, b) := (deliver h).run ⟨a.volume, dest, none⟩
    (r, b.volume, a.store, b.store)

end VersionedTrie.Replication
