import VersionedTrie.Traversal.Queue
import VersionedTrie.Trie.Basic

/-! # Traversals

A traversal visits every node reachable from one committed root. It keeps the node keys still to be
visited and always takes the greatest of them, which fixes the order; visiting a branch adds the
keys of its children. What it emits goes through a queue of bounded length to a consumer: an item
that finds no room is held until the consumer has taken one. The consumer may ask the traversal to
stop, which it does before its next visit or emission, and an item held too long ends it too.
Exactly one outcome is reported, after which nothing is queued.
-/

set_option autoImplicit false

namespace VersionedTrie

inductive Item where
  | node (key : NodeKey) (node : Node)
  | entry (key value : ByteArray)

inductive Outcome where
  | completed
  | cut (cutoff : Cutoff)
  | failed (e : Error)

structure TraversalOptions where
  capacity : Nat
  /-- How long an item may be held, in milliseconds; `none` is forever. -/
  timeout : Option Nat
  leavesOnly : Bool

structure Traversal where
  root : Option NodeKey
  capacity : Nat
  leavesOnly : Bool
  pending : NodeSet
  /-- The item that waits for room in the queue. -/
  held : Option Item
  /-- Items emitted and not yet received. -/
  queue : Queue Item
  stopAsked : Bool
  outcome : Option Outcome

namespace Traversal

/-- The traversal from a node key; the queue has at least one place. -/
def ofRoot (root : Option NodeKey) (o : TraversalOptions) : Traversal where
  root
  capacity := max 1 o.capacity
  leavesOnly := o.leavesOnly
  pending := root.elim ∅ fun key => (∅ : NodeSet).insert key
  held := none
  queue := .empty
  stopAsked := false
  outcome := none

def start (root : Digest) (o : TraversalOptions) : AccessM Traversal := do
  if root = Digest.placeholder then pure (ofRoot none o)
  else do
    let key ← readAnchor root
    pure (ofRoot (some key) o)

/-! ## The worker -/

def childKeys (key : NodeKey) : Node → List NodeKey
  | .leaf _ => []
  | .branch b => b.children.map fun (n, c) => key.child c.version n

def emission (leavesOnly : Bool) (key : NodeKey) (node : Node) : Except Error (Option Item) :=
  match leavesOnly, node with
  | false, node => .ok (some (.node key node))
  | true, .branch _ => .ok none
  | true, .leaf l =>
    match l.key.toKey? with
    | some k => .ok (some (.entry k l.value))
    | none => .error (.corruptNode (.oddLeaf key))

def finish (t : Traversal) (outcome : Outcome) : Traversal :=
  { t with held := none, outcome := some outcome }

def visit (t : Traversal) (key : NodeKey) : StateM Access Traversal := do
  let t := { t with pending := t.pending.erase key }
  match ← (readThroughCache key).run with
  | .error e => pure (t.finish (.failed e))
  | .ok node =>
    let t := { t with pending := (childKeys key node).foldl (fun s k => s.insert k) t.pending }
    match emission t.leavesOnly key node with
    | .error e => pure (t.finish (.failed e))
    | .ok held => pure { t with held }

def hasRoom (t : Traversal) : Bool := t.queue.size < t.capacity

/-- One step of the worker: it emits the item held, or else visits the next key. -/
def advance (t : Traversal) : StateM Access Traversal :=
  if t.outcome.isSome then pure t
  else
    match t.held with
    | some item =>
      if t.stopAsked then pure (t.finish (.cut .interrupted))
      else if t.hasRoom then pure { t with held := none, queue := t.queue.push item }
      else pure t
    | none =>
      match t.pending.max? with
      | none => pure (t.finish .completed)
      | some key => if t.stopAsked then pure (t.finish (.cut .interrupted)) else t.visit key

/-! ## The consumer and the clock -/

def receive (t : Traversal) : Option Item × Traversal :=
  match t.queue.pop with
  | none => (none, t)
  | some (item, queue) => (some item, { t with queue })

/-- Asks the worker to stop; asking again changes nothing. -/
def stop (t : Traversal) : Traversal := { t with stopAsked := true }

/-- Gives up the traversal and whatever is queued. -/
def abandon (t : Traversal) : Traversal := { t.stop with queue := .empty }

/-- Whether the worker can do nothing until the consumer acts. -/
def isBlocked (t : Traversal) : Bool :=
  t.outcome.isNone && t.held.isSome && !t.hasRoom && !t.stopAsked

/-- The time of the item held runs out. -/
def expire (t : Traversal) : Traversal :=
  if t.isBlocked then t.finish (.cut .timedOut) else t

end Traversal

end VersionedTrie
