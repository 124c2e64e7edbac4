import VersionedTrie.Traversal.Basic

/-! # Schedules of a traversal

How worker and consumer take turns. A worker left alone goes on until it is blocked or has ended
(`settle`); a consumer that wants items lets it do so whenever the queue is empty (`take`); one that
wants everything takes each item as soon as it is there (`drain`). Every visit needs a node key of
its own that the store or the cache holds, so the number of a worker's steps is bounded by what the
access holds.
-/

set_option autoImplicit false

namespace VersionedTrie.Traversal

/-- More steps than a worker can take: two for each node key that can be visited, and the last. -/
def stepBound (a : Access) : Nat :=
  2 * (a.store.size + (a.cache.elim 0 (·.size)) + 2)

/-- At most `fuel` steps of the worker, until it is blocked or has ended. -/
def settleWith : Nat → Traversal → StateM Access Traversal
  | 0, t => pure t
  | fuel + 1, t => do
    if t.outcome.isSome || t.isBlocked then pure t
    else do
      let t ← t.advance
      settleWith fuel t

def settle (t : Traversal) : StateM Access Traversal := do
  settleWith (stepBound (← get)) t

/-- Receives up to `n` items, the worker running ahead as far as it can. -/
def takeAhead : Nat → Traversal → List Item → StateM Access (List Item × Traversal)
  | 0, t, taken => pure (taken.reverse, t)
  | n + 1, t, taken => do
    let t ← if t.queue.size = 0 then settle t else pure t
    match t.receive with
    | (none, t) => pure (taken.reverse, t)
    | (some item, t) => takeAhead n t (item :: taken)

/-- Receives at most `limit` items, each as soon as it is there, with at most `fuel` steps of the
worker. -/
def takeWith : Nat → Nat → Traversal → List Item → StateM Access (List Item × Traversal)
  | 0, _, t, taken => pure (taken.reverse, t)
  | fuel + 1, limit, t, taken =>
    if limit = 0 then pure (taken.reverse, t)
    else
      match t.receive with
      | (some item, t) => takeWith fuel (limit - 1) t (item :: taken)
      | (none, t) =>
        if t.outcome.isSome then pure (taken.reverse, t)
        else do
          let t ← t.advance
          takeWith fuel limit t taken

/-- Receives at most `limit` items, each as soon as it is there. -/
def take (limit : Nat) (t : Traversal) : StateM Access (List Item × Traversal) := do
  takeWith (2 * stepBound (← get) + t.queue.size) limit t []

def drain (t : Traversal) : StateM Access (List Item × Traversal) := do
  let bound := 2 * stepBound (← get) + t.queue.size
  takeWith bound bound t []

end VersionedTrie.Traversal
