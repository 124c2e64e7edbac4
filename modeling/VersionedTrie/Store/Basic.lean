import VersionedTrie.Store.LogStore
import VersionedTrie.NodeCache

/-! # Stores

A store holds its contents in memory or in a log file. Beside its medium it may carry a fault plan,
by which one read and one write batch fail after so many that work, and a pause that every batch
makes its caller wait. What a handle on a trie reads through is an `Access`: the volume, the store
and, if there is one, the node cache. Reading may change an access without changing any contents: it
uses up the plan and reorders the cache.
-/

set_option autoImplicit false

namespace VersionedTrie

inductive Medium where
  | memory (contents : Contents)
  | log (s : LogStore)

/-- After how many further reads, and after how many further batches, one fails. -/
structure FaultPlan where
  reads : Option Nat
  writes : Option Nat

namespace FaultPlan

def none : FaultPlan := ⟨.none, .none⟩

/-- Counts one operation: whether it is the one to fail, and the count for the next ones. -/
def tick : Option Nat → Bool × Option Nat
  | .none => (false, .none)
  | some 0 => (true, .none)
  | some (n + 1) => (false, some n)

end FaultPlan

structure Store where
  medium : Medium
  plan : FaultPlan
  /-- How long a batch makes its caller wait, in milliseconds. -/
  pause : Nat

namespace Store

def ofMedium (medium : Medium) : Store := ⟨medium, FaultPlan.none, 0⟩

def inMemory : Store := ofMedium (.memory ∅)

instance : Inhabited Store := ⟨inMemory⟩

def size (s : Store) : Nat :=
  match s.medium with
  | .memory m => m.size
  | .log l => l.size

def isEmpty (s : Store) : Bool :=
  match s.medium with
  | .memory m => m.isEmpty
  | .log l => l.isEmpty

def contains (s : Store) (key : ByteArray) : Bool :=
  match s.medium with
  | .memory m => m.contains key
  | .log l => l.contains key

def keys (s : Store) : List ByteArray :=
  match s.medium with
  | .memory m => m.keys
  | .log l => l.index.keys

/-- The value of a key, apart from any planned fault. -/
def lookup (s : Store) (v : Volume) (key : ByteArray) : Except Error (Option ByteArray) :=
  match s.medium with
  | .memory m => .ok m[key]?
  | .log l => l.read v key

/-- All entries, ordered by key, apart from any planned fault. -/
def entries (s : Store) (v : Volume) : Except Error (List (ByteArray × ByteArray)) := do
  let found ← s.keys.mapM fun key => do
    let value ← s.lookup v key
    pure (value.map (key, ·))
  pure (found.filterMap id)

/-- The store and the volume after a batch, apart from any planned fault. -/
def write (s : Store) (batch : WriteBatch) (v : Volume) : Store × Volume :=
  match s.medium with
  | .memory m => ({ s with medium := .memory (batch.apply m) }, v)
  | .log l =>
    let (l, v) := l.write batch v
    ({ s with medium := .log l }, v)

end Store

/-! ## Access -/

structure Access where
  volume : Volume
  store : Store
  cache : Option NodeCache

/-- Actions on an access that may fail; what an action did before it failed stays done. -/
abbrev AccessM := ExceptT Error (StateM Access)

namespace Access

instance : Inhabited Access := ⟨Volume.empty, Store.inMemory, none⟩

def read (key : ByteArray) : AccessM (Option ByteArray) := do
  let a ← get
  let (fails, reads) := FaultPlan.tick a.store.plan.reads
  set { a with store := { a.store with plan := { a.store.plan with reads } } }
  if fails then throw (.corruption .plannedRead)
  match a.store.lookup a.volume key with
  | .ok value => pure value
  | .error e => throw e

def write (batch : WriteBatch) : AccessM Unit := do
  let a ← get
  let (fails, writes) := FaultPlan.tick a.store.plan.writes
  let a := { a with store := { a.store with plan := { a.store.plan with writes } } }
  if fails then
    set a
    throw (.corruption .plannedWrite)
  let (store, volume) := a.store.write batch a.volume
  set { a with store, volume }

def cached (key : NodeKey) : AccessM (Option Node) := do
  let a ← get
  match a.cache with
  | none => pure none
  | some c =>
    let (node, c) := c.get (key.version, key)
    set { a with cache := some c }
    pure node

end Access

end VersionedTrie
