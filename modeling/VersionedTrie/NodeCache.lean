import VersionedTrie.Node.Basic

/-! # Node caches

A cache of decoded nodes in front of a store, under version and node key together. Every use of an
entry, by a look-up that finds it or by writing it, gives it the next stamp; a full cache drops the
entry with the least stamp, which is the least recently used one. What a cache holds never decides a
result: a miss falls back to the store. The main statements say what a key holds after an entry has
been erased (`node?_erase`) or written (`node?_put`), whichever entry has to go for it.
-/

set_option autoImplicit false

namespace VersionedTrie

abbrev CacheKey := Version × NodeKey

namespace CacheKey

def order : CacheKey → CacheKey → Ordering :=
  compareLex (compareOn Prod.fst) (compareOn Prod.snd)

instance : Std.TransCmp order := inferInstanceAs (Std.TransCmp (compareLex _ _))

instance : Std.LawfulEqCmp order where
  compare_self := by
    intro a
    simp only [order, compareLex_eq_eq, compareOn]
    exact ⟨Std.ReflCmp.compare_self, Std.ReflCmp.compare_self⟩
  eq_of_compare := by
    intro a b h
    simp only [order, compareLex_eq_eq, compareOn] at h
    exact Prod.ext (Std.LawfulEqCmp.eq_of_compare h.1) (Std.LawfulEqCmp.eq_of_compare h.2)

end CacheKey

structure CacheEntry where
  node : Node
  stamp : Nat

structure NodeCache where
  capacity : Nat
  entries : Std.ExtTreeMap CacheKey CacheEntry CacheKey.order
  /-- The key of the entry that bears a stamp. -/
  bearers : Std.ExtTreeMap Nat CacheKey
  /-- Greater than every stamp in use. -/
  nextStamp : Nat

namespace NodeCache

/-- An empty cache of at least one place. -/
def ofCapacity (capacity : Nat) : NodeCache := ⟨max 1 capacity, ∅, ∅, 0⟩

def size (c : NodeCache) : Nat := c.entries.size

/-- What the cache holds under a key; looking this way is no use of the entry. -/
def node? (c : NodeCache) (key : CacheKey) : Option Node := (c.entries[key]?).map (·.node)

def erase (c : NodeCache) (key : CacheKey) : NodeCache :=
  match c.entries[key]? with
  | some e => { c with entries := c.entries.erase key, bearers := c.bearers.erase e.stamp }
  | none => c

/-- Drops the least recently used entry. -/
def dropOldest (c : NodeCache) : NodeCache :=
  match c.bearers.minEntry? with
  | some (_, key) => c.erase key
  | none => c

/-- Gives a key that is not in the cache an entry with the next stamp. -/
def insert (c : NodeCache) (key : CacheKey) (node : Node) : NodeCache :=
  { c with
    entries := c.entries.insert key ⟨node, c.nextStamp⟩
    bearers := c.bearers.insert c.nextStamp key
    nextStamp := c.nextStamp + 1 }

/-- The entry becomes the most recent; a new one takes the place of the oldest if there is no
other. -/
def put (c : NodeCache) (key : CacheKey) (node : Node) : NodeCache :=
  let c := c.erase key
  let c := if c.size < c.capacity then c else c.dropOldest
  c.insert key node

def get (c : NodeCache) (key : CacheKey) : Option Node × NodeCache :=
  match c.node? key with
  | some node => (some node, (c.erase key).insert key node)
  | none => (none, c)

/-- Forgets the superseded nodes, then remembers the ones written at a version. -/
def update (c : NodeCache) (version : Version) (written : List (NodeKey × Node))
    (superseded : List NodeKey) : NodeCache :=
  let c := superseded.foldl (fun c key => c.erase (key.version, key)) c
  written.foldl (fun c (key, node) => c.put (version, key) node) c

/-! ## What a key holds -/

theorem node?_erase (c : NodeCache) (key k : CacheKey) :
    (c.erase key).node? k = if key = k then none else c.node? k := by
  unfold erase
  split
  · by_cases h : key = k <;> simp [node?, Std.ExtTreeMap.getElem?_erase, h]
  · next hn =>
    by_cases h : key = k
    · subst h
      simp [node?, hn]
    · simp [h]

theorem node?_insert (c : NodeCache) (key : CacheKey) (node : Node) (k : CacheKey) :
    (c.insert key node).node? k = if key = k then some node else c.node? k := by
  by_cases h : key = k <;> simp [insert, node?, Std.ExtTreeMap.getElem?_insert, h]

theorem node?_dropOldest (c : NodeCache) (k : CacheKey) :
    c.dropOldest.node? k = c.node? k ∨ c.dropOldest.node? k = none := by
  unfold dropOldest
  split
  · next key _ =>
    rw [node?_erase]
    by_cases h : key = k <;> simp [h]
  · exact .inl rfl

/-- A written key holds its node; any other key holds what it held, or has been dropped. -/
theorem node?_put (c : NodeCache) (key : CacheKey) (node : Node) (k : CacheKey) :
    if key = k then (c.put key node).node? k = some node
    else (c.put key node).node? k = c.node? k ∨ (c.put key node).node? k = none := by
  by_cases h : key = k
  · simp [put, node?_insert, h]
  · simp only [put, node?_insert, h, if_false]
    split
    · simp [node?_erase, h]
    · have hd := (c.erase key).node?_dropOldest k
      simpa [node?_erase, h] using hd

theorem get_fst (c : NodeCache) (key : CacheKey) : (c.get key).1 = c.node? key := by
  unfold get
  split <;> simp_all

theorem node?_get (c : NodeCache) (key k : CacheKey) : (c.get key).2.node? k = c.node? k := by
  unfold get
  split
  · next node hn =>
    rw [node?_insert, node?_erase]
    by_cases h : key = k
    · subst h
      simp [hn]
    · simp [h]
  · rfl

end NodeCache

end VersionedTrie
