import VersionedTrie.Proofs.ReadOnly
import VersionedTrie.Proofs.NodeLayout

/-! # Commits and what they leave behind

A commit writes the dirty nodes and then the anchor of the root. Afterwards the contents of the
store have the stored form of every node of the tree under its node key (`getElem?_batch`), with one
exception: the anchor of a root is stored under the digest of the root, and where this happens to be
the stored form of a node key of the tree, the anchor has taken the place of that node. The anchor
is then too short for a node, so that what the store has there never passes for one (`backs_batch`).

Loading a root follows its anchor to a handle that has nothing but the committed tree.
-/

set_option autoImplicit false

namespace VersionedTrie

open VersionedTrie.Tree

theorem NodeKey.encode_inj {j k : NodeKey} : j.encode = k.encode ↔ j = k := by
  constructor
  · intro h
    have hj := decode_encode j
    rw [h, decode_encode k] at hj
    exact (Except.ok.inj hj).symm
  · rintro rfl
    rfl

theorem NodeKey.size_encode (k : NodeKey) :
    k.encode.size = 9 + k.tree.bytes.size + k.path.length := by
  have hp : k.stored.bytes.size = k.path.length := by
    rw [← k.stored.bytes_toPath, Path.size_bytes]
    rfl
  simp only [encode, ByteArray.size_append, Bytes.size_bigBytes, Bytes.size_littleBytes, hp]
  omega

namespace Tree

variable {tree : TreePrefix} {T : Tree} {m : Entries} {k : NodeKey} {x : Node}

/-- Every leaf is an entry of an admissible size. -/
def Admissible (T : Tree) : Prop :=
  ∀ l, T.Has l → l.key.length ≤ 2 * maxKeySize ∧ l.value.size ≤ maxValueSize

theorem Holds.admissible (h : T.Holds m) (hb : m.Bounded) : T.Admissible := by
  intro l hl
  obtain ⟨key, value, hm, rfl⟩ := (h l).mp hl
  obtain ⟨⟨_, hk⟩, _, hv⟩ := hb key value hm
  refine ⟨?_, hv⟩
  show (Path.ofKey key).length ≤ _
  rw [Path.length_ofKey]
  omega

/-- The anchor of the tree takes the place of no node below its root. -/
def Spared (tree : TreePrefix) (T : Tree) : Prop :=
  T.digest ≠ Digest.placeholder → ∀ k x, Owns tree [] T k x → T.key? tree [] ≠ some k →
    k.encode ≠ T.digest.bytes

theorem storable_of_owns {p : Path} (hT : T.Compact p) (hm : T.Admissible)
    (hk : Owns tree p T k x) : x.Storable := by
  induction hk with
  | @leaf p version l =>
    obtain ⟨hkey, hvalue⟩ := hm l .leaf
    have hsizes : 2 * maxKeySize < Bytes.span 8 ∧ maxValueSize < Bytes.span 8 := by decide
    exact ⟨by omega, by omega⟩
  | @branch p version below =>
    obtain ⟨l, hl⟩ := hT.exists_has nofun
    obtain ⟨n, hn⟩ := has_branch.mp hl
    rw [Node.Storable, ← Bool.not_eq_true, isEmpty_joining]
    intro hv
    rw [hv n] at hn
    exact not_has_vacant hn
  | child n hk ih => exact ih (hT.child n) fun l hl => hm l (.branch n hl)

end Tree

/-! ## The contents after a commit -/

theorem WriteOp.apply_put_self (held : Contents) (b v : ByteArray) :
    ((put b v).apply held)[b]? = some v :=
  (apply_get? ..).trans (if_pos rfl)

theorem WriteOp.apply_put_ne (held : Contents) {b b' : ByteArray} (v : ByteArray) (h : b ≠ b') :
    ((put b v).apply held)[b']? = held[b']? :=
  (apply_get? ..).trans (if_neg h)

/-- No stored form under the node key is that of another node. -/
def Contents.Backs (held : Contents) (k : NodeKey) (x : Node) : Prop :=
  ∀ b y, held[k.encode]? = some b → Node.decode b = .ok y → y = x

/-- The stored form of the node is under the node key. -/
def Contents.Keeps (held : Contents) (k : NodeKey) (x : Node) : Prop :=
  held[k.encode]? = some x.encode ∧ x.Storable

theorem Contents.Keeps.backs {held : Contents} {k : NodeKey} {x : Node} (h : held.Keeps k x) :
    held.Backs k x := by
  intro b y hb hy
  rw [h.1] at hb
  rw [← Option.some.inj hb, Node.decode_encode h.2] at hy
  exact (Except.ok.inj hy).symm

namespace Trie

section Batch

variable {t : Trie} {base T : Tree} {held : Contents} {root : Digest} {k : NodeKey} {x : Node}

theorem apply_nodePuts (t : Trie) (held : Contents) (root : Digest) :
    (t.journal root).nodePuts.apply held =
      t.dirty.toList.foldl (fun h r => (WriteOp.put r.1.encode r.2.encode).apply h) held := by
  rw [Journal.nodePuts, journal, WriteBatch.apply, List.map_map, List.foldl_map]
  rfl

theorem getElem?_nodePuts_dirty (h : t.dirty[k]? = some x) :
    ((t.journal root).nodePuts.apply held)[k.encode]? = some x.encode := by
  rw [apply_nodePuts]
  refine foldl_written (P := fun s : Contents => s[k.encode]? = some x.encode) h (fun s => ?_) ?_ _
  · exact WriteOp.apply_put_self ..
  · intro s j y hj hs
    exact (WriteOp.apply_put_ne s _ (NodeKey.encode_inj.not.mpr hj)).trans hs

theorem getElem?_nodePuts_ne {b : ByteArray}
    (h : ∀ (k : NodeKey) (x : Node), t.dirty[k]? = some x → k.encode ≠ b) :
    ((t.journal root).nodePuts.apply held)[b]? = held[b]? := by
  rw [apply_nodePuts]
  have hput : ∀ r, r ∈ t.dirty.toList → r.1.encode ≠ b := fun r hr =>
    h r.1 r.2 (Std.ExtTreeMap.mem_toList_iff_getElem?_eq_some.mp hr)
  generalize t.dirty.toList = l at hput
  induction l generalizing held with
  | nil => rfl
  | cons r l ih =>
    rw [List.foldl_cons, ih fun r hr => hput r (List.mem_cons_of_mem _ hr)]
    exact WriteOp.apply_put_ne held _ (hput r List.mem_cons_self)

theorem getElem?_nodePuts_clean (h : t.dirty[k]? = none) :
    ((t.journal root).nodePuts.apply held)[k.encode]? = held[k.encode]? := by
  refine getElem?_nodePuts_ne fun j x hj e => ?_
  rw [NodeKey.encode_inj.mp e, h] at hj
  cases hj

theorem mem_written {b : ByteArray} :
    (k, b) ∈ (t.journal root).written ↔ ∃ x, t.dirty[k]? = some x ∧ b = x.encode := by
  simp only [journal, List.mem_map, Prod.exists, Prod.mk.injEq,
    Std.ExtTreeMap.mem_toList_iff_getElem?_eq_some]
  constructor
  · rintro ⟨_, x, hx, rfl, rfl⟩
    exact ⟨x, hx, rfl⟩
  · rintro ⟨x, hx, rfl⟩
    exact ⟨k, x, hx, rfl, rfl⟩

theorem getElem?_batch_ne {b : ByteArray} (h : t.root ≠ none → b ≠ root.bytes) :
    (((t.journal root).batch false).apply held)[b]? =
      ((t.journal root).nodePuts.apply held)[b]? := by
  rw [Journal.batch, if_neg Bool.false_ne_true, List.nil_append, WriteBatch.apply_append,
    Journal.anchorPut]
  have hroot : (t.journal root).rootKey = t.root := rfl
  rw [hroot]
  cases hr : t.root with
  | none => rfl
  | some rk =>
    have hne : t.root ≠ none := by simp [hr]
    exact WriteOp.apply_put_ne _ _ (h hne).symm

theorem getElem?_batch_anchor {rk : NodeKey} (h : t.root = some rk) :
    (((t.journal root).batch false).apply held)[root.bytes]? = some rk.encode := by
  rw [Journal.batch, if_neg Bool.false_ne_true, List.nil_append, WriteBatch.apply_append,
    Journal.anchorPut]
  have hroot : (t.journal root).rootKey = t.root := rfl
  rw [hroot, h]
  exact WriteOp.apply_put_self ..

/-- Whatever is there after a commit is its anchor, a dirty node or was there before. -/
theorem getElem?_of_batch {b v : ByteArray}
    (h : (((t.journal root).batch false).apply held)[b]? = some v) :
    b = root.bytes ∨ (∃ (k : NodeKey) (x : Node), t.dirty[k]? = some x ∧ b = k.encode) ∨
      held[b]? = some v := by
  by_cases hroot : b = root.bytes
  · exact .inl hroot
  · rw [getElem?_batch_ne fun _ => hroot] at h
    by_cases hd : ∃ (k : NodeKey) (x : Node), t.dirty[k]? = some x ∧ b = k.encode
    · exact .inr (.inl hd)
    · rw [getElem?_nodePuts_ne fun k x hk e => hd ⟨k, x, hk, e.symm⟩] at h
      exact .inr (.inr h)

/-- The nodes of the tree are kept, whether they were written before or are now, unless the anchor
takes the place of one. -/
theorem Represents.keeps_batch (h : t.Represents base T) (hm : T.Admissible)
    (hheld : ∀ k x, Owns t.tree [] base k x → held.Keeps k x) (hk : Owns t.tree [] T k x)
    (hne : k.encode ≠ root.bytes) : (((t.journal root).batch false).apply held).Keeps k x := by
  rw [Contents.Keeps, getElem?_batch_ne fun _ => hne]
  cases hd : t.dirty[k]? with
  | some y =>
    rw [getElem?_nodePuts_dirty hd, (h.dirty k y hd).unique hk]
    exact ⟨rfl, storable_of_owns h.compact hm hk⟩
  | none =>
    rw [getElem?_nodePuts_clean hd]
    exact hheld k x (h.kept k x hk hd).1

/-- An anchor in the place of a node is too short for the stored form of any node. -/
theorem encode_ne_anchor {rk : NodeKey} (hrk : T.key? t.tree [] = some rk)
    (hk : Owns t.tree [] T k x) (he : k.encode = root.bytes) {y : Node} (hy : y.Storable) :
    y.encode ≠ rk.encode := by
  intro e
  have hlong := Node.lt_size_encode hy
  have hshort : rk.encode.size ≤ k.encode.size := by
    rw [NodeKey.size_encode, NodeKey.size_encode, hk.tree_eq, tree_key? hrk, path_key? hrk,
      List.length_nil]
    omega
  rw [he, root.size_bytes, ← e] at hshort
  omega

theorem Represents.ne_of_keeps (h : t.Represents base T) (hk : Owns t.tree [] T k x)
    (hx : (((t.journal root).batch false).apply held).Keeps k x) : k.encode ≠ root.bytes := by
  intro e
  obtain ⟨rk, hrk⟩ := exists_key?_of_owns hk
  have hanchor : (((t.journal root).batch false).apply held)[root.bytes]? = some rk.encode :=
    getElem?_batch_anchor (h.root.trans hrk)
  rw [← e, hx.1] at hanchor
  exact encode_ne_anchor hrk hk e hx.2 (Option.some.inj hanchor)

theorem Represents.backs_batch (h : t.Represents base T) (hm : T.Admissible)
    (hheld : ∀ k x, Owns t.tree [] base k x → held.Backs k x) (hk : Owns t.tree [] T k x) :
    (((t.journal root).batch false).apply held).Backs k x := by
  intro b y hb hy
  by_cases hne : k.encode = root.bytes
  · obtain ⟨rk, hrk⟩ := exists_key?_of_owns hk
    rw [hne, getElem?_batch_anchor (h.root.trans hrk)] at hb
    cases hb
    obtain ⟨he, hs⟩ := Node.decode_eq_ok.mp hy
    exact absurd he.symm (encode_ne_anchor hrk hk hne hs)
  · rw [getElem?_batch_ne fun _ => hne] at hb
    cases hd : t.dirty[k]? with
    | some z =>
      rw [getElem?_nodePuts_dirty hd, (h.dirty k z hd).unique hk] at hb
      cases hb
      rw [Node.decode_encode (storable_of_owns h.compact hm hk)] at hy
      exact (Except.ok.inj hy).symm
    | none =>
      rw [getElem?_nodePuts_clean hd] at hb
      exact hheld k x (h.kept k x hk hd).1 b y hb hy

end Batch

end Trie

/-! ## The cache after a commit -/

namespace NodeCache

variable {c : NodeCache} {k : NodeKey} {x : Node}

/-- Whatever the cache holds under the node key is as wanted. -/
def Meets (k : NodeKey) (P : Node → Prop) (c : NodeCache) : Prop :=
  ∀ y, c.node? (k.version, k) = some y → P y

variable {P : Node → Prop}

theorem meets_erase (h : c.Meets k P) (key : CacheKey) : (c.erase key).Meets k P := by
  intro y hy
  rw [node?_erase] at hy
  split at hy
  · cases hy
  · exact h y hy

theorem meets_put (c : NodeCache) (h : P x) : (c.put (k.version, k) x).Meets k P := by
  intro y hy
  have hput := c.node?_put (k.version, k) x (k.version, k)
  rw [if_pos rfl, hy] at hput
  rwa [Option.some.inj hput]

theorem meets_put_ne (h : c.Meets k P) {j : NodeKey} (hj : j ≠ k) (y : Node) :
    (c.put (j.version, j) y).Meets k P := by
  intro z hz
  have hput := c.node?_put (j.version, j) y (k.version, k)
  rw [if_neg fun e => hj (congrArg Prod.snd e)] at hput
  obtain hput | hput := hput
  · rw [hput] at hz
    exact h z hz
  · rw [hput] at hz
    cases hz

theorem meets_erased (c : NodeCache) : (c.erase (k.version, k)).Meets k P := by
  intro y hy
  rw [node?_erase, if_pos rfl] at hy
  cases hy

/-- What is erased is no longer held, so that all else need only be as wanted. -/
theorem meets_eraseAll {l : List NodeKey} (hc : k ∉ l → c.Meets k P) :
    (l.foldl (fun c key => c.erase (key.version, key)) c).Meets k P := by
  induction l generalizing c with
  | nil => exact hc List.not_mem_nil
  | cons j l ih =>
    refine ih fun hk => ?_
    by_cases hj : k = j
    · subst hj
      exact meets_erased c
    · exact meets_erase (hc fun hmem => (List.mem_cons.mp hmem).elim hj hk) _

theorem meets_renew {written : NodeMap Node} {superseded : List NodeKey}
    (hw : ∀ x, written[k]? = some x → P x)
    (hc : written[k]? = none → k ∉ superseded → c.Meets k P) :
    (c.renew written.toList superseded).Meets k P := by
  unfold renew
  cases hk : written[k]? with
  | some x =>
    exact foldl_written (P := Meets k P) hk (fun c => c.meets_put (hw x hk))
      (fun c j y hj hc => meets_put_ne hc hj y) _
  | none =>
    exact foldl_unwritten (P := Meets k P) hk (fun c j y hj hc => meets_put_ne hc hj y)
      (meets_eraseAll (hc hk))

end NodeCache

/-! ## Committing -/

namespace Access

def writeOnce (a : Access) : Access :=
  { a with store := { a.store with
      plan := { a.store.plan with writes := (FaultPlan.tick a.store.plan.writes).2 } } }

theorem agrees_writeOnce (a : Access) : Agrees a a.writeOnce := by
  refine ⟨rfl, rfl, fun h => ?_, id, rfl, fun _ => rfl⟩
  rw [writeOnce, h]
  rfl

def written (a : Access) (batch : WriteBatch) : Access :=
  { a with
    store := (a.store.write batch a.volume).1
    volume := (a.store.write batch a.volume).2 }

theorem run_write (a : Access) (batch : WriteBatch) :
    Access.write batch a =
      if (FaultPlan.tick a.store.plan.writes).1 then
        (.error (.corruption .plannedWrite), a.writeOnce)
      else (.ok (), a.writeOnce.written batch) := by
  unfold Access.write
  simp only [run_bind, run_get]
  split
  · rfl
  · rfl

end Access

/-- Deletes are applied in one batch, if there are any. -/
theorem Journal.prune_cases (j : Journal) (a : Access) :
    (∃ e b, j.prune a = (.error e, b) ∧ a.Agrees b) ∨
      (j.deletes = [] ∧ j.prune a = (.ok 0, a)) ∨
      ∃ b, a.Agrees b ∧ j.prune a = (.ok j.superseded.size, b.written j.deletes) := by
  unfold prune
  by_cases hcount : 0 < j.superseded.size
  · simp only [if_pos hcount, run_bind, Access.run_write]
    cases hf : (FaultPlan.tick a.store.plan.writes).1 with
    | true => exact .inl ⟨_, _, rfl, a.agrees_writeOnce⟩
    | false => exact .inr (.inr ⟨a.writeOnce, a.agrees_writeOnce, rfl⟩)
  · have hzero : j.superseded.size = 0 := Nat.eq_zero_of_not_pos hcount
    refine .inr (.inl ⟨?_, ?_⟩)
    · rw [deletes, List.map_eq_nil_iff, ← List.length_eq_zero_iff,
        Std.ExtTreeSet.length_toList, hzero]
    · simp only [hzero]
      rfl

/-- What a batch makes of a store is for its medium to say. -/
theorem Store.write_congr {s s' : Store} (h : s'.medium = s.medium) (batch : WriteBatch) (v : Volume) :
    (s'.write batch v).2 = (s.write batch v).2 ∧
      (s'.write batch v).1.medium = (s.write batch v).1.medium := by
  rw [Store.write, Store.write, h]
  cases s.medium <;> exact ⟨rfl, rfl⟩

namespace Trie

variable {t : Trie} {a : Access} {base T : Tree}

def committedTo (t : Trie) (a : Access) (root : Digest) : Access :=
  let a := a.writeOnce.written ((t.journal root).batch false)
  { a with cache := a.cache.map fun c => c.renew t.dirty.toList t.superseded.toList }

theorem plan_write (s : Store) (batch : WriteBatch) (v : Volume) :
    (s.write batch v).1.plan = s.plan := by
  unfold Store.write
  split <;> rfl

theorem faultless_committedTo {root : Digest} (ha : a.store.plan = FaultPlan.none) :
    (t.committedTo a root).store.plan = FaultPlan.none := by
  have hplan : (t.committedTo a root).store.plan = a.writeOnce.store.plan := plan_write ..
  rw [hplan, Access.writeOnce, ha]
  rfl

theorem uncached_committedTo {root : Digest} (ha : a.cache = none) :
    (t.committedTo a root).cache = none :=
  congrArg (Option.map _) ha

theorem run_commit (t : Trie) (a : Access) :
    t.commit a =
      match t.rootDigest a with
      | (.error e, b) => (.error e, b)
      | (.ok root, b) =>
        if (FaultPlan.tick b.store.plan.writes).1 then (.error (.corruption .plannedWrite), b.writeOnce)
        else (.ok (t.journal root, t.ended), t.committedTo b root) := by
  unfold Trie.commit
  rw [run_bind]
  cases t.rootDigest a with
  | mk o b =>
    cases o with
    | error e => rfl
    | ok root =>
      simp only [run_bind, Access.run_write]
      cases (FaultPlan.tick b.store.plan.writes).1 <;> rfl

/-- A commit works out the digest of its root and then writes; either may fail. -/
theorem commit_cases (t : Trie) (a : Access) :
    (∃ e b, t.commit a = (.error e, b) ∧ a.Agrees b ∧
      ((t.rootDigest a).1 = .error e ∨
        e = .corruption .plannedWrite ∧ (FaultPlan.tick a.store.plan.writes).1 = true)) ∨
    ∃ root b, t.rootDigest a = (.ok root, b) ∧ a.Agrees b ∧
      (FaultPlan.tick a.store.plan.writes).1 = false ∧
      t.commit a = (.ok (t.journal root, t.ended), t.committedTo b root) := by
  have hread := t.preserves_rootDigest a
  rw [run_commit]
  cases hr : t.rootDigest a with
  | mk o b =>
    rw [hr] at hread
    cases o with
    | error e => exact .inl ⟨e, b, rfl, hread.agrees, .inl rfl⟩
    | ok root =>
      simp only
      rw [← hread.batches]
      cases hf : (FaultPlan.tick b.store.plan.writes).1 with
      | true =>
        exact .inl ⟨_, _, if_pos rfl, trans_of Access.Agrees hread.agrees b.agrees_writeOnce,
          .inr ⟨rfl, rfl⟩⟩
      | false => exact .inr ⟨root, b, rfl, hread.agrees, rfl, if_neg Bool.false_ne_true⟩

theorem agrees_commit_error {e : Error} {b : Access} (hrun : t.commit a = (.error e, b)) :
    a.Agrees b := by
  obtain ⟨_, b', hrun', hb, -⟩ | ⟨_, _, -, -, -, hrun'⟩ := t.commit_cases a
  · rw [hrun] at hrun'
    obtain rfl : b = b' := congrArg Prod.snd hrun'
    exact hb
  · rw [hrun] at hrun'
    cases congrArg Prod.fst hrun'

theorem commit_closed (h : t.committed = true) : t.commit a = (.error .staleHandle, a) := by
  unfold Trie.commit
  rw [run_bind, rootDigest_closed h]

theorem Represents.commit (h : t.Represents base T) (ha : a.Backed t.tree base) :
    (∃ e a', t.commit a = (.error e, a') ∧ a.Agrees a' ∧
      (¬ T.Whole t.tree (t.find a) ∨ a.Doubtful ∨ a.store.plan.writes ≠ none)) ∨
    ∃ b, a.Agrees b ∧
      t.commit a = (.ok (t.journal T.digest, t.ended), t.committedTo b T.digest) := by
  have hdigest := h.rootDigest_answers ha
  obtain ⟨e, b, hrun, hb, hwhy⟩ | ⟨root, b, hroot, hb, _, hrun⟩ := t.commit_cases a
  · refine .inl ⟨e, b, hrun, hb, ?_⟩
    obtain hwhy | ⟨_, hf⟩ := hwhy
    · exact (hdigest.of_error hwhy).imp_right .inl
    · refine .inr (.inr fun hn => ?_)
      rw [hn] at hf
      cases hf
  · obtain rfl : T.digest = root := Except.ok.inj (hdigest.eq_of_ok (by rw [hroot]))
    exact .inr ⟨b, hb, hrun⟩

/-- What the cache has after a commit: what was dirty, or what it had. -/
theorem meets_committedTo {root : Digest} {k : NodeKey} {P : Node → Prop}
    (hd : ∀ x, t.dirty[k]? = some x → P x)
    (hp : t.dirty[k]? = none → ∀ y, a.peek k = some y → P y) :
    ∀ y, (t.committedTo a root).peek k = some y → P y := by
  intro y hy
  cases hc : a.cache with
  | none =>
    have hn : (t.committedTo a root).cache = none := congrArg (Option.map _) hc
    rw [Access.peek, hn] at hy
    cases hy
  | some c =>
    have hn : (t.committedTo a root).cache = some (c.renew t.dirty.toList t.superseded.toList) :=
      congrArg (Option.map _) hc
    rw [Access.peek, hn] at hy
    refine NodeCache.meets_renew hd (fun hclear _ z hz => hp hclear z ?_) y hy
    rw [Access.peek, hc]
    exact hz

theorem Represents.peek_committedTo (h : t.Represents base T) (ha : a.Backed t.tree base)
    {root : Digest} {k : NodeKey} {x y : Node} (hk : Owns t.tree [] T k x)
    (hy : (t.committedTo a root).peek k = some y) : y = x := by
  refine meets_committedTo (P := fun y => y = x) (fun z hd => ?_) (fun hd => ?_) y hy
  · exact (h.dirty k z hd).unique hk
  · exact (ha k x (h.kept k x hk hd).1).1

/-! ## Loading -/

end Trie

/-- The nodes of the tree are in the store, and no others in the cache. -/
def Access.Provides (a : Access) (tree : TreePrefix) (T : Tree) : Prop :=
  ∀ k x, Owns tree [] T k x → (∀ y, a.peek k = some y → y = x) ∧ a.stored k = .ok x

section Provides

variable {a b : Access} {tree : TreePrefix} {T : Tree}

theorem Access.Provides.backed (h : a.Provides tree T) : a.Backed tree T := by
  intro k x hk
  refine ⟨(h k x hk).1, fun y hy => ?_⟩
  rw [(h k x hk).2] at hy
  exact (Except.ok.inj hy).symm

theorem Access.Provides.whole (h : a.Provides tree T) : T.Whole tree a.find := by
  intro k x hk
  rw [Access.find]
  cases hy : a.peek k with
  | some y => rw [(h k x hk).1 y hy]
  | none => exact (h k x hk).2

theorem Access.Agrees.provides (hab : a.Agrees b) (h : a.Provides tree T) : b.Provides tree T := by
  intro k x hk
  rw [hab.peek, hab.stored]
  exact h k x hk

end Provides

namespace Trie

variable {t : Trie} {a : Access} {base T : Tree}

def opened (tree : TreePrefix) (T : Tree) : Trie :=
  { empty with tree, root := T.key? tree [] }

theorem dirty_opened (tree : TreePrefix) (T : Tree) (k : NodeKey) :
    (opened tree T).dirty[k]? = none := Std.ExtTreeMap.getElem?_empty

theorem represents_opened (tree : TreePrefix) (hT : T.Compact []) :
    (opened tree T).Represents T T := by
  refine ⟨rfl, rfl, hT, fun k x hk => ?_, fun k x hk _ => ⟨hk, fun y hy => ?_⟩, fun k hk => ?_⟩
  · rw [dirty_opened] at hk
    cases hk
  · have hn : (opened tree T).seen[k]? = none := Std.ExtTreeMap.getElem?_empty
    rw [hn] at hy
    cases hy
  · exact absurd hk Std.ExtTreeSet.not_mem_empty

theorem exact_opened (tree : TreePrefix) (T : Tree) : (opened tree T).Exact T T := by
  refine ⟨fun k x y hk => ?_, fun k x hk => .inl hk⟩
  rw [dirty_opened] at hk
  cases hk

theorem find_opened (tree : TreePrefix) (T : Tree) (a : Access) (k : NodeKey) :
    (opened tree T).find a k = a.find k :=
  find_clean (dirty_opened tree T k) Std.ExtTreeMap.getElem?_empty

theorem load_yields {tree : TreePrefix} {k : NodeKey} {x : Node} (hk : T.key? tree [] = some k)
    (hx : T.node? = some x) (hne : T.digest ≠ Digest.placeholder)
    (hanchor : ∀ j, a.anchor T.digest = .ok j → j = k) (hnode : ∀ y, a.stored k = .ok y → y = x) :
    Yields Access.Agrees (load T.digest) a (fun t => t = opened tree T ∧ a.stored k = .ok x)
      fun _ => ¬ (a.anchor T.digest = .ok k ∧ a.stored k = .ok x) ∨ a.Doubtful := by
  unfold load
  rw [if_neg hne]
  have hreadAnchor : Yields Access.Agrees (readAnchor T.digest) a (fun j => j = k)
      fun _ => ¬ (a.anchor T.digest = .ok k ∧ a.stored k = .ok x) ∨ a.Doubtful := by
    refine Yields.mono (a.readAnchor_answers T.digest) hanchor fun e he => ?_
    refine he.imp_left fun he h => ?_
    rw [h.1] at he
    cases he
  refine hreadAnchor.bind fun j b hj hb => ?_
  subst hj
  have hreadNode : Yields Access.Agrees (readNode j) b (fun y => y = x ∧ a.stored j = .ok x)
      fun _ => ¬ (a.anchor T.digest = .ok j ∧ a.stored j = .ok x) ∨ a.Doubtful := by
    have hread := b.readNode_answers j
    rw [hb.stored] at hread
    refine Yields.mono hread (fun y hy => ?_) fun e he => ?_
    · obtain rfl := hnode y hy
      exact ⟨rfl, hy⟩
    · refine he.imp (fun he h => ?_) hb.reads
      rw [h.2] at he
      cases he
  refine hreadNode.bind fun y c hy _ => ?_
  obtain ⟨rfl, hstored⟩ := hy
  rw [if_pos (digest_eq hx).symm]
  refine yields_pure ⟨?_, hstored⟩
  rw [opened, hk, tree_key? hk]

theorem load_placeholder : load Digest.placeholder = pure (opened TreePrefix.empty .vacant) := by
  rw [load, if_pos rfl]
  rfl

/-- A root whose anchor and node are there is loaded. -/
theorem load_answers {tree : TreePrefix} {k : NodeKey} (hk : T.key? tree [] = some k)
    (hne : T.digest ≠ Digest.placeholder) (hanchor : a.anchor T.digest = .ok k)
    (hstored : ∀ x, Owns tree [] T k x → a.stored k = .ok x) :
    Answers Access.Agrees a.Doubtful (load T.digest) a (.ok (opened tree T)) := by
  obtain ⟨x, hx⟩ := exists_node?_of_digest hne
  have hnode := hstored x (owns_self hk hx)
  have hload := load_yields hk hx hne
    (fun j hj => by rw [hanchor] at hj; exact (Except.ok.inj hj).symm)
    (fun y hy => by rw [hnode] at hy; exact (Except.ok.inj hy).symm)
  exact Yields.mono hload (fun _ ht => congrArg Except.ok ht.1.symm) fun _ he =>
    .inr (he.resolve_left fun hn => hn ⟨hanchor, hnode⟩)

theorem get_opened {tree : TreePrefix} {m : Entries} (ha : a.Provides tree T) (hT : T.Compact [])
    (hm : T.Holds m) (hb : m.Bounded) (key : ByteArray) :
    Answers Access.Agrees a.Doubtful ((opened tree T).get key) a (.ok m[key]?) := by
  refine ((represents_opened tree hT).get_answers ha.backed hm hb key).mono fun hrisk => ?_
  exact hrisk.resolve_left fun hn => hn ((represents_opened tree hT).whole ha.whole)

/-- A tree whose anchor and nodes are there is loaded and read. -/
theorem load_get {tree : TreePrefix} {m : Entries} (ha : a.Provides tree T) (hT : T.Compact [])
    (hm : T.Holds m) (hb : m.Bounded) (hp : T.digest = Digest.placeholder → T = .vacant)
    (hanchor : ∀ k, T.key? tree [] = some k → a.anchor T.digest = .ok k) (key : ByteArray) :
    Answers Access.Agrees a.Doubtful (load T.digest >>= fun t => t.get key) a (.ok m[key]?) := by
  by_cases hd : T.digest = Digest.placeholder
  · obtain rfl := hp hd
    rw [hd, load_placeholder, pure_bind]
    exact get_opened (fun _ _ hk => absurd hk not_owns_vacant) hT hm hb key
  · obtain ⟨x, hx⟩ := exists_node?_of_digest hd
    obtain ⟨k, hk⟩ := key?_of_node? hx tree []
    have hload := load_answers hk hd (hanchor k hk) fun y hy => (ha k y hy).2
    exact hload.bind_ok fun b hab => (get_opened (hab.provides ha) hT hm hb key).mono hab.reads

theorem load_agrees (root : Digest) (a : Access) : a.Agrees (load root a).2 :=
  (preserves_load root a).agrees

/-- Loading, as a function of what is stored. -/
theorem load_answers_stored (root : Digest) (a : Access) :
    Answers Access.Agrees a.Doubtful (load root) a
      (if root = Digest.placeholder then .ok empty
        else a.anchor root >>= fun k => a.stored k >>= fun x =>
          if x.digest = root then .ok { empty with tree := k.tree, root := some k }
          else .error (.corruption (.anchorMismatch root x.digest))) := by
  unfold load
  split
  · exact answers_pure
  · refine (a.readAnchor_answers root).bind fun k b hb => ?_
    have hnode := b.readNode_answers k
    rw [hb.stored] at hnode
    refine (hnode.mono hb.reads).bind fun x c _ => ?_
    split
    · exact answers_pure
    · exact answers_throw

/-- A handle that has been loaded begins at what the anchor of its root leads to. -/
theorem load_eq_ok {root : Digest} (h : (load root a).1 = .ok t) :
    t = empty ∨ ∃ k, a.anchor root = .ok k ∧ t = { empty with tree := k.tree, root := some k } := by
  have hload := (load_answers_stored root a).eq_of_ok h
  split at hload
  · exact .inl (Except.ok.inj hload).symm
  · cases hk : a.anchor root with
    | error e =>
      rw [hk] at hload
      cases hload
    | ok k =>
      cases hx : a.stored k with
      | error e =>
        simp only [hk, hx, bind, Except.bind] at hload
        cases hload
      | ok x =>
        simp only [hk, hx, bind, Except.bind] at hload
        split at hload
        · exact .inr ⟨k, rfl, (Except.ok.inj hload).symm⟩
        · cases hload

end Trie

end VersionedTrie
