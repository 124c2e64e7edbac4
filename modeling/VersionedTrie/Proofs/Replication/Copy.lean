import VersionedTrie.Proofs.Blake3
import VersionedTrie.Proofs.Replication.Delivery
import VersionedTrie.Proofs.Traversal.Progress

/-! # Copies

What a root needs is its anchor and the nodes that are reached from it (`Access.Belongs`), and
whoever has these loads the root and reads under it as the other does (`load_eq_of_belongs`). A
replication that succeeds brings just these to the destination, with the bytes they have in the
source, and one that fails, for whatever reason and at whatever moment, leaves the anchor there as it
was (`Replication.replicated`). That the nodes never get in the way of the anchor is a matter of
length: an anchor in the place of a node of its own tree is too short to be read as one
(`encode_ne_of_reached`).
-/

set_option autoImplicit false

namespace VersionedTrie

open Traversal

/-! ## Walks over what is reached -/

theorem descend_congr {find find' : NodeKey → Except Error Node} {root top : Option NodeKey}
    (h : ∀ k, Reached find root k → find' k = find k) (htop : ∀ k, top = some k → Reached find root k)
    (path : Path) (steps : List Step) :
    descend find' top path steps = descend find top path steps := by
  induction path generalizing top steps with
  | nil =>
    cases top with
    | none => rfl
    | some k => rw [descend, descend, h k (htop k rfl)]
  | cons n rest ih =>
    cases top with
    | none => rfl
    | some k =>
      rw [descend, descend, h k (htop k rfl)]
      cases hx : find k with
      | error e => rfl
      | ok x =>
        cases x with
        | leaf l => rfl
        | branch b =>
          refine ih (fun j hj => ?_) _
          obtain ⟨c, hc, rfl⟩ := Option.map_eq_some_iff.mp hj
          exact (htop k rfl).child hx hc

namespace Access

variable {a b : Access} {root : Digest} {k : NodeKey}

/-- The node key of a root: none for a root without nodes, and where no anchor can be read. -/
def rootKey? (a : Access) (root : Digest) : Option NodeKey :=
  if root = Digest.placeholder then none else (a.anchor root).toOption

/-- No read of the anchor and of the nodes that are reached from it is planned to fail. -/
def Spares (a : Access) (root : Digest) : Prop :=
  ∀ m, a.store.plan.reads = some m → ∀ keys : List NodeKey, keys.Nodup →
    (∀ k, k ∈ keys → Reached a.find (a.rootKey? root) k) →
      keys.length + (if root = Digest.placeholder then 0 else 1) ≤ m

/-- The entry is the anchor of the root or a node that is reached from it. -/
def Belongs (a : Access) (root : Digest) (key : ByteArray) : Prop :=
  root ≠ Digest.placeholder ∧ key = root.bytes ∨
    ∃ k, Reached a.find (a.rootKey? root) k ∧ key = k.encode

theorem rootKey?_eq_some : a.rootKey? root = some k ↔
    root ≠ Digest.placeholder ∧ a.anchor root = .ok k := by
  unfold rootKey?
  by_cases hp : root = Digest.placeholder
  · simp [hp]
  · rw [if_neg hp]
    cases a.anchor root <;> simp [Except.toOption, hp]

/-- An anchor is too short for a node of its own tree. -/
theorem encode_ne_of_reached (ha : a.cache = none) (hk : Reached a.find (a.rootKey? root) k)
    {x : Node} (hx : a.find k = .ok x) : k.encode ≠ root.bytes := by
  intro e
  obtain ⟨rk, hrk⟩ := hk.exists_root
  obtain ⟨b, hb, hdecode⟩ := anchor_eq_ok.mp (rootKey?_eq_some.mp hrk).2
  rw [find_uncached ha] at hx
  obtain ⟨b', hb', hnode⟩ := stored_eq_ok.mp hx
  rw [e, hb] at hb'
  obtain rfl : b = b' := by cases hb'; rfl
  obtain ⟨rfl, hs⟩ := Node.decode_eq_ok.mp hnode
  have hlong := Node.lt_size_encode hs
  rw [← NodeKey.encode_of_decode hdecode] at hlong
  have hsize : k.encode.size = 32 := by rw [e, root.size_bytes]
  have hle := hk.length_le hrk
  rw [NodeKey.size_encode] at hlong hsize
  rw [hk.tree_eq hrk] at hsize
  omega

/-! ## Loading and reading, as functions of what is stored -/

theorem get_answers_find {t : Trie} (ht : t.committed = false) (a : Access) (key : ByteArray) :
    Answers Agrees a.Doubtful (t.get key) a
      (if key.size = 0 then .ok none
        else descend (t.find a) t.root (Path.ofKey key) [] >>= fun w =>
          .ok (w.value? (Path.ofKey key))) := by
  unfold Trie.get
  rw [Trie.ensureLive_eq ht, pure_bind]
  split
  · exact answers_pure
  · have hfetch : ∀ b k, a.Agrees b → Answers Agrees a.Doubtful (t.fetch k) b (t.find a k) := by
      intro b k hb
      rw [← Trie.find_agrees t hb]
      exact (t.fetch_answers b k).mono hb.reads
    have hwalk := descend_answers hfetch t.root (Path.ofKey key) []
    refine hwalk.bind fun w b _ => ?_
    obtain ⟨steps, landing⟩ := w
    cases landing <;> exact answers_pure

section Belongings

variable (ha : a.cache = none) (hb : b.cache = none)
  (h : ∀ key, a.Belongs root key → b.lookup key = a.lookup key)
include ha hb h

theorem find_eq_of_belongs (hk : Reached a.find (a.rootKey? root) k) : b.find k = a.find k := by
  rw [find_uncached ha, find_uncached hb, stored, stored, h _ (.inr ⟨k, hk, rfl⟩)]

/-- Accesses that have the same of what belongs to a root load it and read it the same. -/
theorem load_eq_of_belongs (hcalm : ¬ a.Doubtful) (hcalm' : ¬ b.Doubtful) :
    (Trie.load root b).1 = (Trie.load root a).1 ∧
      ∀ t, (Trie.load root a).1 = .ok t → ∀ key, (t.get key b).1 = (t.get key a).1 := by
  have hfind : ∀ k, Reached a.find (a.rootKey? root) k → b.find k = a.find k :=
    fun k hk => find_eq_of_belongs ha hb h hk
  have hloadA := (Trie.load_answers_stored root a).eq hcalm
  have hloadB := (Trie.load_answers_stored root b).eq hcalm'
  by_cases hp : root = Digest.placeholder
  · rw [if_pos hp] at hloadA hloadB
    rw [hloadA, hloadB]
    refine ⟨rfl, fun t ht key => ?_⟩
    obtain rfl := Except.ok.inj ht
    rw [(get_answers_find rfl b key).eq hcalm', (get_answers_find rfl a key).eq hcalm]
    have hnone : Trie.empty.root = none := rfl
    rw [hnone, descend_none, descend_none]
  · have hanchor : b.anchor root = a.anchor root := by
      rw [anchor, anchor, h _ (.inl ⟨hp, rfl⟩)]
    rw [if_neg hp] at hloadA hloadB
    rw [hanchor] at hloadB
    cases hk : a.anchor root with
    | error e =>
      rw [hk] at hloadA hloadB
      rw [hloadA, hloadB]
      refine ⟨rfl, fun t ht => ?_⟩
      cases ht
    | ok k =>
      have hroot : a.rootKey? root = some k := rootKey?_eq_some.mpr ⟨hp, hk⟩
      have hstored : b.stored k = a.stored k := by
        rw [← find_uncached ha, ← find_uncached hb]
        exact hfind k (.root hroot)
      rw [hk] at hloadA hloadB
      simp only [bind, Except.bind] at hloadA hloadB
      rw [hstored] at hloadB
      rw [hloadA, hloadB]
      refine ⟨rfl, fun t ht key => ?_⟩
      cases hx : a.stored k with
      | error e =>
        rw [hx] at ht
        cases ht
      | ok x =>
        rw [hx] at ht
        simp only at ht
        split at ht
        · obtain rfl := Except.ok.inj ht
          have hclean : ∀ c : Access, Trie.find { Trie.empty with tree := k.tree, root := some k } c =
              c.find := fun c => funext fun j =>
            Trie.find_clean Std.ExtTreeMap.getElem?_empty Std.ExtTreeMap.getElem?_empty
          rw [(get_answers_find rfl b key).eq hcalm', (get_answers_find rfl a key).eq hcalm,
            hclean, hclean]
          rw [descend_congr hfind (fun j hj => .root (hroot.trans hj))]
        · cases ht

end Belongings

end Access

/-! ## The start of a traversal -/

/-- A traversal starts from the node key of the root, once the anchor has been read. -/
theorem start_eq_ok {root : Digest} {o : TraversalOptions} {a b : Access} {t : Traversal}
    (h : Traversal.start root o a = (.ok t, b)) :
    t = ofRoot (a.rootKey? root) o ∧ a.Reads b ∧
      (root = Digest.placeholder ∨ ∃ k, a.anchor root = .ok k) ∧
      ∀ m, a.store.plan.reads = some m → ∃ n, b.store.plan.reads = some n ∧
        m = n + if root = Digest.placeholder then 0 else 1 := by
  unfold Traversal.start at h
  by_cases hp : root = Digest.placeholder
  · rw [if_pos hp] at h
    cases h
    rw [Access.rootKey?, if_pos hp]
    exact ⟨rfl, refl_of Access.Reads a, .inl hp, fun m hm => ⟨m, hm, by rw [if_pos hp, Nat.add_zero]⟩⟩
  · rw [if_neg hp, run_bind, Access.run_readAnchor] at h
    cases hf : (FaultPlan.tick a.store.plan.reads).1 with
    | true =>
      rw [hf] at h
      cases h
    | false =>
      rw [hf, if_neg Bool.false_ne_true] at h
      cases hk : a.anchor root with
      | error e =>
        rw [hk] at h
        cases h
      | ok k =>
        rw [hk] at h
        cases h
        refine ⟨?_, ⟨a.agrees_readOnce, rfl⟩, .inr ⟨k, rfl⟩, fun m hm => ?_⟩
        · rw [Access.rootKey?_eq_some.mpr ⟨hp, hk⟩]
        · rw [hm] at hf
          cases m with
          | zero => cases hf
          | succ n =>
            refine ⟨n, ?_, by rw [if_neg hp]⟩
            rw [Access.readOnce, hm]
            rfl

theorem start_eq_error {root : Digest} {o : TraversalOptions} {a b : Access} {e : Error}
    (h : Traversal.start root o a = (.error e, b)) : a.Reads b ∧ root ≠ Digest.placeholder ∧
      (a.anchor root = .error e ∨ a.store.plan.reads = some 0) := by
  unfold Traversal.start at h
  by_cases hp : root = Digest.placeholder
  · rw [if_pos hp] at h
    cases h
  · rw [if_neg hp, run_bind, Access.run_readAnchor] at h
    cases hf : (FaultPlan.tick a.store.plan.reads).1 with
    | true =>
      rw [hf] at h
      cases h
      refine ⟨⟨a.agrees_readOnce, rfl⟩, hp, .inr ?_⟩
      cases hm : a.store.plan.reads with
      | none =>
        rw [hm] at hf
        cases hf
      | some m =>
        rw [hm] at hf
        cases m with
        | zero => rfl
        | succ m => cases hf
    | false =>
      rw [hf, if_neg Bool.false_ne_true] at h
      cases hk : a.anchor root with
      | error e' =>
        rw [hk] at h
        cases h
        exact ⟨⟨a.agrees_readOnce, rfl⟩, hp, .inl rfl⟩
      | ok k =>
        rw [hk] at h
        cases h

namespace Replication

open Sweep

variable {root : Digest} {o : TraversalOptions} {a b : Access} {held : Contents} {h : Harvest}

/-- The nodes, each with its node key, are those that are reached from the root, each once. -/
structure Lists (a : Access) (root : Digest) (nodes : List (NodeKey × Node)) : Prop where
  nodup : (nodes.map Prod.fst).Nodup
  reached : ∀ k, k ∈ nodes.map Prod.fst ↔ Reached a.find (a.rootKey? root) k
  found : ∀ r, r ∈ nodes → a.find r.1 = .ok r.2

/-- What the delivery of a harvest from the source `a` makes of the destination `b`, which holds the
given contents. -/
structure Copies (a b : Access) (held : Contents) (root : Digest) (h : Harvest) : Prop where
  /-- A traversal that is not cut short brings a success, if everything that is reached can be read
  and neither a read nor a batch is planned to fail. -/
  succeeds : (∀ cutoff, h.outcome ≠ some (.cut cutoff)) →
    (∀ k, Reached a.find (a.rootKey? root) k → ∃ x, a.find k = .ok x) →
    a.Spares root →
    (∀ m, b.store.plan.writes = some m → (batches h).length ≤ m) →
    ∃ n, (deliver h b).1 = .ok n
  /-- Only a traversal that is completed does, if no batch fails. -/
  ends : ∀ n, (deliver h b).1 = .ok n → h.outcome = some .completed ∧
    ∀ m, b.store.plan.writes = some m → (batches h).length ≤ m
  /-- A success counts the nodes that are reached, all of which have been read. -/
  counted : ∀ n, (deliver h b).1 = .ok n → ∃ nodes, Lists a root nodes ∧ nodes.length = n ∧
    ∀ m, a.store.plan.reads = some m → n + (if root = Digest.placeholder then 0 else 1) ≤ m
  /-- It brings what belongs to the root, as it is in the source, -/
  copied : ∀ n, (deliver h b).1 = .ok n → ∀ key, a.Belongs root key →
    (deliver h b).2.lookup key = a.lookup key
  /-- and nothing else. -/
  kept : ∀ n, (deliver h b).1 = .ok n → ∀ key, ¬ a.Belongs root key →
    (deliver h b).2.lookup key = .ok held[key]?
  /-- So the root is loaded and read as in the source. -/
  served : ∀ n, (deliver h b).1 = .ok n →
    (Trie.load root (deliver h b).2.calm).1 = (Trie.load root a.calm).1 ∧
      ∀ t, (Trie.load root a.calm).1 = .ok t → ∀ key,
        (t.get key (deliver h b).2.calm).1 = (t.get key a.calm).1
  /-- Before the last batch the anchor is what it was, -/
  early : ∀ pre, pre <+: batches h → pre ≠ batches h →
    (b.writtenAll pre).lookup root.bytes = .ok held[root.bytes]?
  /-- and after a failure it still is. -/
  failed : ∀ e, (deliver h b).1 = .error e → (deliver h b).2.lookup root.bytes = .ok held[root.bytes]?

/-- What the traversal of the source brings when the given events of consumer, worker and clock lead
to its end. -/
def Gathers (root : Digest) (o : TraversalOptions) (a : Access) (events : List Event) (h : Harvest) :
    Prop :=
  ∃ t a', Traversal.start root (whole o) a = (.ok t, a') ∧ (run ⟨t, a', []⟩ events).Finished ∧
    h = (run ⟨t, a', []⟩ events).harvest root

/-! ## What is gathered -/

section Gathered

variable {events : List Event} {g : Harvest}

/-- The nodes that a traversal brings, with what that says of its end. -/
structure Brings (a : Access) (root : Digest) (h : Harvest) (visited : List (NodeKey × Node)) :
    Prop where
  root_eq : h.root = root
  rootKey_eq : h.rootKey = a.rootKey? root
  anchored : root = Digest.placeholder ∨ ∃ k, a.anchor root = .ok k
  nodup : (visited.map Prod.fst).Nodup
  found : ∀ r, r ∈ visited → Reached a.find (a.rootKey? root) r.1 ∧ a.find r.1 = .ok r.2
  puts : ∀ op, op ∈ h.puts → ∃ r, r ∈ visited ∧ op = .put r.1.encode r.2.encode
  complete : h.outcome = some .completed →
    h.puts = visited.map (fun r => .put r.1.encode r.2.encode) ∧
      (∀ k, Reached a.find (a.rootKey? root) k → k ∈ visited.map Prod.fst) ∧
      ∀ m, a.store.plan.reads = some m →
        visited.length + (if root = Digest.placeholder then 0 else 1) ≤ m
  spared : (∀ cutoff, h.outcome ≠ some (.cut cutoff)) →
    (∀ k, Reached a.find (a.rootKey? root) k → ∃ x, a.find k = .ok x) →
    a.Spares root →
    h.outcome = some .completed

/-- A traversal brings what it has visited. -/
theorem exists_brings (ha : a.cache = none) (h : Gathers root o a events g) :
    ∃ visited, Brings a root g visited := by
  obtain ⟨t, a', hstart, ⟨hended, hqueue⟩, rfl⟩ := h
  obtain ⟨rfl, hreads, hanchored, hleft⟩ := start_eq_ok hstart
  have hfind : a'.find = a.find := funext hreads.agrees.find
  have hfresh : Covers a.find (a.rootKey? root) a' ⟨ofRoot (a.rootKey? root) (whole o), a', []⟩ [] :=
    covers_ofRoot (a.rootKey? root) (whole o) rfl a'
  obtain ⟨visited, hcovers⟩ := hfresh.run (hreads.agrees.uncached ha) hfind events
  generalize run ⟨ofRoot (a.rootKey? root) (whole o), a', []⟩ events = s at hended hqueue hcovers
  refine ⟨visited, rfl, hcovers.rooted, hanchored, hcovers.nodup, hcovers.found, ?_, ?_, ?_⟩
  · intro op hop
    obtain ⟨item, hitem, hput⟩ := List.mem_filterMap.mp hop
    obtain ⟨lost, hitems, -⟩ := hcovers.emitted
    have hmem : item ∈ visited.map (fun r => Item.node r.1 r.2) := by
      rw [← hitems]
      simp [hitem]
    obtain ⟨r, hr, rfl⟩ := List.mem_map.mp hmem
    exact ⟨r, hr, (Option.some.inj hput).symm⟩
  · intro hdone
    obtain ⟨hreceived, hall⟩ := hcovers.complete hdone hqueue
    refine ⟨?_, fun k hk => (hall k).mpr hk, fun m hm => ?_⟩
    · rw [harvest, hreceived, List.filterMap_map, ← List.filterMap_eq_map]
      rfl
    · obtain ⟨n, hn, rfl⟩ := hleft m hm
      have hopen : s.traversal.Unbroken := fun e he => by
        rw [show s.traversal.outcome = some .completed from hdone] at he
        exact (Option.some.inj he).symm
      have hle := (hcovers.spared hopen).2 n hn
      omega
  · intro hcut hall hspares
    obtain ⟨out, hout⟩ := Option.ne_none_iff_exists'.mp hended
    have hcut' : ∀ cutoff, out ≠ .cut cutoff := fun cutoff e => hcut cutoff (hout.trans (by rw [e]))
    have hdone := hcovers.completed hout hcut' hall fun n hn keys hnodup hkeys => by
      cases hm : a.store.plan.reads with
      | none =>
        have hd : a'.Doubtful := by
          rw [Access.Doubtful, hn]
          nofun
        exact absurd hm (hreads.agrees.reads hd)
      | some m =>
        obtain ⟨n', hn', rfl⟩ := hleft m hm
        obtain rfl : n' = n := Option.some.inj (hn'.symm.trans hn)
        have hle := hspares _ hm keys hnodup hkeys
        omega
    exact hout.trans (congrArg some hdone)

end Gathered

/-! ## What is delivered -/

section Delivered

variable {g : Harvest} {visited : List (NodeKey × Node)} {key : ByteArray} {n : Nat}

theorem Brings.ne_anchor (hg : Brings a root g visited) (ha : a.cache = none) {op : WriteOp}
    (hop : op ∈ g.puts) : op.key ≠ root.bytes := by
  obtain ⟨r, hr, rfl⟩ := hg.puts op hop
  exact Access.encode_ne_of_reached ha (hg.found r hr).1 (hg.found r hr).2

theorem Brings.anchorPut_eq (hg : Brings a root g visited) :
    g.anchorPut = [] ∧ root = Digest.placeholder ∨
      ∃ b, root ≠ Digest.placeholder ∧ a.lookup root.bytes = .ok (some b) ∧
        g.anchorPut = [.put root.bytes b] := by
  unfold Harvest.anchorPut
  rw [hg.rootKey_eq, hg.root_eq]
  by_cases hp : root = Digest.placeholder
  · rw [Access.rootKey?, if_pos hp]
    exact .inl ⟨rfl, hp⟩
  · obtain ⟨k, hk⟩ := hg.anchored.resolve_left hp
    obtain ⟨b, hb, hdecode⟩ := Access.anchor_eq_ok.mp hk
    rw [Access.rootKey?_eq_some.mpr ⟨hp, hk⟩]
    exact .inr ⟨b, hp, hb, by simp only [NodeKey.encode_of_decode hdecode]⟩

/-- What is put belongs to the root, and is as in the source. -/
theorem Brings.lookup_put (hg : Brings a root g visited) (ha : a.cache = none) {op : WriteOp}
    (hop : op ∈ g.puts) : a.Belongs root op.key ∧ a.lookup op.key = .ok op.outcome := by
  obtain ⟨r, hr, rfl⟩ := hg.puts op hop
  obtain ⟨hreached, hx⟩ := hg.found r hr
  rw [Access.find_uncached ha] at hx
  obtain ⟨b, hb, hnode⟩ := Access.stored_eq_ok.mp hx
  obtain ⟨rfl, -⟩ := Node.decode_eq_ok.mp hnode
  exact ⟨.inr ⟨r.1, hreached, rfl⟩, hb⟩

/-- So of puts that are written the order does not matter. -/
theorem Brings.overlay_puts (hg : Brings a root g visited) (ha : a.cache = none) {ops : WriteBatch}
    (hops : ∀ op, op ∈ ops → op ∈ g.puts) {op : WriteOp} (hop : op ∈ ops) :
    .ok (ops.apply held)[op.key]? = a.lookup op.key := by
  have hput := (hg.lookup_put ha (hops op hop)).2
  rw [hput, WriteBatch.getElem?_apply_eq (fun op' hop' e => ?_) held (.inr ⟨op, hop, rfl⟩)]
  have hput' := (hg.lookup_put ha (hops op' hop')).2
  rw [e, hput] at hput'
  exact (Except.ok.inj hput').symm

theorem Brings.overlay_of_belongs (hg : Brings a root g visited) (ha : a.cache = none)
    (hdone : g.outcome = some .completed) (hkey : a.Belongs root key) :
    a.lookup key = .ok (WriteBatch.apply (g.puts ++ g.anchorPut) held)[key]? := by
  rw [WriteBatch.apply_append]
  obtain ⟨hp, rfl⟩ | ⟨k, hk, rfl⟩ := hkey
  · obtain ⟨-, he⟩ | ⟨b, -, hb, hput⟩ := hg.anchorPut_eq
    · exact absurd he hp
    · rw [hput, hb, WriteBatch.apply_cons, WriteBatch.apply_nil, WriteOp.apply_get?]
      exact congrArg Except.ok (if_pos rfl).symm
  · obtain ⟨hputs, hall, -⟩ := hg.complete hdone
    obtain ⟨r, hr, rfl⟩ := List.mem_map.mp (hall k hk)
    have hop : .put r.1.encode r.2.encode ∈ g.puts := by
      rw [hputs]
      exact List.mem_map_of_mem hr
    have hne := hg.ne_anchor ha hop
    rw [WriteBatch.getElem?_apply_of_ne]
    · exact (hg.overlay_puts ha (fun _ h => h) hop).symm
    · obtain ⟨hnone, -⟩ | ⟨b, -, -, hput⟩ := hg.anchorPut_eq
      · rw [hnone]
        exact fun _ hop => absurd hop List.not_mem_nil
      · rw [hput]
        intro op hop
        rw [List.mem_singleton.mp hop]
        exact hne.symm

theorem Brings.overlay_of_not_belongs (hg : Brings a root g visited) (hkey : ¬ a.Belongs root key) :
    (WriteBatch.apply (g.puts ++ g.anchorPut) held)[key]? = held[key]? := by
  refine WriteBatch.getElem?_apply_of_ne (fun op hop e => hkey ?_) held
  obtain hop | hop := List.mem_append.mp hop
  · obtain ⟨r, hr, rfl⟩ := hg.puts op hop
    exact .inr ⟨r.1, (hg.found r hr).1, e.symm⟩
  · obtain ⟨hnone, -⟩ | ⟨b, hp, -, hput⟩ := hg.anchorPut_eq
    · rw [hnone] at hop
      exact absurd hop List.not_mem_nil
    · rw [hput] at hop
      rw [List.mem_singleton.mp hop] at e
      exact .inl ⟨hp, e.symm⟩

theorem lookup_of_ok (htakes : b.Takes held (batches g)) (hok : (deliver g b).1 = .ok n)
    (key : ByteArray) :
    (deliver g b).2.lookup key = .ok (WriteBatch.apply (g.puts ++ g.anchorPut) held)[key]? := by
  obtain ⟨hverdict, -⟩ := deliver_ok_iff.mp hok
  obtain ⟨pre, hpre, hlookup, ⟨rfl, -⟩ | ⟨-, e, he⟩⟩ := lookup_deliver (h := g) (a := b)
  · rw [hlookup, htakes _ hpre, flatten_batches (by rw [hverdict]; rfl)]
  · rw [hok] at he
    cases he

/-- Until a delivery is complete it brings nodes, as they are in the source. -/
theorem Brings.lookup_of_beginning (hg : Brings a root g visited) (ha : a.cache = none)
    (htakes : b.Takes held (batches g)) {pre : List WriteBatch} (hpre : pre <+: batches g)
    (hne : g.verdict.isOk = true → pre ≠ batches g) (key : ByteArray) :
    (b.writtenAll pre).lookup key = .ok held[key]? ∨ ∃ r, r ∈ visited ∧ key = r.1.encode ∧
      (b.writtenAll pre).lookup key = a.lookup key := by
  rw [htakes pre hpre]
  have hputs : ∀ op, op ∈ pre.flatten → op ∈ g.puts := fun op hop => puts_of_beginning hpre hne hop
  by_cases hkey : ∃ op, op ∈ pre.flatten ∧ op.key = key
  · obtain ⟨op, hop, rfl⟩ := hkey
    obtain ⟨r, hr, e⟩ := hg.puts op (hputs op hop)
    exact .inr ⟨r, hr, congrArg WriteOp.key e, hg.overlay_puts ha hputs hop⟩
  · rw [WriteBatch.getElem?_apply_of_ne fun op hop e => hkey ⟨op, hop, e⟩]
    exact .inl rfl

theorem Brings.lookup_of_error (hg : Brings a root g visited) (ha : a.cache = none)
    (htakes : b.Takes held (batches g)) {e : Error} (he : (deliver g b).1 = .error e)
    (key : ByteArray) :
    (deliver g b).2.lookup key = .ok held[key]? ∨ ∃ r, r ∈ visited ∧ key = r.1.encode ∧
      (deliver g b).2.lookup key = a.lookup key := by
  obtain ⟨pre, hpre, hlookup, ⟨-, hverdict⟩ | ⟨hne, -⟩⟩ := lookup_deliver (h := g) (a := b)
  · rw [hlookup]
    refine hg.lookup_of_beginning ha htakes hpre (fun hok => ?_) key
    rw [← hverdict, he] at hok
    cases hok
  · rw [hlookup]
    exact hg.lookup_of_beginning ha htakes hpre (fun _ => hne) key

theorem Brings.copies (hg : Brings a root g visited) (ha : a.cache = none) (hb : b.cache = none)
    (htakes : b.Takes held (batches g)) : Copies a b held root g := by
  have hcompleted : ∀ n, (deliver g b).1 = .ok n → g.outcome = some .completed ∧ n = g.puts.length :=
    fun n hok => g.verdict_eq_ok.mp (deliver_ok_iff.mp hok).1
  have hnew : ∀ r, r ∈ visited → root.bytes ≠ r.1.encode := fun r hr =>
    (Access.encode_ne_of_reached ha (hg.found r hr).1 (hg.found r hr).2).symm
  have hcopied : ∀ n, (deliver g b).1 = .ok n → ∀ key, a.Belongs root key →
      (deliver g b).2.lookup key = a.lookup key := fun n hok key hkey =>
    (lookup_of_ok htakes hok key).trans (hg.overlay_of_belongs ha (hcompleted n hok).1 hkey).symm
  refine ⟨?_, ?_, ?_, hcopied, ?_, ?_, ?_, ?_⟩
  · intro hcut hall hspares hwrites
    exact ⟨g.puts.length, deliver_ok_iff.mpr
      ⟨g.verdict_eq_ok.mpr ⟨hg.spared hcut hall hspares, rfl⟩, hwrites⟩⟩
  · exact fun n hok => ⟨(hcompleted n hok).1, (deliver_ok_iff.mp hok).2⟩
  · intro n hok
    obtain ⟨hdone, rfl⟩ := hcompleted n hok
    obtain ⟨hputs, hall, hreads⟩ := hg.complete hdone
    have hlength : visited.length = g.puts.length := by rw [hputs, List.length_map]
    refine ⟨visited, ⟨hg.nodup, fun k => ⟨fun hk => ?_, hall k⟩, fun r hr => (hg.found r hr).2⟩,
      hlength, fun m hm => ?_⟩
    · obtain ⟨r, hr, rfl⟩ := List.mem_map.mp hk
      exact (hg.found r hr).1
    · rw [← hlength]
      exact hreads m hm
  · intro n hok key hkey
    rw [lookup_of_ok htakes hok key, hg.overlay_of_not_belongs hkey]
  · intro n hok
    have hcache : (deliver g b).2.calm.cache = none := (cache_deliver g b).trans hb
    exact Access.load_eq_of_belongs (a := a.calm) ha hcache (hcopied n hok) a.not_doubtful_calm
      (Access.not_doubtful_calm _)
  · exact fun pre hpre hne => (hg.lookup_of_beginning ha htakes hpre (fun _ => hne) _).resolve_right
      fun ⟨r, hr, e, _⟩ => hnew r hr e
  · exact fun e he => (hg.lookup_of_error ha htakes he _).resolve_right
      fun ⟨r, hr, e, _⟩ => hnew r hr e

end Delivered

/-! ## Replications -/

/-- The replication has given up on the anchor, and has not touched the destination. -/
structure Refuses (root : Digest) (v : Volume) (source dest : Store)
    (r : Except Error Nat × Volume × Store × Store) : Prop where
  error : ∃ e, r.1 = .error e ∧
    (Access.anchor ⟨v, source, none⟩ root = .error e ∨ source.plan.reads = some 0)
  anchored : root ≠ Digest.placeholder
  volume : r.2.1 = v
  dest : r.2.2.2 = dest

/-- The replication has delivered the harvest to the destination. -/
structure Delivers (v : Volume) (dest : Store) (g : Harvest)
    (r : Except Error Nat × Volume × Store × Store) : Prop where
  outcome : r.1 = (deliver g ⟨v, dest, none⟩).1
  volume : r.2.1 = (deliver g ⟨v, dest, none⟩).2.volume
  dest : r.2.2.2 = (deliver g ⟨v, dest, none⟩).2.store

section Replications

variable (root : Digest) (o : TraversalOptions) (v : Volume) (source dest : Store)

/-- A replication that has read the anchor delivers what some schedule gathers, one in which nobody
asks the traversal to stop and no time runs out, unless a batch keeps the consumer too long. -/
theorem replicate_cases :
    Refuses root v source dest (replicate root o v source dest) ∨
      ∃ events g, Paced o dest.pause events ∧ Gathers root o ⟨v, source, none⟩ events g ∧
        Delivers v dest g (replicate root o v source dest) := by
  cases hstart : Traversal.start root (whole o) ⟨v, source, none⟩ with
  | mk r a' =>
    cases r with
    | error e =>
      obtain ⟨hreads, hne, hwhy⟩ := start_eq_error hstart
      have hgather : (gather root o dest.pause).run ⟨v, source, none⟩ = (.error e, a') := by
        show gather root o dest.pause ⟨v, source, none⟩ = _
        rw [gather, run_bind, show Traversal.start root { o with leavesOnly := false }
          ⟨v, source, none⟩ = (.error e, a') from hstart]
      rw [replicate, hgather]
      exact .inl ⟨⟨e, rfl, hwhy⟩, hne, hreads.agrees.volume, rfl⟩
    | ok t =>
      obtain ⟨rfl, hreads, -⟩ := start_eq_ok hstart
      have hcache : a'.cache = none := hreads.agrees.uncached rfl
      have hfresh : Covers a'.find (Access.rootKey? ⟨v, source, none⟩ root) a'
          ⟨ofRoot (Access.rootKey? ⟨v, source, none⟩ root) (whole o), a', []⟩ [] :=
        covers_ofRoot _ (whole o) rfl a'
      obtain ⟨events, hpaced, hfin, hgather⟩ := gather_run dest.pause hcache hstart hfresh
      obtain ⟨visited, hcovers⟩ := hfresh.run hcache rfl events
      have hvolume := (trans_of Access.Reads hreads hcovers.reads).agrees.volume
      refine .inr ⟨events, _, hpaced, ⟨_, a', hstart, hfin, rfl⟩, ?_⟩
      rw [replicate, show (gather root o dest.pause).run ⟨v, source, none⟩ = _ from hgather]
      simp only [hvolume]
      exact ⟨rfl, rfl, rfl⟩

variable {root o v source dest} in
/-- Nothing cuts a traversal short that nobody asks to stop and whose time does not run out. -/
theorem Gathers.uncut {a : Access} {events : List Event} {g : Harvest} (hg : Gathers root o a events g)
    (hplain : Plain events) : ∀ cutoff, g.outcome ≠ some (.cut cutoff) := by
  obtain ⟨t, a', hstart, -, rfl⟩ := hg
  obtain ⟨rfl, -⟩ := start_eq_ok hstart
  have huncut : Uncut ⟨ofRoot (a.rootKey? root) (whole o), a', []⟩ := ⟨rfl, nofun⟩
  exact (huncut.run rfl hplain).outcome

/-- A replication is complete, and nothing is anchored before. -/
theorem replicated :
    (Refuses root v source dest (replicate root o v source dest) ∨
      ∃ events g, Paced o dest.pause events ∧ Gathers root o ⟨v, source, none⟩ events g ∧
        Delivers v dest g (replicate root o v source dest)) ∧
    ∀ events g, Gathers root o ⟨v, source, none⟩ events g →
      (Plain events → ∀ cutoff, g.outcome ≠ some (.cut cutoff)) ∧
      ∀ held, Access.Takes ⟨v, dest, none⟩ held (batches g) →
        Copies ⟨v, source, none⟩ ⟨v, dest, none⟩ held root g := by
  refine ⟨replicate_cases root o v source dest, fun events g hg => ⟨hg.uncut, fun held h => ?_⟩⟩
  obtain ⟨visited, hbrings⟩ := exists_brings rfl hg
  exact hbrings.copies rfl rfl h

end Replications

/-! ### Roots with two leaves -/

/-- A node key of a tree without a prefix. -/
def place (version : Version) (path : Path) : NodeKey := .ofPath version TreePrefix.empty path

/-- The nibble that the key "a" begins with. -/
def six : Nibble := .high 0x61

/-- The nibble that the key "q" begins with. -/
def seven : Nibble := .high 0x71

theorem six_ne_seven : six ≠ seven := by decide

/-- A branch over two leaves of the given versions. -/
def fork (v w : Version) (l m : Leaf) : Branch :=
  (Branch.empty.set six ⟨l.digest, v, true⟩).set seven ⟨m.digest, w, true⟩

/-- A store with a root of version `u` over two leaves, and the anchor of the root. -/
def planted (u v w : Version) (l m : Leaf) : Store :=
  Store.ofMedium (.memory (WriteBatch.apply
    [.put (place u []).encode (Node.branch (fork v w l m)).encode,
      .put (place v [six]).encode (Node.leaf l).encode,
      .put (place w [seven]).encode (Node.leaf m).encode,
      .put (fork v w l m).digest.bytes (place u []).encode] ∅))

def plot (u v w : Version) (l m : Leaf) : Access := ⟨Volume.empty, planted u v w l m, none⟩

section Plot

variable {u v w : Version} {l m : Leaf}

theorem child?_fork {n : Nibble} {c : Child} : (fork v w l m).child? n = some c ↔
    n = six ∧ c = ⟨l.digest, v, true⟩ ∨ n = seven ∧ c = ⟨m.digest, w, true⟩ := by
  rw [fork, Branch.child?_set, Branch.child?_set, Branch.child?_empty]
  by_cases h7 : seven = n
  · subst h7
    simp [six_ne_seven.symm, eq_comm]
  · rw [if_neg h7]
    by_cases h6 : six = n
    · subst h6
      simp [h7, eq_comm]
    · simp [h6, Ne.symm h6, Ne.symm h7]

theorem encode_place_ne {p q : Path} (h : p ≠ q) (version version' : Version) :
    (place version p).encode ≠ (place version' q).encode := by
  intro e
  have hpath := congrArg NodeKey.path (NodeKey.encode_inj.mp e)
  rw [place, place, NodeKey.path_ofPath, NodeKey.path_ofPath] at hpath
  exact h hpath

theorem bytes_ne_encode_place (d : Digest) (version : Version) {p : Path}
    (h : p.length ≤ 1 := by simp) : d.bytes ≠ (place version p).encode := by
  intro e
  have hsize := (place version p).size_encode
  rw [← e, d.size_bytes, place, NodeKey.path_ofPath] at hsize
  have hempty : (NodeKey.ofPath version TreePrefix.empty p).tree.bytes.size = 0 := rfl
  omega

/-- Under each of its four keys the store has what has been put there. -/
theorem lookup_plot :
    (plot u v w l m).lookup (fork v w l m).digest.bytes = .ok (some (place u []).encode) ∧
    (plot u v w l m).lookup (place u []).encode =
      .ok (some (Node.branch (fork v w l m)).encode) ∧
    (plot u v w l m).lookup (place v [six]).encode = .ok (some (Node.leaf l).encode) ∧
    (plot u v w l m).lookup (place w [seven]).encode = .ok (some (Node.leaf m).encode) := by
  have hroot : ∀ version, (fork v w l m).digest.bytes ≠ (place version []).encode :=
    bytes_ne_encode_place _
  have hleaf : ∀ version n, (fork v w l m).digest.bytes ≠ (place version [n]).encode :=
    fun version _ => bytes_ne_encode_place _ version
  have h6 : (place v [six]).encode ≠ (place u []).encode :=
    encode_place_ne (List.cons_ne_nil _ []) _ _
  have h7 : (place w [seven]).encode ≠ (place u []).encode :=
    encode_place_ne (List.cons_ne_nil _ []) _ _
  have h76 : (place w [seven]).encode ≠ (place v [six]).encode := encode_place_ne (by decide) _ _
  simp only [Access.lookup, plot, planted, Store.lookup, Store.ofMedium, WriteBatch.apply_cons,
    WriteBatch.apply_nil, WriteOp.apply_get?, WriteOp.key, WriteOp.outcome]
  simp [hroot, hleaf, h6, h7, h76]

theorem lookup_plot_other {key : ByteArray} (hroot : (fork v w l m).digest.bytes ≠ key)
    (h : (place u []).encode ≠ key) (h6 : (place v [six]).encode ≠ key)
    (h7 : (place w [seven]).encode ≠ key) : (plot u v w l m).lookup key = .ok none := by
  simp [Access.lookup, plot, planted, Store.lookup, Store.ofMedium, WriteOp.apply_get?, WriteOp.key,
    hroot, h, h6, h7]

theorem anchor_plot : (plot u v w l m).anchor (fork v w l m).digest = .ok (place u []) :=
  Access.anchor_eq_ok.mpr ⟨_, lookup_plot.1, NodeKey.decode_encode _⟩

variable (hl : (Node.leaf l).Storable) (hm : (Node.leaf m).Storable)
include hl hm

theorem find_plot :
    (plot u v w l m).find (place u []) = .ok (.branch (fork v w l m)) ∧
    (plot u v w l m).find (place v [six]) = .ok (.leaf l) ∧
    (plot u v w l m).find (place w [seven]) = .ok (.leaf m) := by
  obtain ⟨-, h, h6, h7⟩ := lookup_plot (u := u) (v := v) (w := w) (l := l) (m := m)
  have hb : (Node.branch (fork v w l m)).Storable :=
    Branch.isEmpty_children_eq_false.mpr ⟨six, _, child?_fork.mpr (.inl ⟨rfl, rfl⟩)⟩
  simp only [Access.find_uncached (a := plot u v w l m) rfl, Access.stored_eq_ok]
  exact ⟨⟨_, h, Node.decode_encode hb⟩, ⟨_, h6, Node.decode_encode hl⟩,
    ⟨_, h7, Node.decode_encode hm⟩⟩

theorem reached_plot {k : NodeKey} : Reached (plot u v w l m).find (some (place u [])) k ↔
    k = place u [] ∨ k = place v [six] ∨ k = place w [seven] := by
  obtain ⟨h, h6, h7⟩ := find_plot (u := u) (v := v) (w := w) hl hm
  constructor
  · intro hk
    induction hk with
    | root hr => exact .inl (Option.some.inj hr).symm
    | child _ hb hc ih =>
      obtain rfl | rfl | rfl := ih
      · obtain rfl := Node.branch.inj (Except.ok.inj (h.symm.trans hb))
        obtain ⟨rfl, rfl⟩ | ⟨rfl, rfl⟩ := child?_fork.mp hc
        · exact .inr (.inl rfl)
        · exact .inr (.inr rfl)
      · cases h6.symm.trans hb
      · cases h7.symm.trans hb
  · have hroot : Reached (plot u v w l m).find (some (place u [])) (place u []) := .root rfl
    rintro (rfl | rfl | rfl)
    · exact hroot
    · exact hroot.child h (child?_fork.mpr (.inl ⟨rfl, rfl⟩))
    · exact hroot.child h (child?_fork.mpr (.inr ⟨rfl, rfl⟩))

theorem exists_find_plot {k : NodeKey} (hk : Reached (plot u v w l m).find (some (place u [])) k) :
    ∃ x, (plot u v w l m).find k = .ok x := by
  obtain ⟨h, h6, h7⟩ := find_plot (u := u) (v := v) (w := w) hl hm
  obtain rfl | rfl | rfl := (reached_plot hl hm).mp hk
  · exact ⟨_, h⟩
  · exact ⟨_, h6⟩
  · exact ⟨_, h7⟩

theorem length_of_reached {nodes : List (NodeKey × Node)} (hnodup : (nodes.map Prod.fst).Nodup)
    (h : ∀ k, k ∈ nodes.map Prod.fst ↔ Reached (plot u v w l m).find (some (place u [])) k) :
    nodes.length = 3 := by
  have hplaces : [place u [], place v [six], place w [seven]].Nodup := by
    refine List.Nodup.of_map NodeKey.path ?_
    simp [place, six_ne_seven]
  have hperm : (nodes.map Prod.fst).Perm [place u [], place v [six], place w [seven]] := by
    refine (List.perm_ext_iff_of_nodup hnodup hplaces).mpr fun k => ?_
    rw [h, reached_plot hl hm]
    simp
  simpa using hperm.length_eq

omit hl hm in
theorem rootKey?_plot (hne : (fork v w l m).digest ≠ Digest.placeholder) :
    (plot u v w l m).rootKey? (fork v w l m).digest = some (place u []) :=
  Access.rootKey?_eq_some.mpr ⟨hne, anchor_plot⟩

theorem load_plot (hne : (fork v w l m).digest ≠ Digest.placeholder) :
    ∃ t, (Trie.load (fork v w l m).digest (plot u v w l m).calm).1 = .ok t := by
  have hload := (Trie.load_answers_stored (fork v w l m).digest (plot u v w l m).calm).eq
    (plot u v w l m).not_doubtful_calm
  have hanchor : (plot u v w l m).calm.anchor (fork v w l m).digest = .ok (place u []) :=
    anchor_plot
  have hstored : (plot u v w l m).calm.stored (place u []) = .ok (.branch (fork v w l m)) := by
    rw [← Access.find_uncached rfl]
    exact (find_plot hl hm).1
  rw [if_neg hne, hanchor] at hload
  simp only [bind, Except.bind, hstored] at hload
  exact ⟨_, hload.trans (if_pos rfl)⟩

/-- A traversal that sends up to four items ahead. -/
def unhurried : TraversalOptions := ⟨4, none, false⟩

/-- The three nodes are brought to any store in memory. -/
theorem plot_copied (hne : (fork v w l m).digest ≠ Digest.placeholder) {dest : Store}
    {held : Contents} (hmedium : dest.medium = .memory held) (hwrites : dest.plan.writes = none) :
    ∃ events g, Plain events ∧ Gathers (fork v w l m).digest unhurried (plot u v w l m) events g ∧
      Delivers Volume.empty dest g
        (replicate (fork v w l m).digest unhurried Volume.empty (planted u v w l m) dest) ∧
      (deliver g ⟨Volume.empty, dest, none⟩).1 = .ok 3 := by
  obtain ⟨⟨e, -, he | hn⟩, -, -, -⟩ | ⟨events, g, hpaced, hg, hdelivers⟩ :=
    replicate_cases (fork v w l m).digest unhurried Volume.empty (planted u v w l m) dest
  · have hanchor := anchor_plot (u := u) (v := v) (w := w) (l := l) (m := m)
    rw [show (plot u v w l m).anchor (fork v w l m).digest = .error e from he] at hanchor
    cases hanchor
  · cases hn
  · have hplain : Plain events := fun event hm => (hpaced event hm).imp_right fun h =>
      h.resolve_right fun hx => nomatch hx.2
    obtain ⟨visited, hbrings⟩ := exists_brings rfl hg
    have hcopies := hbrings.copies (b := ⟨Volume.empty, dest, none⟩) rfl rfl
      (Access.takes_inMemory hmedium _)
    have hfound : ∀ k, Reached (plot u v w l m).find
        ((plot u v w l m).rootKey? (fork v w l m).digest) k →
          ∃ x, (plot u v w l m).find k = .ok x := by
      rw [rootKey?_plot hne]
      exact fun k => exists_find_plot hl hm
    have hspared : ∀ n, dest.plan.writes = some n → (batches g).length ≤ n := by
      intro n hn
      rw [hwrites] at hn
      cases hn
    obtain ⟨n, hn⟩ := hcopies.succeeds (hg.uncut hplain) hfound nofun hspared
    obtain ⟨nodes, hlists, rfl, -⟩ := hcopies.counted n hn
    have hlength : nodes.length = 3 := by
      refine length_of_reached (u := u) (v := v) (w := w) hl hm hlists.nodup ?_
      rw [← rootKey?_plot hne]
      exact hlists.reached
    rw [hlength] at hn
    exact ⟨events, g, hplain, hg, hdelivers, hn⟩

end Plot

def twig : Leaf := Leaf.make (Path.ofKey "a".toUTF8) "x".toUTF8

def bud : Leaf := Leaf.make (Path.ofKey "q".toUTF8) "y".toUTF8

def sapling : Branch := fork 1 1 twig bud

/-- What there is in the place of `bud` later on. -/
def blossom : Leaf := Leaf.make (Path.ofKey "q".toUTF8) "z".toUTF8

/-- The sapling with its bud come out. -/
def flowering : Branch := fork 1 2 twig blossom

theorem storable_leaves :
    (Node.leaf twig).Storable ∧ (Node.leaf bud).Storable ∧ (Node.leaf blossom).Storable :=
  ⟨⟨by decide +kernel, by decide +kernel⟩, ⟨by decide +kernel, by decide +kernel⟩,
    by decide +kernel, by decide +kernel⟩

theorem digests_apart : sapling.digest ≠ Digest.placeholder ∧
    flowering.digest ≠ Digest.placeholder ∧ flowering.digest ≠ sapling.digest := by
  have hs : sapling.digest.bytes = Blake3.hashOf sapling.preimage.data.toList :=
    Blake3.hash_eq_hashOf _ (by decide +kernel)
  have hf : flowering.digest.bytes = Blake3.hashOf flowering.preimage.data.toList :=
    Blake3.hash_eq_hashOf _ (by decide +kernel)
  have hbytes : sapling.digest.bytes ≠ Digest.placeholder.bytes ∧
      flowering.digest.bytes ≠ Digest.placeholder.bytes ∧
      flowering.digest.bytes ≠ sapling.digest.bytes := by
    rw [hs, hf]
    decide +kernel
  exact ⟨fun e => hbytes.1 (congrArg Digest.bytes e),
    fun e => hbytes.2.1 (congrArg Digest.bytes e), fun e => hbytes.2.2 (congrArg Digest.bytes e)⟩

def nursery : Access := plot 1 1 1 twig bud

theorem replicated_sapling : ∃ events g,
    Gathers sapling.digest unhurried nursery events g ∧ Plain events ∧
    Access.Takes ⟨Volume.empty, Store.inMemory, none⟩ ∅ (batches g) ∧
    (replicate sapling.digest unhurried Volume.empty (planted 1 1 1 twig bud)
      Store.inMemory).1 = .ok 3 ∧
    ∃ t, (Trie.load sapling.digest (deliver g ⟨Volume.empty, Store.inMemory, none⟩).2.calm).1 =
      .ok t := by
  obtain ⟨htwig, hbud, -⟩ := storable_leaves
  obtain ⟨t, ht⟩ := load_plot (u := 1) htwig hbud digests_apart.1
  obtain ⟨events, g, hplain, hg, hdelivers, hn⟩ :=
    plot_copied (u := 1) htwig hbud digests_apart.1 (rfl : Store.inMemory.medium = .memory ∅) rfl
  have htakes : Access.Takes ⟨Volume.empty, Store.inMemory, none⟩ ∅ (batches g) :=
    Access.takes_inMemory rfl _
  have hcopies := ((replicated sapling.digest unhurried Volume.empty (planted 1 1 1 twig bud)
    Store.inMemory).2 events g hg).2 ∅ htakes
  exact ⟨events, g, hg, hplain, htakes, hdelivers.outcome.trans hn, t,
    (hcopies.served 3 hn).1.trans ht⟩

end Replication

end VersionedTrie
