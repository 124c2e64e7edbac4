import VersionedTrie.Proofs.Replication.Copy

/-! # Serving

A root is served by a store that loads it and finds every node that is reached from it, each hashing
to what its parent has recorded (`Access.Serves`). That depends on what belongs to the root alone, so
a replication that brings nothing else for the entries of a root leaves it served
(`Replication.serves_after`). It copies what it finds, and does not ask whether the root at the
anchor has the digest that is asked for: what is served afterwards is a root that the source serves.
-/

set_option autoImplicit false

namespace VersionedTrie

open Traversal

theorem reached_congr {find find' : NodeKey → Except Error Node} {top : Option NodeKey}
    (h : ∀ k, Reached find top k → find' k = find k) {k : NodeKey} :
    Reached find' top k ↔ Reached find top k := by
  constructor
  · intro hk
    induction hk with
    | root hr => exact .root hr
    | child _ hb hc ih => exact ih.child ((h _ ih).symm.trans hb) hc
  · intro hk
    induction hk with
    | root hr => exact .root hr
    | child hk hb hc ih => exact ih.child ((h _ hk).trans hb) hc

namespace Access

variable {a b : Access} {root : Digest}

/-- The root can be loaded, and every node that is reached from it is found and hashes to what its
parent has recorded. -/
structure Serves (a : Access) (root : Digest) : Prop where
  loaded : ∃ t, (Trie.load root a.calm).1 = .ok t
  found : ∀ k, Reached a.find (a.rootKey? root) k → ∃ x, a.find k = .ok x
  recorded : ∀ k b n c x, Reached a.find (a.rootKey? root) k → a.find k = .ok (.branch b) →
    b.child? n = some c → a.find (k.child c.version n) = .ok x → x.digest = c.digest

/-- The accesses load the root and read it alike. -/
def Agree (a b : Access) (root : Digest) : Prop :=
  (Trie.load root b.calm).1 = (Trie.load root a.calm).1 ∧
    ∀ t, (Trie.load root a.calm).1 = .ok t → ∀ key, (t.get key b.calm).1 = (t.get key a.calm).1

section Congr

variable (ha : a.cache = none) (hb : b.cache = none)
  (h : ∀ key, a.Belongs root key → b.lookup key = a.lookup key)
include ha hb h

theorem agree_of_belongs : a.Agree b root :=
  load_eq_of_belongs (a := a.calm) (b := b.calm) ha hb h a.not_doubtful_calm b.not_doubtful_calm

theorem reached_of_belongs {k : NodeKey} :
    Reached b.find (b.rootKey? root) k ↔ Reached a.find (a.rootKey? root) k := by
  have hroot : b.rootKey? root = a.rootKey? root := by
    unfold rootKey?
    split
    · rfl
    · next hp => rw [anchor, anchor, h _ (.inl ⟨hp, rfl⟩)]
  rw [hroot]
  exact reached_congr fun k hk => find_eq_of_belongs ha hb h hk

theorem belongs_iff {key : ByteArray} : b.Belongs root key ↔ a.Belongs root key := by
  simp only [Belongs, reached_of_belongs ha hb h]

theorem Serves.of_belongs (hs : a.Serves root) : b.Serves root := by
  have hfind : ∀ k, Reached a.find (a.rootKey? root) k → b.find k = a.find k :=
    fun k hk => find_eq_of_belongs ha hb h hk
  refine ⟨?_, fun k hk => ?_, fun k x n c y hk hx hc hy => ?_⟩
  · rw [(agree_of_belongs ha hb h).1]
    exact hs.loaded
  · rw [reached_of_belongs ha hb h] at hk
    rw [hfind k hk]
    exact hs.found k hk
  · rw [reached_of_belongs ha hb h] at hk
    rw [hfind k hk] at hx
    rw [hfind _ (hk.child hx hc)] at hy
    exact hs.recorded k x n c y hk hx hc hy

theorem serves_iff : b.Serves root ↔ a.Serves root :=
  ⟨fun hs => hs.of_belongs hb ha fun key hkey => (h key ((belongs_iff ha hb h).mp hkey)).symm,
    fun hs => hs.of_belongs ha hb h⟩

end Congr

end Access

namespace Replication

variable {root : Digest} {o : TraversalOptions} {a b b' : Access} {held : Contents}

/-- What a replication may leave of a destination: as it was, or with a harvest delivered to it, all
of it or the batches before one that failed. -/
inductive Leaves (root : Digest) (o : TraversalOptions) (a b : Access) : Access → Prop
  | refused : Leaves root o a b b
  | delivered {events : List Event} {g : Harvest} (h : Gathers root o a events g) :
    Leaves root o a b (deliver g b).2

theorem leaves_replicate (root : Digest) (o : TraversalOptions) (v : Volume) (source dest : Store) :
    Leaves root o ⟨v, source, none⟩ ⟨v, dest, none⟩ ⟨(replicate root o v source dest).2.1,
      (replicate root o v source dest).2.2.2, none⟩ := by
  obtain h | ⟨events, g, -, hg, h⟩ := replicate_cases root o v source dest
  · rw [h.volume, h.dest]
    exact .refused
  · have hcache : (deliver g ⟨v, dest, none⟩).2.cache = none := cache_deliver g ⟨v, dest, none⟩
    have hall : Leaves root o ⟨v, source, none⟩ ⟨v, dest, none⟩ (deliver g ⟨v, dest, none⟩).2 :=
      .delivered hg
    rw [h.volume, h.dest]
    generalize (deliver g ⟨v, dest, none⟩).2 = d at hcache hall
    obtain ⟨_, _, _⟩ := d
    obtain rfl : _ = none := hcache
    exact hall

theorem Leaves.uncached (h : Leaves root o a b b') (hb : b.cache = none) : b'.cache = none := by
  cases h with
  | refused => exact hb
  | delivered => exact (cache_deliver _ b).trans hb

/-- An entry that a replication changes belongs to the root and is then as in the source. If it is
the anchor, all that belongs to the root is there; if it is another one, it is that of a node. -/
theorem Leaves.lookup_cases (ha : a.cache = none)
    (htakes : ∀ events g, Gathers root o a events g → b.Takes held (batches g))
    (h : Leaves root o a b b') (key : ByteArray) :
    b'.lookup key = b.lookup key ∨ a.Belongs root key ∧ b'.lookup key = a.lookup key ∧
      ((∃ k, Reached a.find (a.rootKey? root) k ∧ key = k.encode) ∨
        key = root.bytes ∧ ∀ key, a.Belongs root key → b'.lookup key = a.lookup key) := by
  cases h with
  | refused => exact .inl rfl
  | @delivered events g hg =>
    obtain ⟨visited, hbrings⟩ := exists_brings ha hg
    have htaken := htakes events g hg
    have hbefore : b.lookup key = .ok held[key]? := htaken [] List.nil_prefix key
    cases hd : (deliver g b).1 with
    | ok n =>
      obtain ⟨hdone, -⟩ := (Harvest.verdict_eq_ok _).mp (deliver_ok_iff.mp hd).1
      have hcopied : ∀ key, a.Belongs root key → (deliver g b).2.lookup key = a.lookup key :=
        fun key hkey =>
          (lookup_of_ok htaken hd key).trans (hbrings.overlay_of_belongs ha hdone hkey).symm
      by_cases hkey : a.Belongs root key
      · refine .inr ⟨hkey, hcopied key hkey, ?_⟩
        obtain ⟨-, e⟩ | hnode := hkey
        · exact .inr ⟨e, hcopied⟩
        · exact .inl hnode
      · rw [lookup_of_ok htaken hd, hbrings.overlay_of_not_belongs hkey]
        exact .inl hbefore.symm
    | error e =>
      obtain hsame | ⟨r, hr, rfl, hput⟩ := hbrings.lookup_of_error ha htaken hd key
      · exact .inl (hsame.trans hbefore.symm)
      · have hnode := (hbrings.found r hr).1
        exact .inr ⟨.inr ⟨r.1, hnode, rfl⟩, hput, .inl ⟨r.1, hnode, rfl⟩⟩

/-- Roots that the destination serves it still serves after a replication, whether that succeeds or
not, if what the copied root needs is the same for them wherever the two meet; and a root that it gets
is served if the source serves it. -/
theorem serves_after (root : Digest) (o : TraversalOptions) (v : Volume) (source dest : Store)
    (held : Contents) (htakes : ∀ events g, Gathers root o ⟨v, source, none⟩ events g →
      Access.Takes ⟨v, dest, none⟩ held (batches g)) :
    Leaves root o ⟨v, source, none⟩ ⟨v, dest, none⟩ ⟨(replicate root o v source dest).2.1,
      (replicate root o v source dest).2.2.2, none⟩ ∧
    ∀ b', Leaves root o ⟨v, source, none⟩ ⟨v, dest, none⟩ b' →
      (∀ r, Access.Serves ⟨v, dest, none⟩ r →
        (∀ key, Access.Belongs ⟨v, dest, none⟩ r key → Access.Belongs ⟨v, source, none⟩ root key →
          source.lookup v key = dest.lookup v key) →
        b'.Serves r ∧ Access.Agree ⟨v, dest, none⟩ b' r) ∧
      ∀ r : Digest, b'.lookup r.bytes ≠ dest.lookup v r.bytes →
        (∃ k, Reached (Access.find ⟨v, source, none⟩) (Access.rootKey? ⟨v, source, none⟩ root) k ∧
          r.bytes = k.encode) ∨
        r = root ∧ (b'.Serves root ↔ Access.Serves ⟨v, source, none⟩ root) ∧
          Access.Agree ⟨v, source, none⟩ b' root := by
  refine ⟨leaves_replicate root o v source dest, fun b' h => ⟨fun r hr hshared => ?_, fun r hr => ?_⟩⟩
  · have hcache : b'.cache = none := h.uncached rfl
    have hkept : ∀ key, Access.Belongs ⟨v, dest, none⟩ r key →
        b'.lookup key = Access.lookup ⟨v, dest, none⟩ key := by
      intro key hkey
      obtain hsame | ⟨hbelongs, hnew, -⟩ := h.lookup_cases rfl htakes key
      · exact hsame
      · exact hnew.trans (hshared key hkey hbelongs)
    exact ⟨hr.of_belongs rfl hcache hkept, Access.agree_of_belongs rfl hcache hkept⟩
  · have hcache : b'.cache = none := h.uncached rfl
    obtain hsame | ⟨-, -, hnode | ⟨e, hcopied⟩⟩ := h.lookup_cases rfl htakes r.bytes
    · exact absurd hsame hr
    · exact .inl hnode
    · exact .inr ⟨Digest.ext e, Access.serves_iff rfl hcache hcopied,
        Access.agree_of_belongs rfl hcache hcopied⟩

/-! ### Two roots that share a leaf -/

section Plot

variable {u v w : Version} {l m : Leaf} (hl : (Node.leaf l).Storable) (hm : (Node.leaf m).Storable)
  (hne : (fork v w l m).digest ≠ Digest.placeholder)
include hl hm hne

theorem serves_plot : (plot u v w l m).Serves (fork v w l m).digest := by
  obtain ⟨h, h6, h7⟩ := find_plot (u := u) (v := v) (w := w) hl hm
  constructor
  case loaded => exact load_plot hl hm hne
  case found =>
    rw [rootKey?_plot hne]
    exact fun k => exists_find_plot hl hm
  case recorded =>
    intro k b n c x hk hb hc hx
    rw [rootKey?_plot hne, reached_plot hl hm] at hk
    obtain rfl | rfl | rfl := hk
    · obtain rfl := Node.branch.inj (Except.ok.inj (h.symm.trans hb))
      obtain ⟨rfl, rfl⟩ | ⟨rfl, rfl⟩ := child?_fork.mp hc
      · obtain rfl := Except.ok.inj (h6.symm.trans hx)
        rfl
      · obtain rfl := Except.ok.inj (h7.symm.trans hx)
        rfl
    · cases h6.symm.trans hb
    · cases h7.symm.trans hb

theorem belongs_plot {key : ByteArray} :
    (plot u v w l m).Belongs (fork v w l m).digest key ↔ key = (fork v w l m).digest.bytes ∨
      key = (place u []).encode ∨ key = (place v [six]).encode ∨ key = (place w [seven]).encode := by
  rw [Access.Belongs, rootKey?_plot hne, and_iff_right hne]
  simp only [reached_plot hl hm, or_and_right, exists_or, exists_eq_left]

end Plot

/-- A store with the later root, which has a leaf in common with the earlier one. -/
def garden : Access := plot 2 1 2 twig blossom

/-- What the two stores have for both of their roots is the leaf that they share. -/
theorem eq_of_belongs {key : ByteArray} (h : garden.Belongs flowering.digest key)
    (h' : nursery.Belongs sapling.digest key) : key = (place 1 [six]).encode := by
  obtain ⟨htwig, hbud, hblossom⟩ := storable_leaves
  obtain ⟨hsapling, hflowering, happart⟩ := digests_apart
  have hroots : (place 2 []).encode ≠ (place 1 []).encode ∧
      (place 2 [seven]).encode ≠ (place 1 [seven]).encode := by decide +kernel
  have hbytes : flowering.digest.bytes ≠ sapling.digest.bytes :=
    fun e => happart (Digest.ext e)
  obtain rfl | rfl | rfl | rfl := (belongs_plot htwig hblossom hflowering).mp h
  · obtain e | e | e | e := (belongs_plot htwig hbud hsapling).mp h'
    · exact absurd e hbytes
    · exact absurd e (bytes_ne_encode_place _ _)
    · exact absurd e (bytes_ne_encode_place _ _)
    · exact absurd e (bytes_ne_encode_place _ _)
  · obtain e | e | e | e := (belongs_plot htwig hbud hsapling).mp h'
    · exact absurd e.symm (bytes_ne_encode_place _ _)
    · exact absurd e hroots.1
    · exact absurd e (encode_place_ne (List.cons_ne_nil _ []).symm _ _)
    · exact absurd e (encode_place_ne (List.cons_ne_nil _ []).symm _ _)
  · rfl
  · obtain e | e | e | e := (belongs_plot htwig hbud hsapling).mp h'
    · exact absurd e.symm (bytes_ne_encode_place _ _)
    · exact absurd e (encode_place_ne (List.cons_ne_nil _ []) _ _)
    · exact absurd e (encode_place_ne (by decide) _ _)
    · exact absurd e hroots.2

theorem lookup_garden_sapling : garden.lookup sapling.digest.bytes = .ok none :=
  lookup_plot_other (fun e => digests_apart.2.2 (Digest.ext e)) (bytes_ne_encode_place _ _).symm
    (bytes_ne_encode_place _ _).symm (bytes_ne_encode_place _ _).symm

theorem bytes_ne_encode_of_reached {k : NodeKey}
    (hk : Reached nursery.find (nursery.rootKey? sapling.digest) k) :
    sapling.digest.bytes ≠ k.encode := by
  obtain ⟨htwig, hbud, -⟩ := storable_leaves
  have hk' : Reached (plot 1 1 1 twig bud).find
      ((plot 1 1 1 twig bud).rootKey? (fork 1 1 twig bud).digest) k := hk
  rw [rootKey?_plot digests_apart.1, reached_plot htwig hbud] at hk'
  obtain rfl | rfl | rfl := hk'
  · exact bytes_ne_encode_place _ _
  · exact bytes_ne_encode_place _ _
  · exact bytes_ne_encode_place _ _

theorem serves_after_garden :
    garden.Serves flowering.digest ∧ nursery.Serves sapling.digest ∧
    (∃ key, garden.Belongs flowering.digest key ∧ nursery.Belongs sapling.digest key) ∧
    ∃ b', Leaves sapling.digest unhurried nursery garden b' ∧ b'.Serves flowering.digest ∧
      b'.lookup sapling.digest.bytes ≠ garden.lookup sapling.digest.bytes ∧
      b'.Serves sapling.digest := by
  obtain ⟨htwig, hbud, hblossom⟩ := storable_leaves
  obtain ⟨hsapling, hflowering, -⟩ := digests_apart
  have hserved : garden.Serves flowering.digest := serves_plot htwig hblossom hflowering
  have hserves : nursery.Serves sapling.digest := serves_plot htwig hbud hsapling
  have hshared : garden.Belongs flowering.digest (place 1 [six]).encode ∧
      nursery.Belongs sapling.digest (place 1 [six]).encode :=
    ⟨(belongs_plot htwig hblossom hflowering).mpr (.inr (.inr (.inl rfl))),
      (belongs_plot htwig hbud hsapling).mpr (.inr (.inr (.inl rfl)))⟩
  obtain ⟨events, g, -, hg, -, hn⟩ := plot_copied (u := 1) htwig hbud hsapling
    (rfl : garden.store.medium = .memory _) rfl
  have htakes : ∀ events g, Gathers sapling.digest unhurried nursery events g →
      Access.Takes garden _ (batches g) := fun _ g _ => Access.takes_inMemory rfl (batches g)
  have hleaves : Leaves sapling.digest unhurried nursery garden (deliver g garden).2 := .delivered hg
  obtain ⟨-, hall⟩ := serves_after sapling.digest unhurried Volume.empty (planted 1 1 1 twig bud)
    (planted 2 1 2 twig blossom) _ htakes
  obtain ⟨hold, hnew⟩ := hall _ hleaves
  have hsame : ∀ key, garden.Belongs flowering.digest key → nursery.Belongs sapling.digest key →
      nursery.lookup key = garden.lookup key := by
    intro key h h'
    rw [eq_of_belongs h h']
    exact lookup_plot.2.2.1.trans lookup_plot.2.2.1.symm
  have hchanged : (deliver g garden).2.lookup sapling.digest.bytes ≠
      garden.lookup sapling.digest.bytes := by
    obtain ⟨visited, hbrings⟩ := exists_brings rfl hg
    have hcopies := hbrings.copies (b := garden) rfl rfl (htakes events g hg)
    have hanchored : nursery.lookup sapling.digest.bytes = .ok (some (place 1 []).encode) :=
      lookup_plot.1
    have hcopied : (deliver g garden).2.lookup sapling.digest.bytes =
        nursery.lookup sapling.digest.bytes := hcopies.copied 3 hn _ (.inl ⟨hsapling, rfl⟩)
    rw [hcopied, hanchored, lookup_garden_sapling]
    nofun
  refine ⟨hserved, hserves, ⟨_, hshared⟩, _, hleaves, (hold _ hserved hsame).1, hchanged, ?_⟩
  obtain ⟨k, hk, e⟩ | ⟨-, hiff, -⟩ := hnew _ hchanged
  · exact absurd e (bytes_ne_encode_of_reached hk)
  · exact hiff.mpr hserves

end Replication

end VersionedTrie
