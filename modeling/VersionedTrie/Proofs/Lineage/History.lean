import VersionedTrie.Proofs.Log

/-! # The commits of one tree

When a tree is committed again and again, each commit leads from the tree before it to the tree after
it (`Journal.Leads`): it writes the nodes that only the later tree has, and supersedes those that only
the earlier one has. This holds of every commit of a handle, however many updates it has seen, if
none of them was at a version at which the tree that it began with was written
(`Trie.Represents.leads`).

If the versions ascend from commit to commit, a node key is written once at most, and the trees that
have it stand in a row: it comes with the commit that writes it, and goes for good with the one that
supersedes it (`History.keyed_iff`).
-/

set_option autoImplicit false

namespace VersionedTrie

open VersionedTrie.Tree

theorem getElem?_concat_cases {α : Type} {l : List α} {a c : α} {i : Nat}
    (h : (l ++ [a])[i]? = some c) : (i < l.length ∧ l[i]? = some c) ∨ (i = l.length ∧ c = a) := by
  obtain hlt | hge := Nat.lt_or_ge i l.length
  · rw [List.getElem?_append_left hlt] at h
    exact .inl ⟨hlt, h⟩
  · have hle := (List.getElem?_eq_some_iff.mp h).1
    rw [List.length_append, List.length_singleton] at hle
    obtain rfl : i = l.length := Nat.le_antisymm (Nat.le_of_lt_succ hle) hge
    rw [List.getElem?_concat_length] at h
    exact .inr ⟨rfl, (Option.some.inj h).symm⟩

/-- The tree has a node under the node key. -/
def Tree.Keyed (tree : TreePrefix) (T : Tree) (k : NodeKey) : Prop := ∃ x, Owns tree [] T k x

/-- The journal is that of a commit from the first tree to the second, which holds the entries. -/
structure Journal.Leads (j : Journal) (tree : TreePrefix) (S T : Tree) (m : Entries) : Prop where
  shows : j.Shows tree T
  written : ∀ k b, (k, b) ∈ j.written ↔
    (∃ x, Owns tree [] T k x ∧ b = x.encode) ∧ ¬ Keyed tree S k
  superseded : ∀ k, k ∈ j.superseded ↔ Keyed tree S k ∧ ¬ Keyed tree T k
  shared : ∀ k x y, Owns tree [] S k x → Owns tree [] T k y → x = y
  holds : T.Holds m
  bounded : m.Bounded
  compact : T.Compact []

variable {tree : TreePrefix} {S T base : Tree} {m : Entries} {k : NodeKey} {x y : Node} {j : Journal}

theorem Trie.Represents.leads {t : Trie} (h : t.Represents base T) (he : t.Exact base T)
    (hm : T.Holds m) (hb : m.Bounded) : (t.journal T.digest).Leads t.tree base T m := by
  refine ⟨⟨rfl, h.root⟩, fun k b => ?_, fun k => ?_, fun k x y hx hy => ?_, hm, hb, h.compact⟩
  · rw [Trie.mem_written]
    constructor
    · rintro ⟨x, hx, rfl⟩
      exact ⟨⟨x, h.dirty k x hx, rfl⟩, fun ⟨y, hy⟩ => he.fresh k x y hx hy⟩
    · rintro ⟨⟨x, hx, rfl⟩, hbase⟩
      cases hd : t.dirty[k]? with
      | none => exact absurd ⟨x, (h.kept k x hx hd).1⟩ hbase
      | some y =>
        obtain rfl := (h.dirty k y hd).unique hx
        exact ⟨y, rfl, rfl⟩
  · constructor
    · intro hk
      obtain ⟨hbase, hT⟩ := h.superseded k hk
      exact ⟨hbase, fun ⟨x, hx⟩ => hT x hx⟩
    · rintro ⟨⟨x, hx⟩, hT⟩
      exact (he.accounted k x hx).resolve_left fun hk => hT ⟨x, hk⟩
  · cases hd : t.dirty[k]? with
    | none => exact hx.unique (h.kept k y hy hd).1
    | some z => exact absurd hx (he.fresh k z x hd)

namespace Journal.Leads

theorem owns_or_written (h : j.Leads tree S T m) (hk : Owns tree [] T k x) :
    Owns tree [] S k x ∨ (k, x.encode) ∈ j.written := by
  by_cases hS : Keyed tree S k
  · obtain ⟨y, hy⟩ := hS
    rw [← h.shared k y x hy hk]
    exact .inl hy
  · exact .inr ((h.written k _).mpr ⟨⟨x, hk, rfl⟩, hS⟩)

theorem keyed_of_written (h : j.Leads tree S T m) {b : ByteArray} (hk : (k, b) ∈ j.written) :
    Keyed tree T k := by
  obtain ⟨⟨x, hx, _⟩, _⟩ := (h.written k b).mp hk
  exact ⟨x, hx⟩

theorem eq_of_written (h : j.Leads tree S T m) {b b' : ByteArray} (hb : (k, b) ∈ j.written)
    (hb' : (k, b') ∈ j.written) : b = b' := by
  obtain ⟨⟨x, hx, rfl⟩, _⟩ := (h.written k b).mp hb
  obtain ⟨⟨y, hy, rfl⟩, _⟩ := (h.written k b').mp hb'
  rw [hx.unique hy]

end Journal.Leads

/-- The commits, with the entries of each, lead from one tree to the next; the tree of the commit `i`
is `trees (i + 1)`. -/
structure History (tree : TreePrefix) (commits : List (Journal × Entries)) (trees : Nat → Tree) :
    Prop where
  first : trees 0 = .vacant
  leads : ∀ i (j : Journal) m, commits[i]? = some (j, m) → j.Leads tree (trees i) (trees (i + 1)) m
  ascending : commits.Pairwise fun c d =>
    ∀ r, r ∈ c.1.written → ∀ r', r' ∈ d.1.written → r.1.version < r'.1.version

namespace History

variable {commits : List (Journal × Entries)} {trees : Nat → Tree} {i i' n : Nat} {j' : Journal}
  {m' : Entries} {b b' : ByteArray}

theorem exists_commit (h : History tree commits trees) (hi : i < commits.length) :
    ∃ (j : Journal) (m : Entries), commits[i]? = some (j, m) ∧
      j.Leads tree (trees i) (trees (i + 1)) m :=
  ⟨commits[i].1, commits[i].2, List.getElem?_eq_getElem hi,
    h.leads i _ _ (List.getElem?_eq_getElem hi)⟩

theorem nil : History tree [] fun _ => .vacant := ⟨rfl, nofun, .nil⟩

/-- A commit at higher versions adds a tree. -/
theorem extend (h : History tree commits trees) (hl : j.Leads tree (trees commits.length) T m)
    (hv : ∀ c, c ∈ commits → ∀ r, r ∈ c.1.written → ∀ r', r' ∈ j.written →
      r.1.version < r'.1.version) :
    History tree (commits ++ [(j, m)]) (Function.update trees (commits.length + 1) T) := by
  have hold : ∀ n, n ≤ commits.length →
      Function.update trees (commits.length + 1) T n = trees n := fun n hn =>
    Function.update_of_ne (Nat.ne_of_lt (Nat.lt_succ_of_le hn)) _ _
  refine ⟨(hold 0 (Nat.zero_le _)).trans h.first, fun i j' m' hi => ?_, ?_⟩
  · obtain ⟨hlt, hi⟩ | ⟨rfl, hc⟩ := getElem?_concat_cases hi
    · rw [hold i hlt.le, hold (i + 1) hlt]
      exact h.leads i j' m' hi
    · cases hc
      rw [hold _ le_rfl, Function.update_self]
      exact hl
  · refine List.pairwise_append.mpr ⟨h.ascending, List.pairwise_singleton _ _, fun c hc d hd => ?_⟩
    rw [List.mem_singleton.mp hd]
    exact hv c hc

/-! ## The life of a node -/

section Life

variable (h : History tree commits trees)
include h

/-- Every node of a tree has been written by an earlier commit. -/
theorem exists_written (hn : n ≤ commits.length) (hk : Owns tree [] (trees n) k x) :
    ∃ i j m, i < n ∧ commits[i]? = some (j, m) ∧ (k, x.encode) ∈ j.written := by
  induction n with
  | zero =>
    rw [h.first] at hk
    exact absurd hk not_owns_vacant
  | succ n ih =>
    obtain ⟨j, m, hj, hl⟩ := h.exists_commit hn
    obtain hold | hnew := hl.owns_or_written hk
    · obtain ⟨i, j, m, hi, hwritten⟩ := ih (Nat.le_of_succ_le hn) hold
      exact ⟨i, j, m, Nat.lt_succ_of_lt hi, hwritten⟩
    · exact ⟨n, j, m, Nat.lt_succ_self n, hj, hnew⟩

/-- No node key is written twice. -/
theorem written_unique (hi : commits[i]? = some (j, m)) (hi' : commits[i']? = some (j', m'))
    (hb : (k, b) ∈ j.written) (hb' : (k, b') ∈ j'.written) : i = i' ∧ b = b' := by
  obtain ⟨hlt, hget⟩ := List.getElem?_eq_some_iff.mp hi
  obtain ⟨hlt', hget'⟩ := List.getElem?_eq_some_iff.mp hi'
  have hascending := List.pairwise_iff_getElem.mp h.ascending
  obtain hless | rfl | hmore := Nat.lt_trichotomy i i'
  · have hv := hascending i i' hlt hlt' hless (k, b) (hget ▸ hb) (k, b') (hget' ▸ hb')
    exact absurd hv (UInt64.lt_irrefl _)
  · rw [hi] at hi'
    cases hi'
    exact ⟨rfl, (h.leads i j m hi).eq_of_written hb hb'⟩
  · have hv := hascending i' i hlt' hlt hmore (k, b') (hget' ▸ hb') (k, b) (hget ▸ hb)
    exact absurd hv (UInt64.lt_irrefl _)

/-- A node that has been superseded does not come back. -/
theorem not_keyed_of_superseded (hi : commits[i]? = some (j, m)) (hk : k ∈ j.superseded)
    (hin : i < n) (hn : n ≤ commits.length) : ¬ Keyed tree (trees n) k := by
  induction n, hin using Nat.le_induction with
  | base => exact (((h.leads i j m hi).superseded k).mp hk).2
  | succ n hin ih =>
    rintro ⟨x, hx⟩
    obtain ⟨j', m', hj', hl⟩ := h.exists_commit hn
    obtain hold | hnew := hl.owns_or_written hx
    · exact ih (Nat.le_of_succ_le hn) ⟨x, hold⟩
    · -- it would have been written again, after the commit that first wrote it
      obtain ⟨y, hy⟩ := (((h.leads i j m hi).superseded k).mp hk).1
      obtain ⟨i₀, j₀, m₀, hlt, hj₀, hfirst⟩ :=
        h.exists_written ((Nat.le_of_succ_le hin).trans (Nat.le_of_succ_le hn)) hy
      obtain ⟨rfl, _⟩ := h.written_unique hj₀ hj' hfirst hnew
      exact absurd (hlt.trans hin) (lt_irrefl _)

/-- A tree that does not have a node of an earlier one has lost it to a commit between them. -/
theorem exists_superseded (hin : i ≤ n) (hn : n ≤ commits.length) (hi : Keyed tree (trees i) k)
    (hk : ¬ Keyed tree (trees n) k) :
    ∃ p j m, p < n ∧ commits[p]? = some (j, m) ∧ k ∈ j.superseded := by
  induction n, hin using Nat.le_induction with
  | base => exact absurd hi hk
  | succ n hin ih =>
    by_cases hbefore : Keyed tree (trees n) k
    · obtain ⟨j, m, hj, hl⟩ := h.exists_commit hn
      exact ⟨n, j, m, Nat.lt_succ_self n, hj, (hl.superseded k).mpr ⟨hbefore, hk⟩⟩
    · obtain ⟨p, j, m, hp, hsuperseded⟩ := ih (Nat.le_of_succ_le hn) hbefore
      exact ⟨p, j, m, Nat.lt_succ_of_lt hp, hsuperseded⟩

/-- After the commit that writes it, a node is in the tree until a commit supersedes it. -/
theorem keyed_iff (hi : commits[i]? = some (j, m)) (hb : (k, b) ∈ j.written) (hin : i < n)
    (hn : n ≤ commits.length) : Keyed tree (trees n) k ↔
      ∀ p j m, p < n → commits[p]? = some (j, m) → k ∉ j.superseded := by
  constructor
  · exact fun hk p j m hp hj hs => h.not_keyed_of_superseded hj hs hp hn hk
  · intro hkept
    by_contra hk
    obtain ⟨p, j', m', hp, hj', hs⟩ :=
      h.exists_superseded hin hn ((h.leads i j m hi).keyed_of_written hb) hk
    exact hkept p j' m' hp hj' hs

/-- The nodes that are written and not superseded by one of the first commits are those of the trees
from there on. -/
theorem exists_keyed_iff (hi : commits[i]? = some (j, m)) (hb : (k, b) ∈ j.written)
    (hn : n ≤ commits.length) :
    (∃ p, n ≤ p + 1 ∧ p < commits.length ∧ Keyed tree (trees (p + 1)) k) ↔
      ∀ p j m, p < n → commits[p]? = some (j, m) → k ∉ j.superseded := by
  constructor
  · rintro ⟨p, hnp, hp, hk⟩ p' j' m' hp' hj' hs
    exact h.not_keyed_of_superseded hj' hs (hp'.trans_le hnp) hp hk
  · intro hkept
    obtain ⟨hlt, _⟩ := List.getElem?_eq_some_iff.mp hi
    obtain hle | hgt := Nat.lt_or_ge i n
    · obtain ⟨p, rfl⟩ := Nat.exists_eq_succ_of_ne_zero (Nat.ne_of_gt (Nat.zero_lt_of_lt hle))
      exact ⟨p, le_rfl, hn, (h.keyed_iff hi hb hle hn).mpr hkept⟩
    · exact ⟨i, hgt.trans (Nat.le_succ i), hlt, (h.leads i j m hi).keyed_of_written hb⟩

end Life

/-! ## The log of a history -/

section Log

variable (h : History tree commits trees)
include h

theorem wrote (hn : n ≤ commits.length) (hk : Owns tree [] (trees n) k x) :
    Log.Wrote (commits.map Prod.fst) k x := by
  obtain ⟨n, rfl⟩ : ∃ n', n = n' + 1 := by
    refine Nat.exists_eq_succ_of_ne_zero ?_
    rintro rfl
    rw [h.first] at hk
    exact not_owns_vacant hk
  obtain ⟨_, _, _, hl⟩ := h.exists_commit hn
  obtain ⟨i, j, m, _, hj, hb⟩ := h.exists_written hn hk
  exact ⟨j, List.mem_map_of_mem (List.mem_of_getElem? hj), hb,
    storable_of_owns hl.compact (hl.holds.admissible hl.bounded) hk⟩

theorem wrote_of_superseded (hi : commits[i]? = some (j, m)) (hk : k ∈ j.superseded) :
    ∃ x, Log.Wrote (commits.map Prod.fst) k x := by
  obtain ⟨⟨x, hx⟩, _⟩ := ((h.leads i j m hi).superseded k).mp hk
  obtain ⟨hlt, _⟩ := List.getElem?_eq_some_iff.mp hi
  exact ⟨x, h.wrote hlt.le hx⟩

theorem bears (hi : commits[i]? = some (j, m)) :
    Log.Bears (commits.map Prod.fst) tree (trees (i + 1)) m := by
  have hl := h.leads i j m hi
  obtain ⟨hlt, _⟩ := List.getElem?_eq_some_iff.mp hi
  exact ⟨hl.holds, hl.bounded, hl.compact, fun _ _ => h.wrote hlt⟩

theorem eq_vacant (hclean : Log.Clean (commits.map Prod.fst)) (hn : n ≤ commits.length)
    (hd : (trees n).digest = Digest.placeholder) : trees n = .vacant := by
  cases n with
  | zero => exact h.first
  | succ n =>
    obtain ⟨_, _, hj, _⟩ := h.exists_commit hn
    exact (h.bears hj).eq_vacant hclean hd

theorem clean (hapart : Log.Apart (commits.map Prod.fst))
    (hfree : ¬ Collides (Log.Hashes (commits.map Prod.fst))) :
    Log.Clean (commits.map Prod.fst) := by
  refine ⟨?_, hapart, hfree⟩
  rintro j hj j' hj' ⟨k, b⟩ hb ⟨k', b'⟩ hb' rfl
  obtain ⟨⟨_, m⟩, hmem, rfl⟩ := List.mem_map.mp hj
  obtain ⟨⟨_, m'⟩, hmem', rfl⟩ := List.mem_map.mp hj'
  obtain ⟨i, hi⟩ := List.mem_iff_getElem?.mp hmem
  obtain ⟨i', hi'⟩ := List.mem_iff_getElem?.mp hmem'
  exact (h.written_unique hi hi' hb hb').2

end Log

end History

end VersionedTrie
