import VersionedTrie.Proofs.Walk
import VersionedTrie.Traversal.Schedule
import Mathlib.Data.List.Nodup

/-! # The frontier of a traversal

A traversal has visited some node keys, and others are pending: the root and the children of the
nodes visited that have not been visited themselves (`Frontier`). Visiting any of them keeps this,
whatever the store holds, because a node key that is reached is the only one at its path
(`Reached.path_inj`): the children of a node that is visited have never been met before
(`Frontier.child_new`). When nothing is pending, what has been visited is what is reached.
-/

set_option autoImplicit false

namespace VersionedTrie

/-! ## The node keys that are reached -/

section Reached

variable {find : NodeKey → Except Error Node} {root : Option NodeKey} {j k r : NodeKey}

theorem mem_childKeys {x : Node} :
    j ∈ Traversal.childKeys k x ↔
      ∃ b n c, x = .branch b ∧ b.child? n = some c ∧ j = k.child c.version n := by
  cases x with
  | leaf l => simp [Traversal.childKeys]
  | branch b =>
    simp only [Traversal.childKeys, List.mem_map, Prod.exists, Node.branch.injEq]
    constructor
    · rintro ⟨n, c, hc, rfl⟩
      exact ⟨b, n, c, rfl, Branch.mem_children.mp hc, rfl⟩
    · rintro ⟨_, n, c, rfl, hc, rfl⟩
      exact ⟨n, c, Branch.mem_children.mpr hc, rfl⟩

theorem mem_foldl_insert {l : List NodeKey} {s : NodeSet} :
    j ∈ l.foldl (fun s k => s.insert k) s ↔ j ∈ l ∨ j ∈ s := by
  induction l generalizing s with
  | nil => simp
  | cons k l ih =>
    rw [List.foldl_cons, ih, Std.ExtTreeSet.mem_insert, List.mem_cons,
      Std.LawfulEqCmp.compare_eq_iff_eq, or_left_comm, or_assoc, eq_comm]

/-- What is pending after a visit. -/
theorem mem_widened {s : NodeSet} {x : Node} :
    j ∈ (Traversal.childKeys k x).foldl (fun s k => s.insert k) (s.erase k) ↔
      j ∈ Traversal.childKeys k x ∨ j ∈ s ∧ j ≠ k := by
  rw [mem_foldl_insert, Std.ExtTreeSet.mem_erase, and_comm, ne_eq, ne_eq,
    Std.LawfulEqCmp.compare_eq_iff_eq, eq_comm]

theorem path_childKeys {x : Node} (hj : j ∈ Traversal.childKeys k x) :
    ∃ n, j.path = k.path ++ [n] := by
  obtain ⟨_, n, _, -, -, rfl⟩ := mem_childKeys.mp hj
  exact ⟨n, NodeKey.path_child ..⟩

theorem Reached.of_childKeys (hk : Reached find root k) {x : Node} (hx : find k = .ok x)
    (hj : j ∈ Traversal.childKeys k x) : Reached find root j := by
  obtain ⟨b, n, c, rfl, hc, rfl⟩ := mem_childKeys.mp hj
  exact hk.child hx hc

theorem Reached.tree_eq (hk : Reached find root k) (hr : root = some r) : k.tree = r.tree := by
  induction hk with
  | root h =>
    rw [hr] at h
    rw [Option.some.inj h]
  | child _ _ _ ih => exact ih

theorem Reached.length_le (hk : Reached find root k) (hr : root = some r) :
    r.path.length ≤ k.path.length := by
  induction hk with
  | root h =>
    rw [hr] at h
    exact Nat.le_of_eq (congrArg (fun k : NodeKey => k.path.length) (Option.some.inj h))
  | child _ _ _ ih =>
    rw [NodeKey.path_child, List.length_append]
    omega

theorem Reached.exists_root (hk : Reached find root k) : ∃ r, root = some r := by
  induction hk with
  | root h => exact ⟨_, h⟩
  | child _ _ _ ih => exact ih

/-- No two node keys are reached at one path. -/
theorem Reached.path_inj (hj : Reached find root j) (hk : Reached find root k)
    (hp : j.path = k.path) : j = k := by
  induction hj generalizing k with
  | root h =>
    cases hk with
    | root h' => exact Option.some.inj (h.symm.trans h')
    | child hk' =>
      have hle := hk'.length_le h
      rw [hp, NodeKey.path_child, List.length_append, List.length_singleton] at hle
      omega
  | @child j b n c hj hb hc ih =>
    cases hk with
    | root h =>
      have hle := hj.length_le h
      rw [← hp, NodeKey.path_child, List.length_append, List.length_singleton] at hle
      omega
    | @child k b' n' c' hk hb' hc' =>
      rw [NodeKey.path_child, NodeKey.path_child] at hp
      obtain ⟨hpath, hn⟩ := List.append_inj' hp rfl
      obtain rfl : n = n' := (List.cons.inj hn).1
      obtain rfl := ih hk hpath
      rw [hb] at hb'
      obtain rfl : b = b' := by cases hb'; rfl
      rw [hc] at hc'
      rw [Option.some.inj hc']

end Reached

/-! ## Visiting -/

open Traversal

/-- The node keys visited or pending are the root and the children of the nodes visited. -/
structure Frontier (find : NodeKey → Except Error Node) (root : Option NodeKey)
    (visited : List (NodeKey × Node)) (pending : NodeKey → Prop) : Prop where
  found : ∀ r, r ∈ visited → Reached find root r.1 ∧ find r.1 = .ok r.2
  nodup : (visited.map Prod.fst).Nodup
  fresh : ∀ k, pending k → Reached find root k ∧ k ∉ visited.map Prod.fst
  closed : ∀ k, k ∈ visited.map Prod.fst ∨ pending k ↔
    root = some k ∨ ∃ r, r ∈ visited ∧ k ∈ childKeys r.1 r.2

namespace Frontier

variable {find : NodeKey → Except Error Node} {root : Option NodeKey} {j k : NodeKey} {x : Node}
  {visited : List (NodeKey × Node)} {pending pending' : NodeKey → Prop}

theorem start (find : NodeKey → Except Error Node) (root : Option NodeKey) :
    Frontier find root [] (root = some ·) where
  found _ hr := absurd hr List.not_mem_nil
  nodup := List.nodup_nil
  fresh _ hk := ⟨.root hk, List.not_mem_nil⟩
  closed k := by simp

theorem congr (h : Frontier find root visited pending) (hp : ∀ k, pending' k ↔ pending k) :
    Frontier find root visited pending' where
  found := h.found
  nodup := h.nodup
  fresh k hk := h.fresh k ((hp k).mp hk)
  closed k := by rw [hp]; exact h.closed k

section Child

variable (h : Frontier find root visited pending) (hk : pending k)
include h hk

/-- The children of a node that is pending have not been met. -/
theorem child_new (hj : j ∈ childKeys k x) :
    j ≠ k ∧ j ∉ visited.map Prod.fst ∧ ¬ pending j := by
  obtain ⟨n, hpath⟩ := path_childKeys hj
  obtain ⟨hreached, hnew⟩ := h.fresh k hk
  have hmet : ¬ (j ∈ visited.map Prod.fst ∨ pending j) := by
    intro hj
    obtain hroot | ⟨r, hr, hjr⟩ := (h.closed j).mp hj
    · have hle := hreached.length_le hroot
      rw [hpath, List.length_append, List.length_singleton] at hle
      omega
    · -- its parent would be another node key at the path of this one
      obtain ⟨n', hpath'⟩ := path_childKeys hjr
      have hsame : r.1.path = k.path := (List.append_inj' (hpath'.symm.trans hpath) rfl).1
      rw [← (h.found r hr).1.path_inj hreached hsame] at hnew
      exact hnew (List.mem_map_of_mem hr)
  refine ⟨fun e => ?_, fun hv => hmet (.inl hv), fun hp => hmet (.inr hp)⟩
  rw [e] at hpath
  exact absurd hpath (by simp)

theorem visit (hx : find k = .ok x) :
    Frontier find root (visited ++ [(k, x)]) fun j => j ∈ childKeys k x ∨ pending j ∧ j ≠ k := by
  obtain ⟨hreached, hnew⟩ := h.fresh k hk
  constructor
  case found =>
    intro r hr
    obtain hr | hr := List.mem_append.mp hr
    · exact h.found r hr
    · rw [List.mem_singleton.mp hr]
      exact ⟨hreached, hx⟩
  case nodup =>
    rw [List.map_append, List.nodup_append]
    refine ⟨h.nodup, List.nodup_singleton _, ?_⟩
    rintro j hj i hi rfl
    rw [List.mem_singleton.mp hi] at hj
    exact hnew hj
  case fresh =>
    intro j hj
    rw [List.map_append, List.mem_append, not_or, List.map_singleton, List.mem_singleton]
    obtain hj | ⟨hj, hne⟩ := hj
    · obtain ⟨hne, hfresh, -⟩ := h.child_new hk hj
      exact ⟨hreached.of_childKeys hx hj, hfresh, hne⟩
    · exact ⟨(h.fresh j hj).1, (h.fresh j hj).2, hne⟩
  case closed =>
    intro j
    have hold := h.closed j
    simp only [List.map_append, List.mem_append, List.map_singleton, List.mem_singleton]
    constructor
    · rintro ((hj | rfl) | hj | ⟨hj, -⟩)
      · exact (hold.mp (.inl hj)).imp_right fun ⟨r, hr, hjr⟩ => ⟨r, .inl hr, hjr⟩
      · exact (hold.mp (.inr hk)).imp_right fun ⟨r, hr, hjr⟩ => ⟨r, .inl hr, hjr⟩
      · exact .inr ⟨(k, x), .inr rfl, hj⟩
      · exact (hold.mp (.inr hj)).imp_right fun ⟨r, hr, hjr⟩ => ⟨r, .inl hr, hjr⟩
    · have hmet : j ∈ visited.map Prod.fst ∨ pending j →
          (j ∈ visited.map Prod.fst ∨ j = k) ∨ j ∈ childKeys k x ∨ pending j ∧ j ≠ k := by
        rintro (hj | hj)
        · exact .inl (.inl hj)
        · by_cases e : j = k
          · exact .inl (.inr e)
          · exact .inr (.inr ⟨hj, e⟩)
      rintro (hj | ⟨r, hr | rfl, hjr⟩)
      · exact hmet (hold.mpr (.inl hj))
      · exact hmet (hold.mpr (.inr ⟨r, hr, hjr⟩))
      · exact .inr (.inl hjr)

end Child

theorem pending_iff (h : Frontier find root visited pending) :
    pending k ↔ k ∉ visited.map Prod.fst ∧
      (root = some k ∨ ∃ r, r ∈ visited ∧ k ∈ childKeys r.1 r.2) := by
  rw [← h.closed k]
  exact ⟨fun hk => ⟨(h.fresh k hk).2, .inr hk⟩, fun ⟨hnew, hk⟩ => hk.resolve_left hnew⟩

/-- When nothing is pending, what is reached has been visited. -/
theorem complete (h : Frontier find root visited pending) (hdone : ∀ k, ¬ pending k) :
    k ∈ visited.map Prod.fst ↔ Reached find root k := by
  have hvisited : ∀ k, k ∈ visited.map Prod.fst ↔
      root = some k ∨ ∃ r, r ∈ visited ∧ k ∈ childKeys r.1 r.2 := by
    intro k
    rw [← h.closed k, or_iff_left (hdone k)]
  constructor
  · intro hk
    obtain ⟨r, hr, rfl⟩ := List.mem_map.mp hk
    exact (h.found r hr).1
  · intro hk
    induction hk with
    | root hroot => exact (hvisited _).mpr (.inl hroot)
    | child _ hb hc ih =>
      obtain ⟨r, hr, rfl⟩ := List.mem_map.mp ih
      refine (hvisited _).mpr (.inr ⟨r, hr, mem_childKeys.mpr ⟨_, _, _, ?_, hc, rfl⟩⟩)
      rw [(h.found r hr).2] at hb
      exact Except.ok.inj hb

end Frontier

end VersionedTrie
