import VersionedTrie.Proofs.Changes.Patch

/-! # Insertion on trees

Splitting a stored leaf from a given one writes the tree `parted`: a branch for each nibble the two
keys share, the last of them forking into the two leaves. It fails exactly where one key is the
first part of the other (`split_spec`). Planting a leaf where a walk has landed patches what stood
there (`plant_spec`), and going up to the root patches the whole tree (`rise_patches`).
-/

set_option autoImplicit false

namespace VersionedTrie

namespace Tree

/-! ## Two leaves pushed apart -/

def lone (n : Nibble) (T : Tree) : Nibble → Tree := Function.update (fun _ => vacant) n T

theorem lone_self (n : Nibble) (T : Tree) : lone n T n = T := Function.update_self ..

theorem lone_of_ne {n m : Nibble} (h : m ≠ n) (T : Tree) : lone n T m = vacant :=
  Function.update_of_ne h ..

/-- The tree that tells two leaves apart, by what is left of their keys at its place. -/
def parted (version : Version) (stored given : Leaf) : Path → Path → Tree
  | a :: p, b :: q =>
    if a = b then branch version (lone a (parted version stored given p q))
    else branch version (Function.update (lone a (leaf version stored)) b (leaf version given))
  | _, _ => vacant

theorem joining_vacant : joining (fun _ => vacant) = Branch.empty := by
  apply Branch.ext_child
  intro n
  rw [child?_joining, Branch.child?_empty, slot]

theorem set_empty (n : Nibble) {T : Tree} {c : Child} (h : T.slot = some c) :
    Branch.empty.set n c = joining (lone n T) := by
  rw [← joining_vacant, set_joining _ _ h, lone]

section Parted

variable (version : Version) {stored given : Leaf} {pre p q : Path}

theorem isBranch_parted (hpq : ¬ p <+: q) (hqp : ¬ q <+: p) :
    (parted version stored given p q).IsBranch := by
  cases p with
  | nil => exact absurd List.nil_prefix hpq
  | cons a p =>
    cases q with
    | nil => exact absurd List.nil_prefix hqp
    | cons b q =>
      rw [parted]
      split <;> trivial

theorem version?_parted (hpq : ¬ p <+: q) (hqp : ¬ q <+: p) :
    (parted version stored given p q).version? = some version := by
  cases p with
  | nil => exact absurd List.nil_prefix hpq
  | cons a p =>
    cases q with
    | nil => exact absurd List.nil_prefix hqp
    | cons b q =>
      rw [parted]
      split <;> rfl

theorem has_parted (hpq : ¬ p <+: q) (hqp : ¬ q <+: p) {l : Leaf} :
    (parted version stored given p q).Has l ↔ l = stored ∨ l = given := by
  induction p generalizing q with
  | nil => exact absurd List.nil_prefix hpq
  | cons a p ih =>
    cases q with
    | nil => exact absurd List.nil_prefix hqp
    | cons b q =>
      rw [parted]
      split
      · next e =>
        subst e
        rw [List.cons_prefix_cons] at hpq hqp
        rw [lone, has_branch_update, ih (fun h => hpq ⟨rfl, h⟩) (fun h => hqp ⟨rfl, h⟩)]
        simp [not_has_vacant]
      · next e =>
        rw [has_branch_update, has_leaf, or_comm]
        refine or_congr ?_ Iff.rfl
        constructor
        · rintro ⟨m, _, hl⟩
          by_cases hm : m = a
          · subst hm
            rw [lone_self] at hl
            exact has_leaf.mp hl
          · rw [lone_of_ne hm] at hl
            exact absurd hl not_has_vacant
        · rintro rfl
          exact ⟨a, e, by rw [lone_self]; exact .leaf⟩

theorem compact_parted (hs : stored.key = pre ++ p) (hg : given.key = pre ++ q)
    (hpq : ¬ p <+: q) (hqp : ¬ q <+: p) :
    (parted version stored given p q).Compact pre := by
  induction p generalizing q pre with
  | nil => exact absurd List.nil_prefix hpq
  | cons a p ih =>
    cases q with
    | nil => exact absurd List.nil_prefix hqp
    | cons b q =>
      have prefix_key {l : Leaf} {n : Nibble} {r : Path} (h : l.key = pre ++ n :: r) :
          pre ++ [n] <+: l.key := ⟨r, by simp [h]⟩
      rw [parted]
      split
      · next e =>
        subst e
        rw [List.cons_prefix_cons] at hpq hqp
        have hpq' : ¬ p <+: q := fun h => hpq ⟨rfl, h⟩
        have hqp' : ¬ q <+: p := fun h => hqp ⟨rfl, h⟩
        refine .branch (fun n => ?_) (.inl ⟨a, ?_⟩)
        · by_cases hn : n = a
          · subst hn
            rw [lone_self]
            exact ih (by simp [hs]) (by simp [hg]) hpq' hqp'
          · rw [lone_of_ne hn]
            exact .vacant
        · rw [lone_self]
          exact isBranch_parted version hpq' hqp'
      · next e =>
        refine .branch (fun n => ?_) (.inr ⟨a, b, e, ?_, ?_⟩)
        · by_cases hb : n = b
          · subst hb
            rw [Function.update_self]
            exact .leaf (prefix_key hg)
          · rw [Function.update_of_ne hb]
            by_cases ha : n = a
            · subst ha
              rw [lone_self]
              exact .leaf (prefix_key hs)
            · rw [lone_of_ne ha]
              exact .vacant
        · rw [Function.update_of_ne e, lone_self]
          exact nofun
        · rw [Function.update_self]
          exact nofun

end Parted

end Tree

open VersionedTrie.Tree

/-! ## Changes that write a whole tree -/

namespace Changes

/-- What the changes write are the nodes of a tree and no others. -/
def Writes (tree : TreePrefix) (p : Path) (T : Tree) (c : Changes) : Prop :=
  ∀ k x, c.written[k]? = some x ↔ Owns tree p T k x

variable {tree : TreePrefix} {p : Path} {S T : Tree} {c : Changes} {version : Version}

/-- Changes that write all of one tree and retire all of another lead from that one to it. -/
theorem Writes.patches (h : c.Writes tree p T)
    (hr : ∀ k, k ∈ c.retired ↔ ∃ x, Owns tree p S k x) (hn : c.retired.Nodup) :
    c.Patches tree p S T where
  written k x := (h k x).mp
  retired k := (hr k).mp
  nodup := hn
  fresh k x hk := .inl ((h k x).mpr hk)
  stale k x hk := .inl ((hr k).mpr ⟨x, hk⟩)

theorem mem_retired_leaf {l : Leaf} (hr : c.retired = [.ofPath version tree p]) (k : NodeKey) :
    k ∈ c.retired ↔ ∃ x, Owns tree p (.leaf version l) k x := by
  rw [hr, List.mem_singleton]
  constructor
  · rintro rfl
    exact ⟨_, .leaf⟩
  · rintro ⟨x, hx⟩
    exact (owns_leaf.mp hx).1

theorem writes_vacant (hc : ∀ k : NodeKey, c.written[k]? = none) : c.Writes tree p .vacant := by
  intro k x
  rw [hc]
  constructor
  · exact nofun
  · exact fun h => absurd h not_owns_vacant

theorem writes_leaf (hc : ∀ k : NodeKey, c.written[k]? = none) (l : Leaf) :
    (c.write (.ofPath version tree p) (.leaf l)).Writes tree p (.leaf version l) := by
  intro k x
  rw [written_write, hc, owns_leaf]
  constructor
  · intro h
    split at h
    · next e =>
      cases h
      exact ⟨e.symm, rfl⟩
    · cases h
  · rintro ⟨rfl, rfl⟩
    simp

theorem Writes.lone {n : Nibble} (h : c.Writes tree (p ++ [n]) T) :
    (c.write (.ofPath version tree p) (.branch (joining (lone n T)))).Writes tree p
      (.branch version (Tree.lone n T)) := by
  intro k x
  rw [owns_branch]
  constructor
  · intro hk
    rw [written_write] at hk
    split at hk
    · next e =>
      cases hk
      exact .inl ⟨e.symm, rfl⟩
    · exact .inr ⟨n, by rw [lone_self]; exact (h k x).mp hk⟩
  · rintro (⟨rfl, rfl⟩ | ⟨m, hm⟩)
    · exact written_write_self ..
    · by_cases e : m = n
      · subst e
        rw [lone_self] at hm
        rw [written_write_ne _ _ (ne_ofPath hm.prefix_path version)]
        exact (h k x).mpr hm
      · rw [lone_of_ne e] at hm
        exact absurd hm not_owns_vacant

theorem writes_fork (hc : ∀ k : NodeKey, c.written[k]? = none) {a b : Nibble} (hab : a ≠ b)
    (stored given : Leaf) :
    (((c.write (.ofPath version tree (p ++ [a])) (.leaf stored)).write
      (.ofPath version tree (p ++ [b])) (.leaf given)).write (.ofPath version tree p)
        (.branch (joining (Function.update (Tree.lone a (.leaf version stored)) b
          (.leaf version given))))).Writes tree p
      (.branch version (Function.update (Tree.lone a (.leaf version stored)) b
        (.leaf version given))) := by
  have hne : ∀ n, NodeKey.ofPath version tree (p ++ [n]) ≠ .ofPath version tree p :=
    fun n => ne_ofPath (n := n) (by simp) version
  have hkab : NodeKey.ofPath version tree (p ++ [a]) ≠ .ofPath version tree (p ++ [b]) := by
    intro e
    have := (NodeKey.ofPath_inj.mp e).2
    exact hab (by simpa using this)
  intro k x
  rw [owns_branch, written_write, written_write, written_write, hc]
  constructor
  · intro h
    split at h
    · next e =>
      cases h
      exact .inl ⟨e.symm, rfl⟩
    · split at h
      · next e =>
        cases h
        exact .inr ⟨b, by rw [Function.update_self, ← e]; exact .leaf⟩
      · split at h
        · next e =>
          cases h
          exact .inr ⟨a, by rw [Function.update_of_ne hab, lone_self, ← e]; exact .leaf⟩
        · cases h
  · rintro (⟨rfl, rfl⟩ | ⟨n, hn⟩)
    · simp
    · by_cases hb : n = b
      · subst hb
        rw [Function.update_self, owns_leaf] at hn
        obtain ⟨rfl, rfl⟩ := hn
        simp [Ne.symm (hne n)]
      · rw [Function.update_of_ne hb] at hn
        by_cases ha : n = a
        · subst ha
          rw [lone_self, owns_leaf] at hn
          obtain ⟨rfl, rfl⟩ := hn
          simp [Ne.symm (hne n), Ne.symm hkab]
        · rw [lone_of_ne ha] at hn
          exact absurd hn not_owns_vacant

end Changes

/-! ## Splitting -/

namespace Path

theorem commonLength_append (pre p q : Path) :
    commonLength (pre ++ p) (pre ++ q) = pre.length + commonLength p q := by
  induction pre with
  | nil => simp
  | cons a pre ih =>
    rw [List.cons_append, List.cons_append, commonLength, if_pos rfl, ih, List.length_cons]
    omega

theorem commonLength_le (p q : Path) : commonLength p q ≤ q.length := by
  induction p generalizing q with
  | nil => simp [commonLength]
  | cons a p ih =>
    cases q with
    | nil => simp [commonLength]
    | cons b q =>
      rw [commonLength]
      split
      · exact Nat.succ_le_succ (ih q)
      · exact Nat.zero_le _

end Path

namespace Site

theorem chain_cons (s : Site) (a : Nibble) (depth : Nat) (levels : List (Nibble × Nat))
    (c : Changes) (node : Node) :
    s.chain ((a, depth) :: levels) c node =
      (let r := s.chain levels c node
       let branch := Node.branch (Branch.empty.set a (s.child r.2))
       (r.1.write (s.at_ depth) branch, branch)) := rfl

/-- One more shared nibble puts one more branch above. -/
theorem split_of_lt (s : Site) (c : Changes) (stored given : Leaf) {depth : Nat} {a : Nibble}
    (hlt : depth < Path.commonLength stored.key given.key) (ha : given.key[depth]? = some a) :
    s.split c stored given depth =
      (s.split c stored given (depth + 1)).map fun r =>
        let branch := Node.branch (Branch.empty.set a (s.child r.2))
        (r.1.write (s.at_ depth) branch, branch) := by
  have hlen :
      depth < ((given.key.take (Path.commonLength stored.key given.key)).zipIdx).length := by
    have := Path.commonLength_le stored.key given.key
    simp only [List.length_zipIdx, List.length_take]
    omega
  have hd : ((given.key.take (Path.commonLength stored.key given.key)).zipIdx).drop depth =
      (a, depth) ::
        ((given.key.take (Path.commonLength stored.key given.key)).zipIdx).drop (depth + 1) := by
    obtain ⟨_, hg⟩ := List.getElem?_eq_some_iff.mp ha
    rw [List.drop_eq_getElem_cons hlen]
    simp [hg]
  unfold split
  simp only [hd, chain_cons]
  split <;> rfl

theorem split_eq_error (s : Site) (c : Changes) {stored given : Leaf} (depth : Nat)
    (h : stored.key[Path.commonLength stored.key given.key]? = none ∨
      given.key[Path.commonLength stored.key given.key]? = none) :
    s.split c stored given depth = .error (.invalidKey (.nested stored.key given.key)) := by
  unfold split
  simp only
  split
  · next ha hb => simp [ha, hb] at h
  · rfl

theorem slot_leaf (s : Site) (l : Leaf) :
    (Tree.leaf s.version l).slot = some (s.child (.leaf l)) := rfl

variable {s : Site} {c : Changes} {stored given : Leaf}

/-- Above a shared nibble there is one more branch. -/
theorem split_shared (hs : s.path.toPath = given.key) {a : Nibble} {p q pre : Path}
    (hp : stored.key = pre ++ a :: p) (hq : given.key = pre ++ a :: q) :
    s.split c stored given pre.length =
      (s.split c stored given (pre ++ [a]).length).map fun r =>
        let branch := Node.branch (Branch.empty.set a (s.child r.2))
        (r.1.write (.ofPath s.version s.tree pre) branch, branch) := by
  have hlt : pre.length < Path.commonLength stored.key given.key := by
    rw [hp, hq, Path.commonLength_append, Path.commonLength, if_pos rfl]
    omega
  have ha : given.key[pre.length]? = some a := by rw [hq]; simp
  rw [split_of_lt s c stored given hlt ha, List.length_append, List.length_singleton,
    s.at_length (hs.trans hq)]

/-- Where the keys fork, the two leaves and one branch are written. -/
theorem split_fork (hs : s.path.toPath = given.key) {a b : Nibble} {p q pre : Path} (hab : a ≠ b)
    (hp : stored.key = pre ++ a :: p) (hq : given.key = pre ++ b :: q) :
    s.split c stored given pre.length =
      let both := Node.branch
        ((Branch.empty.set a (s.child (.leaf stored))).set b (s.child (.leaf given)))
      .ok (((c.write (.ofPath s.version s.tree (pre ++ [a])) (.leaf stored)).write
        (.ofPath s.version s.tree (pre ++ [b])) (.leaf given)).write
          (.ofPath s.version s.tree pre) both, both) := by
  have hfork : Path.commonLength stored.key given.key = pre.length := by
    rw [hp, hq, Path.commonLength_append, Path.commonLength, if_neg hab]
    rfl
  have ha : stored.key[pre.length]? = some a := by rw [hp]; simp
  have hb : given.key[pre.length]? = some b := by rw [hq]; simp
  have hat : s.at_ pre.length = .ofPath s.version s.tree pre := s.at_length (hs.trans hq)
  have hat' : s.at_ (pre.length + 1) = .ofPath s.version s.tree (pre ++ [b]) := by
    have := s.at_length (p := pre ++ [b]) (q := q) (by rw [hs, hq]; simp)
    rwa [List.length_append, List.length_singleton] at this
  have htake : stored.key.take (pre.length + 1) = pre ++ [a] := by
    rw [hp, List.take_length_add_append]
    rfl
  have hlevels : ((given.key.take pre.length).zipIdx).drop pre.length = [] := by
    apply List.drop_eq_nil_of_le
    simp [hq]
  simp only [split, hfork, ha, hb, hlevels, chain, List.foldr_nil, hat, hat', htake]

/-- Splitting writes the tree that tells the two leaves apart, unless one key is the first part of
the other. -/
theorem split_spec (hc : ∀ k : NodeKey, c.written[k]? = none) (hs : s.path.toPath = given.key)
    {p q pre : Path} (hp : stored.key = pre ++ p) (hq : given.key = pre ++ q) :
    match s.split c stored given pre.length with
    | .ok (c', x) =>
      (¬ p <+: q ∧ ¬ q <+: p) ∧ c'.retired = c.retired ∧
        c'.Writes s.tree pre (parted s.version stored given p q) ∧
        (parted s.version stored given p q).node? = some x
    | .error e => (p <+: q ∨ q <+: p) ∧ e = .invalidKey (.nested stored.key given.key) := by
  have hfork : Path.commonLength stored.key given.key = pre.length + Path.commonLength p q := by
    rw [hp, hq, Path.commonLength_append]
  induction p generalizing q pre with
  | nil =>
    have hn : stored.key[Path.commonLength stored.key given.key]? = none := by
      rw [hfork, hp]
      simp
    rw [s.split_eq_error c _ (.inl hn)]
    exact ⟨.inl List.nil_prefix, rfl⟩
  | cons a p ih =>
    cases q with
    | nil =>
      have hn : given.key[Path.commonLength stored.key given.key]? = none := by
        rw [hfork, hq]
        simp
      rw [s.split_eq_error c _ (.inr hn)]
      exact ⟨.inr List.nil_prefix, rfl⟩
    | cons b q =>
      by_cases e : a = b
      · subst e
        have hp' : stored.key = (pre ++ [a]) ++ p := by simp [hp]
        have hq' : given.key = (pre ++ [a]) ++ q := by simp [hq]
        have := ih hp' hq'
          (by rw [hfork, Path.commonLength, if_pos rfl, List.length_append]; simp; omega)
        rw [split_shared hs hp hq]
        cases hr : s.split c stored given (pre ++ [a]).length with
        | error err =>
          rw [hr] at this
          simp only [Except.map, List.cons_prefix_cons, true_and]
          exact this
        | ok r =>
          rw [hr] at this
          obtain ⟨hpq, hret, hw, hx⟩ := this
          have hslot := slot_eq hx (version?_parted s.version hpq.1 hpq.2)
          simp only [Except.map, List.cons_prefix_cons, true_and, parted, if_true]
          refine ⟨hpq, hret, ?_, ?_⟩
          · rw [child, set_empty a hslot]
            exact hw.lone
          · rw [child, set_empty a hslot]
            rfl
      · have hboth : (Branch.empty.set a (s.child (.leaf stored))).set b (s.child (.leaf given)) =
            joining
              (Function.update (lone a (.leaf s.version stored)) b (.leaf s.version given)) := by
          rw [set_empty a (s.slot_leaf stored), set_joining _ b (s.slot_leaf given)]
        simp only [split_fork hs e hp hq, hboth, parted, if_neg e, List.cons_prefix_cons]
        exact ⟨⟨fun h => e h.1, fun h => e h.1.symm⟩, rfl,
          Changes.writes_fork hc e stored given, rfl⟩

end Site

/-! ## Planting a leaf -/

/-- The tree `T` is the tree `S` at the path `p` with a leaf set. -/
structure Plants (leaf : Leaf) (version : Version) (p : Path) (S T : Tree) : Prop where
  version? : T.version? = some version
  compact : T.Compact p
  branch : S.IsBranch → T.IsBranch
  has : ∀ l, T.Has l ↔ l = leaf ∨ (S.Has l ∧ l.key ≠ leaf.key)
  apart : ∀ l, S.Has l → ¬ Path.Nested l.key leaf.key

namespace Site

variable {s : Site} {leaf : Leaf} {p rest : Path} {S : Tree}

theorem plant_spec {d : Descent} (hs : s.path.toPath = leaf.key) (hkey : leaf.key = p ++ rest)
    (hsteps : d.steps.length = p.length) (hland : Lands s.tree p S rest d.landing)
    (hS : S.Compact p) :
    match s.plant leaf d with
    | .ok (c, x) =>
      ∃ T, c.Patches s.tree p S T ∧ T.node? = some x ∧ Plants leaf s.version p S T
    | .error e =>
      (∃ defect, e = .invalidKey defect) ∧ ∃ l, S.Has l ∧ Path.Nested l.key leaf.key := by
  have hat : s.at_ p.length = .ofPath s.version s.tree p := s.at_length (hs.trans hkey)
  have hp : p <+: leaf.key := ⟨rest, hkey.symm⟩
  have hone : (Tree.leaf s.version leaf).Compact p := .leaf hp
  obtain ⟨steps, landing⟩ := d
  simp only at hsteps hland
  cases hland with
  | vacant =>
    have hr : s.plant leaf ⟨steps, .vacant⟩ =
        .ok (Changes.empty.write (.ofPath s.version s.tree p) (.leaf leaf), .leaf leaf) := by
      simp only [plant, hsteps, hat]
    rw [hr]
    refine ⟨.leaf s.version leaf, ?_, rfl, rfl, hone, fun h => absurd h id, fun l => ?_, ?_⟩
    · refine (Changes.writes_leaf Changes.written_empty leaf).patches (fun k => ?_) List.nodup_nil
      rw [Changes.retired_write, Changes.retired_empty]
      constructor
      · exact fun h => absurd h List.not_mem_nil
      · rintro ⟨x, hx⟩
        exact absurd hx not_owns_vacant
    · simp [has_leaf, not_has_vacant]
    · exact fun l hl => absurd hl not_has_vacant
  | @leaf version stored _ =>
    have hnone : ∀ k : NodeKey,
        (Changes.empty.retire (.ofPath version s.tree p)).written[k]? = none :=
      Changes.written_retire_empty _
    have hretired := Changes.retired_retire_empty (.ofPath version s.tree p)
    by_cases e : stored.key = leaf.key
    · have hr : s.plant leaf ⟨steps, .leaf (.ofPath version s.tree p) stored⟩ =
          .ok ((Changes.empty.retire (.ofPath version s.tree p)).write
            (.ofPath s.version s.tree p) (.leaf leaf), .leaf leaf) := by
        simp only [plant, hsteps, hat, if_pos e]
      rw [hr]
      refine ⟨.leaf s.version leaf, ?_, rfl, rfl, hone, fun h => absurd h id, fun l => ?_, ?_⟩
      · refine (Changes.writes_leaf hnone leaf).patches (Changes.mem_retired_leaf hretired) ?_
        rw [Changes.retired_write, hretired]
        exact List.pairwise_singleton _ _
      · rw [has_leaf, has_leaf]
        constructor
        · exact .inl
        · rintro (rfl | ⟨rfl, hne⟩)
          · rfl
          · exact absurd e hne
      · intro l hl
        rw [has_leaf.mp hl]
        exact fun hn => hn.1 e
    · have hr : s.plant leaf ⟨steps, .leaf (.ofPath version s.tree p) stored⟩ =
          s.split (Changes.empty.retire (.ofPath version s.tree p)) stored leaf p.length := by
        simp only [plant, hsteps, if_neg e]
      rw [hr]
      obtain ⟨q, hq⟩ := hS.prefix_of_has .leaf
      have hsplit := split_spec hnone hs hq.symm hkey
      have hiff : Path.Nested stored.key leaf.key ↔ q <+: rest ∨ rest <+: q := by
        rw [Path.Nested, ← hq, hkey, List.prefix_append_right_inj, List.prefix_append_right_inj]
        refine and_iff_right ?_
        rw [hq, ← hkey]
        exact e
      cases hout : s.split (Changes.empty.retire (.ofPath version s.tree p)) stored leaf
          p.length with
      | ok r =>
        rw [hout] at hsplit
        obtain ⟨⟨hqr, hrq⟩, hret, hw, hx⟩ := hsplit
        refine ⟨_, hw.patches (Changes.mem_retired_leaf (hret.trans hretired)) ?_, hx,
          version?_parted _ hqr hrq, compact_parted _ hq.symm hkey hqr hrq,
          fun h => absurd h id, fun l => ?_, ?_⟩
        · rw [hret, hretired]
          exact List.pairwise_singleton _ _
        · rw [has_parted _ hqr hrq, has_leaf]
          constructor
          · rintro (rfl | rfl)
            · exact .inr ⟨rfl, e⟩
            · exact .inl rfl
          · rintro (rfl | ⟨rfl, _⟩)
            · exact .inr rfl
            · exact .inl rfl
        · intro l hl
          rw [has_leaf.mp hl, hiff]
          exact fun h => h.elim hqr hrq
      | error err =>
        rw [hout] at hsplit
        exact ⟨⟨_, hsplit.2⟩, stored, .leaf, hiff.mpr hsplit.1⟩
  | exhausted =>
    obtain ⟨l, hl⟩ := hS.exists_has nofun
    rw [List.append_nil] at hkey
    refine ⟨⟨_, rfl⟩, l, hl, ?_, .inr ?_⟩
    · rw [hkey]
      exact hS.key_ne hl
    · rw [hkey]
      exact hS.prefix_of_has hl

/-! ## Going up to the root -/

theorem rise_patches {z : Context} {S T : Tree} {c : Changes} {x : Node} (rest : Path)
    (hs : s.path.toPath = z.path ++ rest) (hc : c.Patches s.tree z.path S T)
    (hx : T.node? = some x) (hv : T.version? = some s.version) :
    (s.rise (z.steps s.tree) c x).1.Patches s.tree [] (z.plug S) (z.rewrite s.version T) := by
  induction z generalizing S T c x rest with
  | nil => exact hc
  | cons f above ih =>
    have hs' : s.path.toPath = Context.path above ++ (f.nibble :: rest) := by
      rw [hs, Context.path, List.append_assoc, List.singleton_append]
    have hat : s.at_ above.length = .ofPath s.version s.tree (Context.path above) := by
      rw [← Context.length_path]
      exact s.at_length hs'
    have hbranch : (joining f.below).set f.nibble (s.child x) = joining (f.fill T) :=
      set_joining _ _ (slot_eq hx hv)
    simp only [Context.steps, rise, Context.length_steps, hat, hbranch]
    exact ih _ hs' (hc.raise f.version s.version) rfl rfl

theorem version?_rewrite {z : Context} {version : Version} {T : Tree}
    (h : T.version? = some version) : (z.rewrite version T).version? = some version := by
  induction z generalizing T with
  | nil => exact h
  | cons f above ih => exact ih rfl

/-! ## One version -/

theorem stamped_chain (s : Site) (levels : List (Nibble × Nat)) {c : Changes} (node : Node)
    (h : c.Stamped s.version) : (s.chain levels c node).1.Stamped s.version := by
  induction levels with
  | nil => exact h
  | cons level levels ih => exact ih.write rfl _

theorem stamped_split {s : Site} {c c' : Changes} {stored given : Leaf} {depth : Nat} {x : Node}
    (h : c.Stamped s.version) (hr : s.split c stored given depth = .ok (c', x)) :
    c'.Stamped s.version := by
  unfold split at hr
  simp only at hr
  split at hr
  · have hc := congrArg Prod.fst (Except.ok.inj hr)
    rw [← show _ = c' from hc]
    exact stamped_chain s _ _ (((h.write rfl _).write rfl _).write rfl _)
  · cases hr

theorem stamped_plant {s : Site} {leaf : Leaf} {d : Descent} {c : Changes} {x : Node}
    (hr : s.plant leaf d = .ok (c, x)) : c.Stamped s.version := by
  unfold plant at hr
  simp only at hr
  split at hr
  · cases hr
    exact Changes.stamped_empty.write rfl _
  · split at hr
    · cases hr
      exact (Changes.stamped_empty.retire _).write rfl _
    · exact stamped_split (Changes.stamped_empty.retire _) hr
  · cases hr

theorem stamped_rise (s : Site) (steps : List Step) {c : Changes} (node : Node)
    (h : c.Stamped s.version) : (s.rise steps c node).1.Stamped s.version := by
  induction steps generalizing c node with
  | nil => exact h
  | cons step above ih => exact ih _ ((h.retire _).write rfl _)

theorem stamped_insert {s : Site} {leaf : Leaf} {d : Descent} {c : Changes}
    (hr : s.insert leaf d = .ok c) : c.Stamped s.version := by
  unfold insert at hr
  cases hp : s.plant leaf d with
  | error e =>
    rw [hp] at hr
    cases hr
  | ok r =>
    rw [hp] at hr
    cases hr
    exact stamped_rise s _ _ (stamped_plant hp)

end Site

/-! ## The whole insertion -/

namespace Site

variable {s : Site} {leaf : Leaf}

theorem insert_spec {d : Descent} {T S : Tree} {z : Context} {rest : Path}
    (hs : s.path.toPath = leaf.key) (hd : d.Walked s.tree T leaf.key z S rest)
    (hT : T.Compact []) :
    match s.insert leaf d with
    | .ok c => ∃ T', c.Patches s.tree [] T T' ∧ Plants leaf s.version [] T T'
    | .error e =>
      (∃ defect, e = .invalidKey defect) ∧ ∃ l, T.Has l ∧ Path.Nested l.key leaf.key := by
  have hS : S.Compact z.path := by
    rw [← hd.plug] at hT
    exact Context.compact_of_plug hT
  have hplant := plant_spec hs hd.path (by simp [hd.steps]) hd.lands hS
  have hhas : ∀ l, T.Has l ↔ S.Has l ∨ z.Beside l := by
    intro l
    rw [← hd.plug, Context.has_plug]
  unfold insert
  cases hr : s.plant leaf d with
  | error e =>
    rw [hr] at hplant
    obtain ⟨he, l, hl, hn⟩ := hplant
    exact ⟨he, l, (hhas l).mpr (.inl hl), hn⟩
  | ok r =>
    rw [hr] at hplant
    obtain ⟨S', hc, hx, hp⟩ := hplant
    have hpatch := rise_patches rest (hs.trans hd.path) hc hx hp.version?
    rw [← hd.steps, hd.plug] at hpatch
    refine ⟨z.rewrite s.version S', hpatch, version?_rewrite hp.version?, ?_, ?_, ?_, ?_⟩
    · refine Context.compact_rewrite s.version (hd.plug ▸ hT) hp.compact ?_ hp.branch
      rintro rfl
      cases hp.version?
    · intro hb
      cases z with
      | nil =>
        have hST : S = T := hd.plug
        exact hp.branch (hST ▸ hb)
      | cons f above => exact Context.isBranch_rewrite _ _ _ _
    · intro l
      rw [Context.has_rewrite, hp.has, hhas]
      constructor
      · rintro ((rfl | ⟨hl, hne⟩) | hl)
        · exact .inl rfl
        · exact .inr ⟨.inl hl, hne⟩
        · exact .inr ⟨.inr hl, (hd.parts hT hl).ne⟩
      · rintro (rfl | ⟨hl | hl, hne⟩)
        · exact .inl (.inl rfl)
        · exact .inl (.inr ⟨hl, hne⟩)
        · exact .inr hl
    · intro l hl
      obtain hl | hl := (hhas l).mp hl
      · exact hp.apart l hl
      · exact (hd.parts hT hl).not_nested

end Site

end VersionedTrie
