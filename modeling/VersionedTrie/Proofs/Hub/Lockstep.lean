import VersionedTrie.Proofs.Hub.Intact

/-! # One handle among others

Two hubs on which one handle is the same, but for the committed nodes that it remembers, answer it
the same: what it is told, and what becomes of it, is for its tree to say, and in an intact hub all
nodes of that tree are found. So a run can be compared with the run in which all turns of the others
are left out. On a turn of another handle only the first hub moves (`Lockstep.other`), on a turn of
the handle both do (`Lockstep.own`).
-/

set_option autoImplicit false

namespace VersionedTrie

open VersionedTrie.Tree

/-- The proof that a walk along the key gives. -/
def Descent.inclusion (w : Descent) (key : ByteArray) : Inclusion :=
  match w.leaf? with
  | some l =>
    if key.size ≠ 0 ∧ l.key = Path.ofKey key then
      ⟨some key, some l.value, w.nodes.map Node.encode⟩
    else ⟨none, none, w.nodes.map Node.encode⟩
  | none => ⟨none, none, w.nodes.map Node.encode⟩

namespace Trie

variable {t u : Trie} {a b : Access} {base T : Tree}

/-- The handles are the same but for the committed nodes that they remember. -/
def Alike (t u : Trie) : Prop := ∃ seen, u = { t with seen }

theorem alike_refl (t : Trie) : t.Alike t := ⟨t.seen, rfl⟩

namespace Alike

theorem tree (h : t.Alike u) : u.tree = t.tree := by
  obtain ⟨_, rfl⟩ := h
  rfl

theorem committed (h : t.Alike u) : u.committed = t.committed := by
  obtain ⟨_, rfl⟩ := h
  rfl

theorem journal (h : t.Alike u) (root : Digest) : u.journal root = t.journal root := by
  obtain ⟨_, rfl⟩ := h
  rfl

theorem ended (h : t.Alike u) : u.ended = t.ended := by
  obtain ⟨_, rfl⟩ := h
  rfl

theorem remember (h : t.Alike u) (s s' : NodeMap Node) :
    Alike { t with seen := s } { u with seen := s' } := by
  obtain ⟨_, rfl⟩ := h
  exact ⟨s', rfl⟩

theorem reroot (h : t.Alike u) {root root' : Option NodeKey} (hr : root' = root) :
    Alike { t with root := root } { u with root := root' } := by
  obtain ⟨s, rfl⟩ := h
  subst hr
  exact ⟨s, rfl⟩

theorem drop (h : t.Alike u) (k : NodeKey) : (t.drop k).Alike (u.drop k) := by
  obtain ⟨s, rfl⟩ := h
  unfold Trie.drop
  simp only
  split
  · exact ⟨s, rfl⟩
  · exact ⟨s.erase k, rfl⟩

theorem add (h : t.Alike u) (k : NodeKey) (x : Node) : (t.add k x).Alike (u.add k x) := by
  obtain ⟨s, rfl⟩ := h
  exact ⟨s, rfl⟩

theorem apply (h : t.Alike u) (c : Changes) : (t.apply c).Alike (u.apply c) :=
  apply_induction₂ h (fun _ _ k _ h => h.drop k) fun _ _ k x _ h => h.add k x

end Alike

/-! ## What is for the tree to say -/

theorem answer_closed (h : t.committed = true) (question : Question) (a : Access) :
    t.answer question a = (.error .staleHandle, a) := by
  have hstale : t.ensureLive a = (.error .staleHandle, a) := by
    rw [ensureLive, if_pos h]
    rfl
  cases question <;>
    simp only [answer, get, prove, rootDigest, run_bind, hstale]

/-- What a handle is asked is for its tree to say. -/
theorem exists_answer (tree : TreePrefix) (T : Tree) (question : Question) :
    ∃ r : Answer, ∀ {t : Trie} {base : Tree} {a : Access}, t.tree = tree → t.Represents base T →
      a.Backed tree base →
      Answers Access.Agrees (¬ T.Whole tree (t.find a) ∨ a.Doubtful) (t.answer question) a
        (.ok r) := by
  cases question with
  | value key =>
    obtain ⟨w, z, S, rest, -, hwalk⟩ := exists_walk tree T (Path.ofKey key)
    by_cases hk : key.size = 0
    · refine ⟨.value none, fun _ h _ => ?_⟩
      unfold answer get
      simp only [ensureLive_eq h.live, pure_bind, if_pos hk]
      exact answers_pure
    · refine ⟨.value (w.value? (Path.ofKey key)), fun htree h ha => ?_⟩
      unfold answer get
      simp only [ensureLive_eq h.live, pure_bind, if_neg hk, bind_assoc]
      refine (hwalk htree h ha).bind_ok fun _ _ => ?_
      obtain ⟨steps, landing⟩ := w
      cases landing <;> exact answers_pure
  | proof key =>
    obtain ⟨w, z, S, rest, -, hwalk⟩ := exists_walk tree T (Path.ofKey key)
    refine ⟨.proof (w.inclusion key), fun htree h ha => ?_⟩
    unfold answer prove
    simp only [ensureLive_eq h.live, pure_bind, bind_assoc]
    refine (hwalk htree h ha).bind_ok fun _ _ => ?_
    obtain ⟨steps, landing⟩ := w
    cases landing with
    | vacant => exact answers_pure
    | exhausted k b => exact answers_pure
    | leaf k l =>
      simp only [Descent.inclusion, Descent.leaf?]
      split <;> exact answers_pure
  | root =>
    refine ⟨.root T.digest, fun htree h ha => ?_⟩
    subst htree
    exact (h.rootDigest_answers ha).bind_ok fun _ _ => answers_pure

/-- The handle reads the nodes of its tree, over a committed tree, without any fault. -/
structure Reads (t : Trie) (a : Access) (base T : Tree) : Prop where
  represents : t.Represents base T
  backed : a.Backed t.tree base
  secure : ¬ (¬ T.Whole t.tree (t.find a) ∨ a.Doubtful)

theorem Reads.rootDigest_eq (h : t.Reads a base T) : (t.rootDigest a).1 = .ok T.digest :=
  (h.represents.rootDigest_answers h.backed).eq h.secure

section Both

variable (ht : t.Reads a base T) (hu : u.Reads b base T) (htu : t.Alike u)
include ht hu htu

theorem Reads.answer_alike (question : Question) :
    (u.answer question b).1 = (t.answer question a).1 := by
  obtain ⟨r, hr⟩ := exists_answer t.tree T question
  have hu' := hu.backed
  have hsecure := hu.secure
  rw [htu.tree] at hu' hsecure
  rw [(hr rfl ht.represents ht.backed).eq ht.secure,
    (hr htu.tree hu.represents hu').eq hsecure]

/-- Handles that are alike, with one tree, become handles that are alike, with one tree. -/
theorem Reads.update_alike (version : Version) (key value : ByteArray) :
    (u.update version key value b).1.1 = (t.update version key value a).1.1 ∧
      (t.update version key value a).1.2.Alike (u.update version key value b).1.2 ∧
      ∃ T', t.Becomes base T version (t.update version key value a).1.2 T' ∧
        u.Becomes base T version (u.update version key value b).1.2 T' := by
  obtain ⟨ht, ha, hta⟩ := ht
  obtain ⟨hu, hb, hub⟩ := hu
  cases hr : refusal key value with
  | some e =>
    rw [update_refused ht.live hr, update_refused hu.live hr]
    exact ⟨rfl, htu, T, ht.remember ha (refl_of (Draft.Agrees t) ⟨a, t.seen⟩) version,
      hu.remember hb (refl_of (Draft.Agrees u) ⟨b, u.seen⟩) version⟩
  | none =>
    obtain ⟨r, hplans, hanswers⟩ := plan_answers t.tree version key value ht.compact
    have hplan := hanswers t ⟨a, t.seen⟩ rfl ht.root (ht.sound ha)
    have hplan' := hanswers u ⟨b, u.seen⟩ htu.tree (htu.tree ▸ hu.root) (htu.tree ▸ hu.sound hb)
    have hr₁ := hplan.eq hta
    have hr₂ := hplan'.eq (htu.tree ▸ hub)
    have hd := hplan.1
    have hd' := hplan'.1
    cases hp : t.plan version key value ⟨a, t.seen⟩ with
    | mk o d =>
      cases hp' : u.plan version key value ⟨b, u.seen⟩ with
      | mk o' d' =>
        rw [hp] at hr₁ hd
        rw [hp'] at hr₂ hd'
        obtain rfl : o = r := hr₁
        obtain rfl : o' = o := hr₂
        rw [update_planned ht.live hr hp, update_planned hu.live hr hp']
        have halike := htu.remember d.seen d'.seen
        have hread := ht.remember ha hd version
        have hread' := hu.remember hb hd' version
        cases o' with
        | error e => exact ⟨rfl, halike, T, hread, hread'⟩
        | ok found =>
          cases found with
          | none => exact ⟨rfl, halike, T, hread, hread'⟩
          | some found =>
            obtain ⟨c, rooted⟩ := found
            obtain ⟨⟨T', hc, hrooted⟩, -⟩ := hplans
            exact ⟨rfl, (halike.apply c).reroot (by rw [htu.tree]), T',
              ht.follow ha hd hc hrooted, hu.follow hb hd' (htu.tree ▸ hc) hrooted⟩

end Both

/-- Whether a commit fails is then for the plan to say. -/
theorem Alike.commit_cases {d : Digest} (htu : t.Alike u) (ht : (t.rootDigest a).1 = .ok d)
    (hu : (u.rootDigest b).1 = .ok d) (hplan : b.store.plan.writes = a.store.plan.writes) :
    (∃ e a' b', t.commit a = (.error e, a') ∧ u.commit b = (.error e, b')) ∨
      ∃ a' b', t.commit a = (.ok (t.journal d, t.ended), a') ∧
        u.commit b = (.ok (t.journal d, t.ended), b') := by
  obtain ⟨e, a', hrun, -, hwhy⟩ | ⟨root, a', hroot, -, hf, hrun⟩ := t.commit_cases a
  · rw [ht] at hwhy
    obtain ⟨rfl, hf⟩ := hwhy.resolve_left nofun
    obtain ⟨e', b', hrun', -, hwhy'⟩ | ⟨_, _, _, -, hf', -⟩ := u.commit_cases b
    · rw [hu] at hwhy'
      obtain ⟨rfl, -⟩ := hwhy'.resolve_left nofun
      exact .inl ⟨_, a', b', hrun, hrun'⟩
    · rw [hplan, hf] at hf'
      cases hf'
  · obtain rfl : root = d := Except.ok.inj (by rw [← ht, hroot])
    obtain ⟨e', b', -, -, hwhy'⟩ | ⟨root', b', hroot', -, -, hrun'⟩ := u.commit_cases b
    · rw [hu, hplan, hf] at hwhy'
      obtain ⟨_, hf'⟩ := hwhy'.resolve_left nofun
      cases hf'
    · obtain rfl : root' = root := Except.ok.inj (by rw [← hu, hroot'])
      rw [htu.journal, htu.ended] at hrun'
      exact .inr ⟨_, _, hrun, hrun'⟩

end Trie

def Turn.own (i : Nat) (turn : Turn) : Bool := turn.deed.handle? = some i

namespace Hub

open Log

variable {h g : Hub} {turn : Turn} {i : Nat} {t u : Trie} {m : Entries}

/-- What a handle is told on its turns. -/
def heard (i : Nat) : Hub → List Turn → List (Option (Except Error Report))
  | _, [] => []
  | h, turn :: turns =>
    if turn.own i then h.told turn :: heard i (h.after turn) turns
    else heard i (h.after turn) turns

/-! ## Turns of others -/

/-- A handle stays as it is until its own turn. -/
theorem handle_after (hi : h.handles[i]? = some (t, m)) (hturn : turn.deed.handle? ≠ some i) :
    (h.after turn).handles[i]? = some (t, m) := by
  have hmakes := h.makes_after turn
  generalize h.after turn = h' at hmakes
  cases hmakes with
  | reads _ hh => rw [hh, hi]
  | opens _ _ hh =>
    rw [hh, List.getElem?_append_left, hi]
    exact (List.getElem?_eq_some_iff.mp hi).1
  | @updates _ n _ _ _ _ _ hd _ _ hh =>
    rw [hh, List.getElem?_set_ne, hi]
    rintro rfl
    rw [hd] at hturn
    exact hturn rfl
  | @commits n _ _ _ _ hd =>
    refine (List.getElem?_set_ne ?_).trans hi
    rintro rfl
    rw [hd] at hturn
    exact hturn rfl
  | prunes => exact hi

/-! ## Two hubs with one handle -/

/-- The handle is the same on both hubs, over a tree that has been written on the second. -/
def Paired (i : Nat) (h g : Hub) : Prop :=
  ∃ t u m, h.handles[i]? = some (t, m) ∧ g.handles[i]? = some (u, m) ∧ t.Alike u ∧
    (t.committed = false → ∃ base T, t.Represents base T ∧ u.Represents base T ∧
      ∀ k x, Owns t.tree [] base k x → Wrote g.journals k x)

structure Lockstep (i : Nat) (h g : Hub) : Prop where
  left : h.Intact
  right : g.Intact
  logged : g.journals ⊆ h.journals
  paired : Paired i h g

theorem Intact.lockstep (hi : h.Intact) (ht : h.handles[i]? = some (t, m)) : Lockstep i h h := by
  refine ⟨hi, hi, fun _ => id, t, t, m, ht, ht, t.alike_refl, fun hlive => ?_⟩
  obtain ⟨base, T, hc⟩ := hi.live t m (List.mem_of_getElem? ht) hlive
  exact ⟨base, T, hc.represents, hc.represents, hc.wrote⟩

/-- The first hub may take a turn of another handle alone. -/
theorem Lockstep.other (hl : Lockstep i h g) (hs : h.Served) (hturn : turn.deed.handle? ≠ some i)
    (hprune : ∀ n, turn.deed ≠ .prune n) (hclean : Clean (h.after turn).journals) :
    Lockstep i (h.after turn) g := by
  obtain ⟨t, u, m, ht, hu, halike, hlive⟩ := hl.paired
  exact ⟨hl.left.after hs hprune hclean, hl.right,
    fun _ hj => h.journals_subset [turn] (hl.logged hj),
    t, u, m, handle_after ht hturn, hu, halike, hlive⟩

/-! ## Turns of the handle -/

section Own

theorem getElem?_set_self {α : Type} {l : List α} {n : Nat} {x y : α} (h : l[n]? = some x) :
    (l.set n y)[n]? = some y :=
  List.getElem?_set_self (List.getElem?_eq_some_iff.mp h).1

/-- The turn is told the same, and adds the same journal, if any, to both hubs. -/
structure Matched (i : Nat) (h g : Hub) (turn : Turn) : Prop where
  told : g.told turn = h.told turn
  logged : (g.after turn).journals ⊆ (h.after turn).journals
  paired : Paired i (h.after turn) (g.after turn)

variable {plan : FaultPlan} {cache : Option Nat} {base T : Tree}

/-- A live handle reads the same tree on both hubs. -/
theorem Lockstep.reads (hl : Lockstep i h g) (hs : h.Served) (hs' : g.Served) (halike : t.Alike u)
    (htT : t.Represents base T) (huT : u.Represents base T)
    (hwrote : ∀ k x, Owns t.tree [] base k x → Wrote g.journals k x) (hcalm : plan.reads = none) :
    t.Reads (h.access plan cache) base T ∧ u.Reads (g.access plan cache) base T := by
  have hg := hl.left.grants hs plan cache
  have hg' := hl.right.grants hs' plan cache
  have hwroteh : ∀ k x, Owns t.tree [] base k x → Wrote h.journals k x :=
    fun k x hk => (hwrote k x hk).mono hl.logged
  have hwroteg : ∀ k x, Owns u.tree [] base k x → Wrote g.journals k x := by
    rw [halike.tree]
    exact hwrote
  exact ⟨⟨htT, hl.left.backed hg hwroteh, fun hr => hl.left.doubtful hg htT hwroteh hr hcalm⟩,
    ⟨huT, hl.right.backed hg' hwroteg, fun hr => hl.right.doubtful hg' huT hwroteg hr hcalm⟩⟩

section Deeds

variable (hl : Lockstep i h g) (hs : h.Served) (hs' : g.Served) (hcalm : plan.reads = none)
include hl hs hs' hcalm

theorem Lockstep.ask (question : Question) : Matched i h g ⟨plan, cache, .ask i question⟩ := by
  obtain ⟨t, u, m, ht, hu, halike, hlive⟩ := hl.paired
  have hsame : (u.answer question (g.access plan cache)).1 =
      (t.answer question (h.access plan cache)).1 := by
    cases hc : t.committed with
    | true => rw [Trie.answer_closed hc, Trie.answer_closed (halike.committed.trans hc)]
    | false =>
      obtain ⟨base, T, htT, huT, hwrote⟩ := hlive hc
      obtain ⟨hreads, hreads'⟩ := hl.reads hs hs' halike htT huT hwrote hcalm
      exact hreads.answer_alike hreads' halike question
  refine ⟨?_, ?_, ?_⟩
  · rw [told, told, perform_ask ht, perform_ask hu, hsame]
  · rw [after, after, perform_ask ht, perform_ask hu]
    exact hl.logged
  · rw [after, after, perform_ask ht, perform_ask hu]
    exact ⟨t, u, m, ht, hu, halike, hlive⟩

theorem Lockstep.update (version : Version) (key value : ByteArray) :
    Matched i h g ⟨plan, cache, .update i version key value⟩ := by
  obtain ⟨t, u, m, ht, hu, halike, hlive⟩ := hl.paired
  have hlogged : (g.after ⟨plan, cache, .update i version key value⟩).journals ⊆
      (h.after ⟨plan, cache, .update i version key value⟩).journals := by
    rw [after, after, perform_update ht, perform_update hu]
    exact hl.logged
  cases hc : t.committed with
  | true =>
    have hc' := halike.committed.trans hc
    refine ⟨?_, hlogged, ?_⟩
    · rw [told, told, perform_update ht, perform_update hu, Trie.update_closed hc,
        Trie.update_closed hc']
    · rw [after, after, perform_update ht, perform_update hu, Trie.update_closed hc,
        Trie.update_closed hc']
      exact ⟨t, u, m, getElem?_set_self ht, getElem?_set_self hu, halike, hlive⟩
  | false =>
    obtain ⟨base, T, htT, huT, hwrote⟩ := hlive hc
    obtain ⟨hreads, hreads'⟩ := hl.reads hs hs' halike htT huT hwrote hcalm
    obtain ⟨heq, halike', T', ht', hu'⟩ := hreads.update_alike hreads' halike version key value
    refine ⟨?_, hlogged, ?_⟩
    · rw [told, told, perform_update ht, perform_update hu, heq]
    · rw [after, after, perform_update ht, perform_update hu, heq]
      refine ⟨_, _, _, getElem?_set_self ht, getElem?_set_self hu, halike', fun _ =>
        ⟨base, T', ht'.represents, hu'.represents, ?_⟩⟩
      rw [ht'.tree]
      exact hwrote

theorem Lockstep.commit : Matched i h g ⟨plan, cache, .commit i⟩ := by
  obtain ⟨t, u, m, ht, hu, halike, hlive⟩ := hl.paired
  -- a commit that fails leaves both handles, and one that succeeds ends both
  have hfails : ∀ e a b, t.commit (h.access plan cache) = (.error e, a) →
      u.commit (g.access plan cache) = (.error e, b) →
      Matched i h g ⟨plan, cache, .commit i⟩ := by
    intro e a b hrun hrun'
    refine ⟨?_, ?_, ?_⟩
    · rw [told, told, perform_commit_error ht hrun, perform_commit_error hu hrun']
    · rw [after, after, perform_commit_error ht hrun, perform_commit_error hu hrun']
      exact hl.logged
    · rw [after, after, perform_commit_error ht hrun, perform_commit_error hu hrun']
      exact ⟨t, u, m, ht, hu, halike, hlive⟩
  cases hc : t.committed with
  | true =>
    exact hfails _ _ _ (Trie.commit_closed hc) (Trie.commit_closed (halike.committed.trans hc))
  | false =>
    obtain ⟨base, T, htT, huT, hwrote⟩ := hlive hc
    obtain ⟨hreads, hreads'⟩ := hl.reads hs hs' halike htT huT hwrote hcalm
    obtain ⟨e, a, b, hrun, hrun'⟩ | ⟨a, b, hrun, hrun'⟩ :=
      halike.commit_cases hreads.rootDigest_eq hreads'.rootDigest_eq rfl
    · exact hfails e a b hrun hrun'
    · refine ⟨?_, ?_, ?_⟩
      · rw [told, told, perform_commit_ok ht hrun, perform_commit_ok hu hrun']
      · rw [after, after, perform_commit_ok ht hrun, perform_commit_ok hu hrun', journals_record,
          journals_record]
        exact List.append_subset.mpr
          ⟨List.subset_append_of_subset_left _ hl.logged, List.subset_append_right _ _⟩
      · rw [after, after, perform_commit_ok ht hrun, perform_commit_ok hu hrun']
        have hended : t.ended.committed = true := rfl
        refine ⟨t.ended, t.ended, m, getElem?_set_self ht, getElem?_set_self hu,
          t.ended.alike_refl, fun hlive => ?_⟩
        rw [hended] at hlive
        cases hlive

end Deeds

theorem Lockstep.matched (hl : Lockstep i h g) (hs : h.Served) (hs' : g.Served)
    (hturn : turn.deed.handle? = some i) (hcalm : turn.plan.reads = none) :
    Matched i h g turn := by
  obtain ⟨plan, cache, deed⟩ := turn
  cases deed with
  | create => cases hturn
  | load => cases hturn
  | prune => cases hturn
  | ask n question =>
    obtain rfl : n = i := Option.some.inj hturn
    exact hl.ask hs hs' hcalm question
  | update n version key value =>
    obtain rfl : n = i := Option.some.inj hturn
    exact hl.update hs hs' hcalm version key value
  | commit n =>
    obtain rfl : n = i := Option.some.inj hturn
    exact hl.commit hs hs' hcalm

/-- On a turn of the handle, without a planned fault of its reads, both hubs move. -/
theorem Lockstep.own (hl : Lockstep i h g) (hs : h.Served) (hs' : g.Served)
    (hturn : turn.deed.handle? = some i) (hcalm : turn.plan.reads = none)
    (hclean : Clean (h.after turn).journals) :
    g.told turn = h.told turn ∧ Lockstep i (h.after turn) (g.after turn) := by
  obtain ⟨htold, hlogged, hpaired⟩ := hl.matched hs hs' hturn hcalm
  have hprune : ∀ n, turn.deed ≠ .prune n := by
    intro n hd
    rw [hd] at hturn
    cases hturn
  exact ⟨htold, hl.left.after hs hprune hclean,
    hl.right.after hs' hprune (hclean.of_subset hlogged), hlogged, hpaired⟩

end Own

/-! ## Runs -/

/-- A handle is told the same on its turns if the turns of all others are left out. -/
theorem Lockstep.heard_eq {turns : List Turn} (hl : Lockstep i h g)
    (hs : h.Throughout Served turns) (hs' : g.Throughout Served (turns.filter (Turn.own i)))
    (hcalm : ∀ turn, turn ∈ turns → turn.own i → turn.plan.reads = none)
    (hprune : ∀ turn, turn ∈ turns → ∀ n, turn.deed ≠ .prune n)
    (hclean : Clean (h.run turns).journals) :
    heard i h turns = heard i g (turns.filter (Turn.own i)) := by
  induction turns generalizing h g with
  | nil => rfl
  | cons turn turns ih =>
    have hafter : Clean (h.after turn).journals := hclean.of_subset (journals_subset _ turns)
    have hrest : ∀ u, u ∈ turns → u ∈ turn :: turns := fun _ => List.mem_cons_of_mem turn
    cases hturn : turn.own i with
    | true =>
      rw [List.filter_cons_of_pos hturn] at hs' ⊢
      obtain ⟨htold, hl'⟩ := hl.own hs.first hs'.first (of_decide_eq_true hturn)
        (hcalm turn List.mem_cons_self hturn) hafter
      rw [heard, heard, if_pos hturn, if_pos hturn, htold]
      exact congrArg _ (ih hl' hs.tail hs'.tail (fun u hu => hcalm u (hrest u hu))
        (fun u hu => hprune u (hrest u hu)) hclean)
    | false =>
      have hother : ¬ turn.own i = true := by rw [hturn]; exact Bool.false_ne_true
      rw [List.filter_cons_of_neg hother] at hs' ⊢
      rw [heard, if_neg hother]
      exact ih (hl.other hs.first (of_decide_eq_false hturn) (hprune turn List.mem_cons_self)
        hafter) hs.tail hs' (fun u hu => hcalm u (hrest u hu))
        (fun u hu => hprune u (hrest u hu)) hclean

end Hub

end VersionedTrie
