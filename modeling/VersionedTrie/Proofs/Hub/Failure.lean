import VersionedTrie.Proofs.Hub.Lockstep
import VersionedTrie.Proofs.Matching

/-! # Turns that fail

A turn of a handle that fails leaves no trace (`Hub.no_trace`). It may have met committed nodes that
the handle now remembers, but those are the nodes that it would find anyway. So the hub after the
failure and the hub before it stay level: both have the same store, and the handle answers the same,
until it is committed and beyond. Nothing is asked of the trees in the store, nor of what caches
hold, as long as the handle keeps to one cache.
-/

set_option autoImplicit false

namespace VersionedTrie

namespace Trie

variable {t u : Trie} {a b : Access} {find : NodeKey → Except Error Node}

/-- The handles are the same but for the committed nodes that they remember, and would find the same
ones. -/
structure Kin (find : NodeKey → Except Error Node) (t u : Trie) : Prop where
  alike : t.Alike u
  recalled : recalled find u.seen = recalled find t.seen

theorem Alike.dirty (h : t.Alike u) : u.dirty = t.dirty := by
  obtain ⟨_, rfl⟩ := h
  rfl

theorem Alike.root (h : t.Alike u) : u.root = t.root := by
  obtain ⟨_, rfl⟩ := h
  rfl

namespace Kin

theorem drop (h : Kin find t u) (k : NodeKey) : Kin find (t.drop k) (u.drop k) := by
  refine ⟨h.alike.drop k, ?_⟩
  unfold Trie.drop
  rw [h.alike.dirty]
  split
  · exact h.recalled
  · exact recalled_erase h.recalled k

theorem add (h : Kin find t u) (k : NodeKey) (x : Node) : Kin find (t.add k x) (u.add k x) :=
  ⟨h.alike.add k x, h.recalled⟩

theorem apply (h : Kin find t u) (c : Changes) : Kin find (t.apply c) (u.apply c) :=
  apply_induction₂ h (fun _ _ k _ h => h.drop k) fun _ _ k x _ h => h.add k x

section Twins

variable (h : Kin find t u) (hab : a.Twin find b)
include h

theorem matches_fetch (k : NodeKey) : Matches (Access.Twin find) (t.fetch k) (u.fetch k) :=
  Trie.matches_fetch h.alike.dirty h.recalled k

theorem matches_rootDigest : Matches (Access.Twin find) t.rootDigest u.rootDigest :=
  Trie.matches_rootDigest h.alike.committed h.alike.root h.matches_fetch

theorem matches_answer (question : Question) :
    Matches (Access.Twin find) (t.answer question) (u.answer question) :=
  Trie.matches_answer h.alike.committed h.alike.root h.matches_fetch question

include hab

theorem update (version : Version) (key value : ByteArray) :
    (u.update version key value b).1.1 = (t.update version key value a).1.1 ∧
      Kin find (t.update version key value a).1.2 (u.update version key value b).1.2 := by
  obtain ⟨e, ht, hu⟩ | ⟨hc, hc', hr, o, d, d', hp, hp', hd⟩ :=
    matches_update (matches_recall h.alike.dirty) h.alike.committed h.alike.tree h.alike.root
      version key value (a := a) (b := b) ⟨hab, h.recalled⟩
  · rw [ht, hu]
    exact ⟨rfl, h⟩
  · rw [update_planned hc hr hp, update_planned hc' hr hp']
    have hkin : Kin find { t with seen := d.seen } { u with seen := d'.seen } :=
      ⟨h.alike.remember d.seen d'.seen, hd.recalled⟩
    cases o with
    | error e => exact ⟨rfl, hkin⟩
    | ok found =>
      cases found with
      | none => exact ⟨rfl, hkin⟩
      | some r =>
        have happly := hkin.apply r.1
        exact ⟨rfl, happly.alike.reroot (by rw [h.alike.tree]), happly.recalled⟩

/-- Both commits fail, with one error, or both write the same. -/
theorem commit :
    (∃ e a' b', t.commit a = (.error e, a') ∧ u.commit b = (.error e, b')) ∨
      ∃ root a' b', t.commit a = (.ok (t.journal root, t.ended), t.committedTo a' root) ∧
        u.commit b = (.ok (t.journal root, t.ended), u.committedTo b' root) ∧ a'.Twin find b' := by
  have hroot := h.matches_rootDigest a b hab
  rw [run_commit, run_commit]
  cases ht : t.rootDigest a with
  | mk o a' =>
    cases hu : u.rootDigest b with
    | mk o' b' =>
      rw [ht, hu] at hroot
      obtain ⟨rfl, hab'⟩ : o' = o ∧ a'.Twin find b' := hroot
      cases o' with
      | error e => exact .inl ⟨e, a', b', rfl, rfl⟩
      | ok root =>
        simp only [hab'.writes, h.alike.journal, h.alike.ended]
        cases (FaultPlan.tick a'.store.plan.writes).1 with
        | true => exact .inl ⟨_, _, _, rfl, rfl⟩
        | false => exact .inr ⟨root, a', b', rfl, rfl, hab'⟩

end Twins

end Kin

end Trie

/-! ## What a failed action leaves -/

/-- The second draft is the first one after some reading: what it has come to remember is what would
have been found. -/
structure Draft.Learns (d d' : Draft) : Prop where
  reads : d.access.Reads d'.access
  recalled : recalled d.access.find d'.seen = recalled d.access.find d.seen

instance : IsPreorder Draft Draft.Learns where
  refl d := ⟨refl_of Access.Reads d.access, rfl⟩
  trans d d' d'' h h' := by
    refine ⟨trans_of Access.Reads h.reads h'.reads, ?_⟩
    have hfind : d'.access.find = d.access.find := funext h.reads.agrees.find
    have h'' := h'.recalled
    rw [hfind] at h''
    rw [h'', h.recalled]

/-- What has come to be remembered was remembered before, or has been found. -/
theorem Draft.Learns.seen {d d' : Draft} (h : d.Learns d') {k : NodeKey} {x : Node}
    (hk : d'.seen[k]? = some x) : d.seen[k]? = some x ∨ d.access.find k = .ok x := by
  have hsame := congrFun h.recalled k
  simp only [VersionedTrie.recalled, hk] at hsame
  cases hs : d.seen[k]? with
  | some y =>
    simp only [hs] at hsame
    exact .inl (congrArg some (Except.ok.inj hsame).symm)
  | none =>
    simp only [hs] at hsame
    exact .inr hsame.symm

namespace Trie

variable {t : Trie} {a : Access}

theorem learns_plan (t : Trie) (version : Version) (key value : ByteArray) (d : Draft) :
    d.Learns (t.plan version key value d).2 :=
  preserves_plan (fun k d => ⟨preserves_recall t k d, t.recall_recalled k d⟩) version key value d

theorem kin_refl (find : NodeKey → Except Error Node) (t : Trie) : Kin find t t :=
  ⟨t.alike_refl, rfl⟩

/-- An update that fails has only remembered what it has met. -/
theorem update_error {version : Version} {key value : ByteArray} {e : Error}
    (he : (t.update version key value a).1.1 = .error e) :
    ∃ seen, (t.update version key value a).1.2 = { t with seen } ∧
      Kin a.find t { t with seen } := by
  by_cases hc : t.committed = true
  · rw [update_closed hc]
    exact ⟨t.seen, rfl, kin_refl _ t⟩
  · replace hc : t.committed = false := Bool.not_eq_true _ ▸ hc
    cases hr : refusal key value with
    | some e =>
      rw [update_refused hc hr]
      exact ⟨t.seen, rfl, kin_refl _ t⟩
    | none =>
      have hlearns := t.learns_plan version key value ⟨a, t.seen⟩
      cases hp : t.plan version key value ⟨a, t.seen⟩ with
      | mk o d =>
        rw [hp] at hlearns
        rw [update_planned hc hr hp] at he ⊢
        cases o with
        | error e => exact ⟨d.seen, rfl, ⟨d.seen, rfl⟩, hlearns.recalled⟩
        | ok found => cases found <;> cases he

end Trie

namespace Hub

variable {h g h' g' : Hub} {turn : Turn} {i : Nat} {cache cache' : Option Nat} {t u : Trie}
  {m : Entries}

/-- The hubs have the same store and the same account of it. -/
structure Level (h g : Hub) : Prop where
  volume : g.volume = h.volume
  medium : g.store.medium = h.store.medium
  commits : g.commits = h.commits
  contents : g.contents = h.contents

/-- What is found through a cache, whatever is planned to fail. -/
def find (h : Hub) (cache : Option Nat) : NodeKey → Except Error Node :=
  (h.access FaultPlan.none cache).find

theorem Reads.find_eq (hr : h.Reads h') (cache : Option Nat) : h'.find cache = h.find cache := by
  funext k
  have hpeek : (h'.access FaultPlan.none cache).peek k = (h.access FaultPlan.none cache).peek k := by
    cases cache with
    | none => rfl
    | some n => exact hr.cached n k
  have hstored : (h'.access FaultPlan.none cache).stored k =
      (h.access FaultPlan.none cache).stored k := by
    simp only [Access.stored, Access.lookup, Store.lookup, access, hr.medium, hr.volume]
  rw [find, find, Access.find, Access.find, hpeek, hstored]

theorem Level.reads (hl : h.Level g) (hr : h.Reads h') (hr' : g.Reads g') : h'.Level g' where
  volume := by rw [hr'.volume, hr.volume, hl.volume]
  medium := by rw [hr'.medium, hr.medium, hl.medium]
  commits := by rw [hr'.commits, hr.commits, hl.commits]
  contents := by rw [hr'.contents, hr.contents, hl.contents]

theorem Level.twin (hl : h.Level g) (hfind : g.find cache' = h.find cache) {plan : FaultPlan}
    (hcalm : plan.reads = none) :
    (h.access plan cache).Twin (h.find cache) (g.access plan cache') where
  volume := hl.volume
  medium := hl.medium
  writes := rfl
  calm hd := hd hcalm
  calm' hd := hd hcalm
  finds := rfl
  finds' := hfind

/-- A commit of two handles that are the same but for what they remember. -/
theorem Level.commit (hl : h.Level g) {find : NodeKey → Except Error Node} {a b : Access}
    (hab : a.Twin find b) (htu : t.Alike u) (root : Digest) :
    (((h.settle cache (t.committedTo a root)).replace i t.ended m).record (t.journal root) m).Level
      (((g.settle cache' (u.committedTo b root)).replace i t.ended m).record (t.journal root) m) := by
  obtain ⟨s, rfl⟩ := htu
  obtain ⟨hvolume, hmedium⟩ := hab.written ((t.journal root).batch false)
  exact ⟨hvolume, hmedium, congrArg (· ++ [(t.journal root, m)]) hl.commits,
    congrArg ((t.journal root).batch false).apply hl.contents⟩

/-- The handle is the same on both hubs, but for the committed nodes that it remembers. -/
def Twinned (i : Nat) (h g : Hub) (t u : Trie) : Prop :=
  ∃ m, h.handles[i]? = some (t, m) ∧ g.handles[i]? = some (u, m) ∧ t.Alike u

/-- The hubs are level, and the handle is the same on both as far as it can tell through the cache
it uses: until it is committed it would find the same nodes. -/
structure Trailing (i : Nat) (cache : Option Nat) (h g : Hub) : Prop where
  level : h.Level g
  handle : ∃ t u, Twinned i h g t u ∧
    (t.committed = true ∨ g.find cache = h.find cache ∧ Trie.Kin (h.find cache) t u)

/-- Turns that only read, and leave the handle as it is, keep hubs level. -/
theorem Trailing.reads (ht : Trailing i cache h g) (hr : h.Reads h') (hr' : g.Reads g')
    (hi : ∀ r, h.handles[i]? = some r → h'.handles[i]? = some r)
    (hi' : ∀ r, g.handles[i]? = some r → g'.handles[i]? = some r) : Trailing i cache h' g' := by
  obtain ⟨t, u, ⟨m, hh, hg, halike⟩, hsame⟩ := ht.handle
  refine ⟨ht.level.reads hr hr', t, u, ⟨m, hi _ hh, hi' _ hg, halike⟩, ?_⟩
  rw [hr.find_eq, hr'.find_eq]
  exact hsame

/-- On turns of others, none of which commits or deletes, both hubs go on reading. -/
theorem reads_after (hcommit : ∀ n, turn.deed ≠ .commit n) (hprune : ∀ n, turn.deed ≠ .prune n) :
    h.Reads (h.after turn) := by
  have hmakes := h.makes_after turn
  generalize h.after turn = h' at hmakes
  cases hmakes with
  | reads hr => exact hr
  | opens _ hr => exact hr
  | updates _ _ hr => exact hr
  | commits hd => exact absurd hd (hcommit _)
  | prunes hd => exact absurd hd (hprune _)

theorem reads_ask (h : Hub) (plan : FaultPlan) (cache : Option Nat) (i : Nat) (question : Question) :
    h.Reads (h.after ⟨plan, cache, .ask i question⟩) :=
  reads_after (fun _ e => by cases e) fun _ e => by cases e

theorem reads_update (h : Hub) (plan : FaultPlan) (cache : Option Nat) (i : Nat) (version : Version)
    (key value : ByteArray) : h.Reads (h.after ⟨plan, cache, .update i version key value⟩) :=
  reads_after (fun _ e => by cases e) fun _ e => by cases e

theorem Trailing.other (ht : Trailing i cache h g) (hturn : turn.deed.handle? ≠ some i)
    (hcommit : ∀ n, turn.deed ≠ .commit n) (hprune : ∀ n, turn.deed ≠ .prune n) :
    Trailing i cache (h.after turn) (g.after turn) :=
  ht.reads (reads_after hcommit hprune) (reads_after hcommit hprune)
    (fun _ hi => handle_after hi hturn) fun _ hi => handle_after hi hturn

section Own

variable {plan : FaultPlan} (ht : Trailing i cache h g) (hcalm : plan.reads = none)
include ht hcalm

theorem Trailing.ask (question : Question) :
    g.told ⟨plan, cache, .ask i question⟩ = h.told ⟨plan, cache, .ask i question⟩ ∧
      Trailing i cache (h.after ⟨plan, cache, .ask i question⟩)
        (g.after ⟨plan, cache, .ask i question⟩) := by
  obtain ⟨t, u, ⟨m, hh, hg, halike⟩, hsame⟩ := ht.handle
  have hanswer : (u.answer question (g.access plan cache)).1 =
      (t.answer question (h.access plan cache)).1 := by
    obtain hc | ⟨hfind, hkin⟩ := hsame
    · rw [Trie.answer_closed hc, Trie.answer_closed (halike.committed.trans hc)]
    · exact (hkin.matches_answer question _ _ (ht.level.twin hfind hcalm)).1
  refine ⟨by rw [told, told, perform_ask hh, perform_ask hg, hanswer], ?_⟩
  refine ht.reads (h.reads_ask ..) (g.reads_ask ..) ?_ ?_
  · rw [after, perform_ask hh]
    exact fun _ => id
  · rw [after, perform_ask hg]
    exact fun _ => id

theorem Trailing.update (version : Version) (key value : ByteArray) :
    g.told ⟨plan, cache, .update i version key value⟩ =
        h.told ⟨plan, cache, .update i version key value⟩ ∧
      Trailing i cache (h.after ⟨plan, cache, .update i version key value⟩)
        (g.after ⟨plan, cache, .update i version key value⟩) := by
  obtain ⟨t, u, ⟨m, hh, hg, halike⟩, hsame⟩ := ht.handle
  have hr : h.Reads (h.after ⟨plan, cache, .update i version key value⟩) := h.reads_update ..
  have hr' : g.Reads (g.after ⟨plan, cache, .update i version key value⟩) := g.reads_update ..
  -- whether the handle is closed or not, both are told the same and become the same
  have hboth : (u.update version key value (g.access plan cache)).1.1 =
        (t.update version key value (h.access plan cache)).1.1 ∧
      (t.update version key value (h.access plan cache)).1.2.Alike
          (u.update version key value (g.access plan cache)).1.2 ∧
      ((t.update version key value (h.access plan cache)).1.2.committed = true ∨
        g.find cache = h.find cache ∧
          Trie.Kin (h.find cache) (t.update version key value (h.access plan cache)).1.2
            (u.update version key value (g.access plan cache)).1.2) := by
    obtain hc | ⟨hfind, hkin⟩ := hsame
    · rw [Trie.update_closed hc, Trie.update_closed (halike.committed.trans hc)]
      exact ⟨rfl, halike, .inl hc⟩
    · obtain ⟨houtcome, hnext⟩ := hkin.update (ht.level.twin hfind hcalm) version key value
      exact ⟨houtcome, hnext.alike, .inr ⟨hfind, hnext⟩⟩
  obtain ⟨houtcome, hnext, hsame⟩ := hboth
  refine ⟨by rw [told, told, perform_update hh, perform_update hg, houtcome],
    ht.level.reads hr hr', (t.update version key value (h.access plan cache)).1.2,
    (u.update version key value (g.access plan cache)).1.2,
    ⟨m.reported key value (t.update version key value (h.access plan cache)).1.1, ?_, ?_, hnext⟩, ?_⟩
  · rw [after, perform_update hh]
    exact getElem?_set_self hh
  · rw [after, perform_update hg, houtcome]
    exact getElem?_set_self hg
  · rw [hr.find_eq, hr'.find_eq]
    exact hsame

theorem Trailing.commit :
    g.told ⟨plan, cache, .commit i⟩ = h.told ⟨plan, cache, .commit i⟩ ∧
      Trailing i cache (h.after ⟨plan, cache, .commit i⟩) (g.after ⟨plan, cache, .commit i⟩) := by
  obtain ⟨t, u, ⟨m, hh, hg, halike⟩, hsame⟩ := ht.handle
  have hfails : ∀ e a b, t.commit (h.access plan cache) = (.error e, a) →
      u.commit (g.access plan cache) = (.error e, b) →
      (h.access plan cache).Agrees a → (g.access plan cache).Agrees b →
      g.told ⟨plan, cache, .commit i⟩ = h.told ⟨plan, cache, .commit i⟩ ∧
        Trailing i cache (h.after ⟨plan, cache, .commit i⟩) (g.after ⟨plan, cache, .commit i⟩) := by
    intro e a b hrun hrun' ha hb
    rw [told, told, after, after, perform_commit_error hh hrun, perform_commit_error hg hrun']
    exact ⟨rfl, ht.reads (reads_settle ha) (reads_settle hb) (fun _ => id) fun _ => id⟩
  obtain hc | ⟨hfind, hkin⟩ := hsame
  · exact hfails _ _ _ (Trie.commit_closed hc) (Trie.commit_closed (halike.committed.trans hc))
      (refl_of Access.Agrees _) (refl_of Access.Agrees _)
  · obtain ⟨e, a, b, hrun, hrun'⟩ | ⟨root, a, b, hrun, hrun', hab⟩ :=
      hkin.commit (ht.level.twin hfind hcalm)
    · exact hfails e a b hrun hrun' (Trie.agrees_commit_error hrun) (Trie.agrees_commit_error hrun')
    · rw [told, told, after, after, perform_commit_ok hh hrun, perform_commit_ok hg hrun']
      exact ⟨rfl, ht.level.commit hab halike root, t.ended, t.ended,
        ⟨m, getElem?_set_self hh, getElem?_set_self hg, t.ended.alike_refl⟩, .inl rfl⟩

end Own

theorem Trailing.own (ht : Trailing i cache h g) (hturn : turn.own i) (hcache : turn.cache = cache)
    (hcalm : turn.plan.reads = none) :
    g.told turn = h.told turn ∧ Trailing i cache (h.after turn) (g.after turn) := by
  obtain ⟨plan, _, deed⟩ := turn
  obtain rfl := hcache
  have hdeed : deed.handle? = some i := of_decide_eq_true hturn
  cases deed with
  | create => cases hdeed
  | load => cases hdeed
  | prune => cases hdeed
  | ask n question =>
    obtain rfl : n = i := Option.some.inj hdeed
    exact ht.ask hcalm question
  | update n version key value =>
    obtain rfl : n = i := Option.some.inj hdeed
    exact ht.update hcalm version key value
  | commit n =>
    obtain rfl : n = i := Option.some.inj hdeed
    exact ht.commit hcalm

/-- Level hubs stay level, and the handle is told the same on both. -/
theorem Trailing.run (ht : Trailing i cache h g) {turns : List Turn}
    (hown : ∀ turn, turn ∈ turns → turn.own i → turn.cache = cache ∧ turn.plan.reads = none)
    (hother : ∀ turn, turn ∈ turns → ¬ turn.own i →
      ∀ n, turn.deed ≠ .commit n ∧ turn.deed ≠ .prune n) :
    heard i g turns = heard i h turns ∧ Trailing i cache (h.run turns) (g.run turns) := by
  induction turns generalizing h g with
  | nil => exact ⟨rfl, ht⟩
  | cons turn turns ih =>
    have hown' := fun u hu => hown u (List.mem_cons_of_mem turn hu)
    have hother' := fun u hu => hother u (List.mem_cons_of_mem turn hu)
    rw [heard, heard]
    by_cases hturn : turn.own i
    · obtain ⟨hcache, hcalm⟩ := hown turn List.mem_cons_self hturn
      obtain ⟨htold, hafter⟩ := ht.own hturn hcache hcalm
      obtain ⟨hheard, hrun⟩ := ih hafter hown' hother'
      rw [if_pos hturn, if_pos hturn, htold, hheard]
      exact ⟨rfl, hrun⟩
    · have hdeed := hother turn List.mem_cons_self hturn
      have hafter := ht.other (fun hi => hturn (decide_eq_true hi)) (fun n => (hdeed n).1)
        fun n => (hdeed n).2
      rw [if_neg hturn, if_neg hturn]
      exact ih hafter hown' hother'

/-- A turn of a handle that fails only reads, and the handle then remembers more. -/
theorem failed {e : Error} (hturn : turn.own i) (he : h.told turn = some (.error e)) :
    h.Reads (h.after turn) ∧
      ∃ t m seen, h.handles[i]? = some (t, m) ∧
        (h.after turn).handles = h.handles.set i ({ t with seen }, m) ∧
        Trie.Kin (h.find turn.cache) t { t with seen } := by
  have hdeed : turn.deed.handle? = some i := of_decide_eq_true hturn
  cases hh : h.handles[i]? with
  | none =>
    rw [told, perform_absent hh hdeed] at he
    cases he
  | some r =>
    obtain ⟨t, m⟩ := r
    have hsame : h.handles = h.handles.set i (t, m) := by
      obtain ⟨hi, hget⟩ := List.getElem?_eq_some_iff.mp hh
      rw [← hget, List.set_getElem_self]
    obtain ⟨plan, cache, deed⟩ := turn
    cases deed with
    | create => cases hdeed
    | load => cases hdeed
    | prune => cases hdeed
    | ask n question =>
      obtain rfl : n = i := Option.some.inj hdeed
      refine ⟨h.reads_ask .., t, m, t.seen, rfl, ?_, Trie.kin_refl _ t⟩
      rw [after, perform_ask hh]
      exact hsame
    | update n version key value =>
      obtain rfl : n = i := Option.some.inj hdeed
      rw [told, perform_update hh] at he
      cases hr : (t.update version key value (h.access plan cache)).1.1 with
      | ok =>
        rw [hr] at he
        cases he
      | error e' =>
        obtain ⟨seen, hnext, hkin⟩ := Trie.update_error hr
        refine ⟨h.reads_update .., t, m, seen, rfl, ?_, hkin⟩
        rw [after, perform_update hh, hr, hnext]
        rfl
    | commit n =>
      obtain rfl : n = i := Option.some.inj hdeed
      cases hr : t.commit (h.access plan cache) with
      | mk o a =>
        cases o with
        | ok r =>
          rw [told, perform_commit_ok hh hr] at he
          cases he
        | error e' =>
          rw [after, perform_commit_error hh hr]
          exact ⟨reads_settle (Trie.agrees_commit_error hr), t, m, t.seen, rfl, hsame,
            Trie.kin_refl _ t⟩

/-- A turn of a handle that fails, for whatever reason, changes no more than what the handle
remembers of the committed nodes; the store, the journals and the caches are as before. And in every
continuation in which no other handle commits or deletes, while the handle goes through the same
cache and its reads do not fail by plan, the handle is told what it would be told without the failed
turn, and the store, the journals and the handle come out the same. -/
theorem no_trace {h : Hub} {turn : Turn} {i : Nat} {e : Error} (hturn : turn.own i)
    (he : h.told turn = some (.error e)) :
    h.Reads (h.after turn) ∧
    (∃ t m seen, h.handles[i]? = some (t, m) ∧
      (h.after turn).handles = h.handles.set i ({ t with seen }, m)) ∧
    ∀ turns : List Turn,
      (∀ u, u ∈ turns → u.own i → u.cache = turn.cache ∧ u.plan.reads = none) →
      (∀ u, u ∈ turns → ¬ u.own i → ∀ n, u.deed ≠ .commit n ∧ u.deed ≠ .prune n) →
        heard i (h.after turn) turns = heard i h turns ∧
          (h.run turns).Level ((h.after turn).run turns) ∧
          ∃ t u, Twinned i (h.run turns) ((h.after turn).run turns) t u := by
  obtain ⟨hr, t, m, seen, hh, hset, hkin⟩ := failed hturn he
  refine ⟨hr, ⟨t, m, seen, hh, hset⟩, fun turns hown hother => ?_⟩
  have htrailing : Trailing i turn.cache h (h.after turn) := by
    refine ⟨⟨hr.volume, hr.medium, hr.commits, hr.contents⟩, t, { t with seen }, ⟨m, hh, ?_,
      hkin.alike⟩, .inr ⟨hr.find_eq _, hkin⟩⟩
    rw [hset]
    exact getElem?_set_self hh
  obtain ⟨hheard, hrun⟩ := htrailing.run hown hother
  obtain ⟨t', u', htwinned, -⟩ := hrun.handle
  exact ⟨hheard, hrun.level, t', u', htwinned⟩

/-- A handle is given two keys, and is to be committed. -/
def primed : List Turn :=
  [⟨FaultPlan.none, some 0, .create TreePrefix.empty⟩,
    ⟨FaultPlan.none, some 0, .update 0 1 "a".toUTF8 "x".toUTF8⟩,
    ⟨FaultPlan.none, some 0, .update 0 1 "q".toUTF8 "y".toUTF8⟩]

/-- The batch of the commit fails. -/
def faltering : Turn := ⟨⟨none, some 0⟩, some 0, .commit 0⟩

/-- The commit is tried again. -/
def retry : List Turn := [⟨FaultPlan.none, some 0, .commit 0⟩]

theorem no_trace_retry :
    faltering.own 0 = true ∧
    ((blank.run primed).told faltering).map Except.isOk = some false ∧
    heard 0 ((blank.run primed).after faltering) retry = heard 0 (blank.run primed) retry := by
  have hfails : ((blank.run primed).told faltering).map Except.isOk = some false := by
    decide +kernel
  have herror : ∃ e, (blank.run primed).told faltering = some (.error e) := by
    generalize (blank.run primed).told faltering = r at hfails
    rcases r with _ | _ | _
    · cases hfails
    · exact ⟨_, rfl⟩
    · cases hfails
  obtain ⟨e, he⟩ := herror
  have hown : faltering.own 0 = true := rfl
  obtain ⟨-, -, hlater⟩ := no_trace hown he
  exact ⟨hown, hfails, (hlater retry (by simp [retry, faltering, FaultPlan.none])
    (by simp [retry, Turn.own, Deed.handle?])).1⟩

end Hub

end VersionedTrie
