import VersionedTrie.Proofs.Hub.Isolation
import VersionedTrie.Proofs.LogStore.Recovery

/-! # Crashes

On a log store every commit is one frame, nodes and anchor together, so that a file which is cut
anywhere holds the first commits whole and nothing of the later ones. Opened again it is the store as
it was after those commits (`Hub.Logs`, `Hub.exists_run_of_take`): each of them can be loaded and
reads as committed, and of a later one not even the anchor is there (`Hub.crash_atomic`).
-/

set_option autoImplicit false

namespace VersionedTrie

/-- A root of which nothing is stored cannot be loaded. -/
theorem Trie.load_missing {root : Digest} {a : Access} (hne : root ≠ Digest.placeholder)
    (ha : a.lookup root.bytes = .ok none) (hcalm : ¬ a.Doubtful) :
    (load root a).1 = .error (.anchorMissing root) := by
  have hanchor : a.anchor root = .error (.anchorMissing root) := by
    rw [Access.anchor, ha]
    rfl
  have hread := (a.readAnchor_answers root).eq hcalm
  rw [hanchor] at hread
  rw [load, if_neg hne, run_bind]
  cases hrun : readAnchor root a with
  | mk o b =>
    rw [hrun] at hread
    obtain rfl : o = .error (.anchorMissing root) := hread
    rfl

namespace Hub

open Log FrameLog

/-! ## The file of a hub -/

/-- What the commits have written, one batch each; an empty one leaves no trace. -/
def batches (h : Hub) : List WriteBatch :=
  (h.journals.map fun j => j.batch false).filter fun batch => !batch.isEmpty

/-- The hub's store is a log store at the path, which has written what the commits have. -/
structure Logs (h : Hub) (c : Codec) (path : String) : Prop where
  medium : ∃ l, h.store.medium = .log l ∧ l.path = path ∧
    l.Written c h.volume FrameLog.header h.batches
  contents : h.contents = WriteBatch.held h.batches

variable {c : Codec} {h h' : Hub} {path : String} {turns pre : List Turn} {turn : Turn}

theorem Logs.served (hl : h.Logs c path) : h.Served := by
  obtain ⟨l, hmedium, -, hw⟩ := hl.medium
  intro b
  rw [Store.lookup, hmedium, hl.contents]
  exact hw.read b

theorem Reads.batches (hr : h.Reads h') : h'.batches = h.batches := by
  rw [Hub.batches, Hub.batches, hr.journals]

theorem Reads.logs (hr : h.Reads h') (hl : h.Logs c path) : h'.Logs c path := by
  refine ⟨?_, ?_⟩
  · rw [hr.medium, hr.volume, hr.batches]
    exact hl.medium
  · rw [hr.contents, hr.batches]
    exact hl.contents

/-- The journals are one longer, and the batches with it unless the new one is empty. -/
theorem batches_concat {j : Journal} (hj : h'.journals = h.journals ++ [j]) :
    (j.batch false = [] ∧ h'.batches = h.batches) ∨
      (j.batch false).isEmpty = false ∧ h'.batches = h.batches ++ [j.batch false] := by
  rw [batches, batches, hj, List.map_append, List.filter_append]
  cases hempty : (j.batch false).isEmpty with
  | true => exact .inl ⟨List.isEmpty_iff.mp hempty, by simp [hempty]⟩
  | false => exact .inr ⟨rfl, by simp [hempty]⟩

theorem Logs.write (hl : h.Logs c path) {j : Journal} {s : Store}
    (hfits : c.Fits (j.batch false)) (hs : s.medium = h.store.medium)
    (hmedium : h'.store.medium = (s.write (j.batch false) h.volume).1.medium)
    (hvolume : h'.volume = (s.write (j.batch false) h.volume).2)
    (hj : h'.journals = h.journals ++ [j])
    (hc : h'.contents = (j.batch false).apply h.contents) : h'.Logs c path := by
  obtain ⟨l, hl', hpath, hw⟩ := hl.medium
  rw [Store.write, hs, hl'] at hmedium hvolume
  obtain ⟨hnone, hsame⟩ | ⟨hsome, hmore⟩ := batches_concat hj
  · refine ⟨⟨l, ?_, hpath, ?_⟩, ?_⟩
    · rw [hmedium, hnone]
      rfl
    · rw [hsame, hvolume, hnone]
      exact hw
    · rw [hc, hnone, hsame, hl.contents]
      rfl
  · refine ⟨⟨(l.write (j.batch false) h.volume).1, hmedium, ?_, ?_⟩, ?_⟩
    · rw [← hpath]
      simp [LogStore.write, hsome]
    · rw [hmore, hvolume]
      exact hw.write hfits hsome
    · rw [hc, hmore, hl.contents, WriteBatch.held_concat]

theorem Logs.after (hl : h.Logs c path) (hprune : ∀ n, turn.deed ≠ .prune n)
    (hfits : ∀ j, j ∈ (h.after turn).journals → c.Fits (j.batch false)) :
    (h.after turn).Logs c path := by
  have hmakes := h.makes_after turn
  generalize h.after turn = h' at hmakes hfits
  cases hmakes with
  | reads hr => exact hr.logs hl
  | opens _ hr => exact hr.logs hl
  | updates _ _ hr => exact hr.logs hl
  | @commits i t m root b _ _ _ hb =>
    have hfit := hfits (t.journal root)
      (by rw [journals_record]; exact List.mem_append_right _ List.mem_cons_self)
    have hvolume : b.volume = h.volume := hb.volume
    refine hl.write (s := b.writeOnce.store) hfit hb.medium ?_ ?_ (journals_record _ _ _) rfl <;>
      rw [← hvolume] <;> rfl
  | prunes hd => exact absurd hd (hprune _)

variable {v w : Volume} {s : LogStore}

/-- A hub on a store that has just been created. -/
theorem logs_start (hcreate : LogStore.create c path v = (.ok s, w)) (capacity : Nat → Nat) :
    (start w (Store.ofMedium (.log s)) capacity ∅).Logs c path := by
  obtain ⟨hpath, hw, -⟩ := LogStore.create_written hcreate
  exact ⟨⟨s, rfl, hpath, hw⟩, rfl⟩

theorem Logs.run (hl : h.Logs c path) (hprune : ∀ turn, turn ∈ turns → ∀ n, turn.deed ≠ .prune n)
    (hfits : ∀ j, j ∈ (h.run turns).journals → c.Fits (j.batch false)) :
    h.Throughout (Logs · c path) turns := by
  refine foldl_induction (Q := fun _ (h : Hub) => h.Logs c path) hl fun pre turn hpre hl => ?_
  refine hl.after (hprune turn (hpre.subset (by simp))) fun j hj => hfits j ?_
  refine journals_run_subset hpre ?_
  rw [run_append]
  exact hj

/-- Any first batches are those of some point of the run. -/
theorem exists_run_of_take {h : Hub} (hempty : h.journals = []) (turns : List Turn) (n : Nat) :
    ∃ pre, pre <+: turns ∧ (h.run pre).batches = (h.run turns).batches.take n := by
  refine foldl_induction (s := h) (Q := fun pre (h' : Hub) => ∀ n, ∃ p, p <+: pre ∧
    (h.run p).batches = h'.batches.take n) (fun n => ?_) ?_ turns List.prefix_rfl n
  · exact ⟨[], List.prefix_rfl, by simp [Hub.run, batches, hempty]⟩
  · intro pre turn _ ih n
    change ∃ p, p <+: pre ++ [turn] ∧
      (h.run p).batches = ((h.run pre).after turn).batches.take n
    have hstay {h' : Hub} (hb : h'.batches = (h.run pre).batches) :
        ∃ p, p <+: pre ++ [turn] ∧ (h.run p).batches = h'.batches.take n := by
      obtain ⟨p, hp, hp'⟩ := ih n
      exact ⟨p, hp.trans (List.prefix_append pre [turn]), hb ▸ hp'⟩
    obtain hc | ⟨t, root, m, hc⟩ := commits_after (h.run pre) turn
    · exact hstay (by rw [batches, batches, journals, hc]; rfl)
    · have hj : ((h.run pre).after turn).journals = (h.run pre).journals ++ [t.journal root] := by
        rw [journals, hc, List.map_append]
        rfl
      obtain ⟨-, hsame⟩ | ⟨-, hmore⟩ := batches_concat hj
      · exact hstay hsame
      · by_cases hn : n ≤ (h.run pre).batches.length
        · obtain ⟨p, hp, hp'⟩ := ih n
          refine ⟨p, hp.trans (List.prefix_append pre [turn]), ?_⟩
          rw [hp', hmore, List.take_append_of_le_length hn]
          rfl
        · have hall : ((h.run pre).after turn).batches.length ≤ n := by
            rw [hmore, List.length_append, List.length_singleton]
            omega
          refine ⟨pre ++ [turn], List.prefix_rfl, ?_⟩
          rw [run_append, List.take_of_length_le hall]
          rfl

/-! ## Where the contents come from -/

/-- Whatever is stored is the anchor of a commit or a node that one has written. -/
def Sourced (h : Hub) : Prop :=
  ∀ b v, h.contents[b]? = some v →
    (∃ j, j ∈ h.journals ∧ b = j.root.bytes) ∨
      ∃ j, j ∈ h.journals ∧ ∃ r, r ∈ j.written ∧ b = r.1.encode

theorem Sourced.reads (hs : h.Sourced) (hr : h.Reads h') : h'.Sourced := by
  rw [Sourced, hr.contents, hr.journals]
  exact hs

theorem Sourced.after (hs : h.Sourced) (hprune : ∀ n, turn.deed ≠ .prune n) :
    (h.after turn).Sourced := by
  have hmakes := h.makes_after turn
  generalize h.after turn = h' at hmakes
  cases hmakes with
  | reads hr => exact hs.reads hr
  | opens _ hr => exact hs.reads hr
  | updates _ _ hr => exact hs.reads hr
  | @commits i t m root b =>
    intro b v hb
    rw [journals_record]
    have hlast : t.journal root ∈ h.journals ++ [t.journal root] :=
      List.mem_append_right _ List.mem_cons_self
    obtain rfl | ⟨k, x, hd, rfl⟩ | hb := Trie.getElem?_of_batch hb
    · exact .inl ⟨_, hlast, rfl⟩
    · exact .inr ⟨_, hlast, (k, x.encode), Trie.mem_written.mpr ⟨x, hd, rfl⟩, rfl⟩
    · refine (hs b v hb).imp ?_ ?_ <;>
      · rintro ⟨j, hj, hrest⟩
        exact ⟨j, List.mem_append_left _ hj, hrest⟩
  | prunes hd => exact absurd hd (hprune _)

theorem Sourced.run (hs : h.Sourced)
    (hprune : ∀ turn, turn ∈ turns → ∀ n, turn.deed ≠ .prune n) : h.Throughout Sourced turns :=
  foldl_induction (Q := fun _ (h : Hub) => h.Sourced) hs fun _ turn hpre hs =>
    hs.after (hprune turn (hpre.subset (by simp)))

/-! ## After a crash -/

/-- A file that is cut behind its header is opened as that of the first batches. -/
theorem Logs.reopen (hl : h.Logs c path) {size : Nat} (hsize : headerSize ≤ size) :
    ∃ n l u k, h.volume.openFile path = .ok n ∧
      LogStore.openExisting c path
        (h.volume.setContent n ((h.volume.content n).extract 0 size)) = (.ok l, u) ∧
      l.Written c u FrameLog.header (h.batches.take k) := by
  obtain ⟨l₀, -, rfl, hw⟩ := hl.medium
  have hheader := hw.headed.size_eq
  obtain ⟨k, t, -, hcut, htorn⟩ := LogStore.exists_torn_of_cut hw.fits (size - headerSize)
  have hcontent : (h.volume.content l₀.file).extract 0 size =
      FrameLog.header ++ c.log (h.batches.take k) ++ t := by
    rw [hw.content, Bytes.extract_append_of_ge (by omega), hheader, hcut, ByteArray.append_assoc]
  obtain ⟨l, hopen, -, -, hl⟩ := LogStore.openExisting_torn hw.headed
    (fun batch hb => hw.fits batch (List.mem_of_mem_take hb))
    ((Volume.openFile_setContent ..).trans hw.opened)
    ((Volume.content_setContent ..).trans ((if_pos rfl).trans hcontent)) htorn
  exact ⟨l₀.file, l, _, k, hw.opened, hopen, hl⟩

section Reopened

variable {l : LogStore} {u : Volume} {bs : List WriteBatch} {j : Journal} {e : Entries}

/-- A store that has written what an intact hub has serves the commits of that hub. -/
theorem Intact.serves_reopened (hi : h.Intact) (hl : l.Written c u FrameLog.header bs)
    (hc : h.contents = WriteBatch.held bs) (hj : (j, e) ∈ h.commits) (key : ByteArray) :
    ((Trie.load j.root >>= fun t => t.get key) ⟨u, Store.ofMedium (.log l), none⟩).1 =
      .ok e[key]? := by
  let reopened : Hub := { h with volume := u, store := Store.ofMedium (.log l) }
  have hi' : reopened.Intact :=
    ⟨hi.clean, hi.kept, hi.cached, hi.anchored, hi.shown, hi.live⟩
  have hserved : reopened.Served := by
    intro b
    rw [show reopened.contents = WriteBatch.held bs from hc]
    exact hl.read b
  exact hi'.serves hserved hj none key

/-- A root that no commit of the hub has is not there, unless it is the stored form of some node
key. -/
theorem Sourced.missing (hs : h.Sourced) (hl : l.Written c u FrameLog.header bs)
    (hc : h.contents = WriteBatch.held bs) {root : Digest} (hne : root ≠ Digest.placeholder)
    (hroot : ∀ j, j ∈ h.journals → j.root ≠ root)
    (hnode : ∀ j, j ∈ h.journals → ∀ r, r ∈ j.written → r.1.encode ≠ root.bytes) :
    (Trie.load root ⟨u, Store.ofMedium (.log l), none⟩).1 = .error (.anchorMissing root) := by
  refine Trie.load_missing hne ?_ fun hd => hd rfl
  show l.read u root.bytes = .ok none
  rw [hl.read, ← hc]
  cases hv : h.contents[root.bytes]? with
  | none => rfl
  | some v =>
    obtain ⟨j, hj, he⟩ | ⟨j, hj, r, hr, he⟩ := hs root.bytes v hv
    · exact absurd (Digest.ext he.symm) (hroot j hj)
    · exact absurd he.symm (hnode j hj r hr)

end Reopened

/-- Wherever behind its header the file of a store is cut, it can be opened, and there is a number of
commits such that the first ones, so many, can be loaded and read as committed, while a later one is
not there unless its root is that of one of these or of the trie without entries. -/
theorem crash_atomic (hcreate : LogStore.create c path v = (.ok s, w)) (capacity : Nat → Nat)
    (turns : List Turn) (hrun : h = (start w (Store.ofMedium (.log s)) capacity ∅).run turns)
    (hprune : ∀ turn, turn ∈ turns → ∀ n, turn.deed ≠ .prune n) (hisolated : Isolated h.journals)
    (hapart : Apart h.journals) (hfree : ¬ Collides (Hashes h.journals))
    (hfits : ∀ j, j ∈ h.journals → c.Fits (j.batch false)) (size : Nat)
    (hsize : headerSize ≤ size) :
    ∃ n l u m, h.volume.openFile path = .ok n ∧
      LogStore.openExisting c path
        (h.volume.setContent n ((h.volume.content n).extract 0 size)) = (.ok l, u) ∧
      m ≤ h.commits.length ∧
      (∀ j e, (j, e) ∈ h.commits.take m → ∀ key,
        ((Trie.load j.root >>= fun t => t.get key) ⟨u, Store.ofMedium (.log l), none⟩).1 =
          .ok e[key]?) ∧
      ∀ j e, (j, e) ∈ h.commits.drop m → j.root ≠ Digest.placeholder →
        (∀ i e', (i, e') ∈ h.commits.take m → i.root ≠ j.root) →
        (Trie.load j.root ⟨u, Store.ofMedium (.log l), none⟩).1 =
          .error (.anchorMissing j.root) := by
  subst hrun
  have hlogs := (logs_start hcreate capacity).run hprune hfits
  have hclean : Clean ((start w (Store.ofMedium (.log s)) capacity ∅).run turns).journals :=
    ⟨hisolated.unambiguous (exists_handle_of_mem turns), hapart, hfree⟩
  have hintact := (intact_start w (Store.ofMedium (.log s)) capacity ∅).run
    (fun pre hpre => (hlogs pre hpre).served) hprune hclean
  have hsourced : (start w (Store.ofMedium (.log s)) capacity ∅).Throughout Sourced turns :=
    Sourced.run (fun b v hb => by simp [start] at hb) hprune
  have hstart : (start w (Store.ofMedium (.log s)) capacity ∅).journals = [] := rfl
  generalize start w (Store.ofMedium (.log s)) capacity ∅ = h₀ at *
  obtain ⟨n, l, u, k, hn, hopen, hl⟩ := hlogs.last.reopen hsize
  -- the point of the run that has written these batches
  obtain ⟨pre, hpre, hbatches⟩ := exists_run_of_take hstart turns k
  have hfirst : (h₀.run pre).commits = (h₀.run turns).commits.take (h₀.run pre).commits.length := by
    obtain ⟨post, rfl⟩ := hpre
    rw [run_append]
    exact List.prefix_iff_eq_take.mp (commits_kept (h₀.run pre) post)
  have hcontents : (h₀.run pre).contents = WriteBatch.held ((h₀.run turns).batches.take k) := by
    rw [← hbatches]
    exact (hlogs pre hpre).contents
  refine ⟨n, l, u, (h₀.run pre).commits.length, hn, hopen, ?_, ?_, ?_⟩
  · rw [hfirst]
    exact List.length_take_le' ..
  · intro j e hj key
    rw [← hfirst] at hj
    exact (hintact pre hpre).serves_reopened hl hcontents hj key
  · intro j e hj hne hother
    have hmem : j ∈ (h₀.run turns).journals := List.mem_map_of_mem (List.mem_of_mem_drop hj)
    rw [← hfirst] at hother
    refine (hsourced pre hpre).missing hl hcontents hne (fun i hi => ?_) fun i hi r hr => ?_
    · obtain ⟨⟨_, e'⟩, hi', rfl⟩ := List.mem_map.mp hi
      exact hother _ e' hi'
    · exact hapart j hmem i (journals_run_subset hpre hi) r hr

/-- A new volume with the file of a new store. -/
def created : Volume :=
  (⟨(∅ : Std.ExtTreeMap String FileNumber).insert "s" 0, ∅, [], 1⟩ : Volume)
    |>.setContent 0 ByteArray.empty |>.setContent 0 FrameLog.header

/-- An empty log store, on which no handle is open. -/
def blankLog : Hub :=
  start created (Store.ofMedium (.log ⟨.zstandard, "s", 0, headerSize, ∅⟩)) (fun _ => 8) ∅

/-- Two tries are committed one after the other. -/
def inTurn : List Turn :=
  [⟨FaultPlan.none, none, .create TreePrefix.empty⟩,
    ⟨FaultPlan.none, none, .update 0 1 "a".toUTF8 "x".toUTF8⟩,
    ⟨FaultPlan.none, none, .commit 0⟩,
    ⟨FaultPlan.none, none, .create TreePrefix.empty⟩,
    ⟨FaultPlan.none, none, .update 1 2 "a".toUTF8 "y".toUTF8⟩,
    ⟨FaultPlan.none, none, .commit 1⟩]

theorem crash_atomic_inTurn :
    (Isolated (blankLog.run inTurn).journals ∧ Apart (blankLog.run inTurn).journals ∧
      ¬ Collides (Hashes (blankLog.run inTurn).journals) ∧
      (∀ j, j ∈ (blankLog.run inTurn).journals → Codec.zstandard.Fits (j.batch false)) ∧
      (blankLog.run inTurn).commits.length = 2) ∧
    ∃ n l u m, (blankLog.run inTurn).volume.openFile "s" = .ok n ∧
      LogStore.openExisting .zstandard "s" ((blankLog.run inTurn).volume.setContent n
        (((blankLog.run inTurn).volume.content n).extract 0 200)) = (.ok l, u) ∧
      ∀ j e, (j, e) ∈ (blankLog.run inTurn).commits.take m → ∀ key,
        ((Trie.load j.root >>= fun t => t.get key) ⟨u, Store.ofMedium (.log l), none⟩).1 =
          .ok e[key]? := by
  have hcreate : LogStore.create .zstandard "s" Volume.empty =
      (.ok ⟨.zstandard, "s", 0, headerSize, ∅⟩, created) := by
    have hplace : Volume.empty.place "s" = .file "s" := by decide +kernel
    rw [LogStore.create_eq, Volume.createFile, hplace]
    rfl
  have hlog : (Isolated (blankLog.run inTurn).journals ∧ Apart (blankLog.run inTurn).journals ∧
      Distinct (blankLog.run inTurn).journals) ∧
      (∀ j, j ∈ (blankLog.run inTurn).journals → Codec.zstandard.Fits (j.batch false)) ∧
      (blankLog.run inTurn).commits.length = 2 := by
    decide +kernel
  obtain ⟨⟨hisolated, hapart, hfree⟩, hfits, hlength⟩ := hlog
  obtain ⟨n, l, u, m, hn, hopen, -, hserved, -⟩ := crash_atomic hcreate (fun _ => 8) inTurn rfl
    (by simp [inTurn]) hisolated hapart hfree.free hfits 200 (by decide)
  exact ⟨⟨hisolated, hapart, hfree.free, hfits, hlength⟩, n, l, u, m, hn, hopen, hserved⟩

end Hub

end VersionedTrie
