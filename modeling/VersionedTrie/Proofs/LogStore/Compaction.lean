import Mathlib.Algebra.GroupWithZero.Nat
import Mathlib.Algebra.Order.BigOperators.Group.List
import Mathlib.Algebra.Order.Group.Nat
import Mathlib.Data.List.Nodup
import Mathlib.Data.List.Perm.Subperm
import VersionedTrie.Proofs.Batch
import VersionedTrie.Proofs.LogStore.Operations

/-! # What compaction leaves

The file of a compacted store depends on nothing but the entries and the codec: two stores that answer
alike have the same bytes after a compaction, whatever has been done to them before
(`compaction_canonical`). The values are copied as they were compressed.

A compacted file is not longer than one that has any frame. Every entry that a store shows was put by
a record of some frame, and entries of different keys by different records, so that the records of
the entries are no more than those of the frames (`size_live_le`).
-/

set_option autoImplicit false

namespace VersionedTrie

/-! ## Sizes -/

namespace FrameLog

def recordSize (r : Record) : Nat := (recordBytes r).size

theorem size_payload (rs : List Record) : (payload rs).size = (rs.map recordSize).sum := by
  induction rs with
  | nil => rfl
  | cons r rs ih => rw [payload, ByteArray.size_append, ih, List.map_cons, List.sum_cons, recordSize]

theorem size_frame (rs : List Record) :
    (frame rs).1.size = frameHeaderSize + (rs.map recordSize).sum := by
  rw [frame_eq, size_enclose, size_payload]

/-- Every frame has a head, so that they are longer than one frame with all their records. -/
theorem size_frame_flatten_le {fs : List (List Record)} (h : fs ≠ []) :
    frameHeaderSize + (fs.flatten.map recordSize).sum ≤ (frames fs).size := by
  induction fs with
  | nil => exact absurd rfl h
  | cons rs fs ih =>
    rw [frames, ByteArray.size_append, size_frame, List.flatten_cons, List.map_append,
      List.sum_append]
    cases fs with
    | nil => simp
    | cons r fs =>
      have := ih (List.cons_ne_nil r fs)
      omega

end FrameLog

namespace LogStore

open FrameLog

/-- What is shown of a key was put by some record. -/
theorem exists_record_of_shown {fs : List (List Record)} {key b : ByteArray}
    (h : (shown fs)[key]? = some b) :
    ∃ value, (key, some value) ∈ fs.flatten ∧ b = clipped value := by
  obtain ⟨⟨k, _ | value⟩, hmem, hput⟩ := List.mem_map.mp (WriteBatch.put_mem_of_apply h)
  · cases hput
  · cases hput
    exact ⟨value, hmem, rfl⟩

/-- A record as it would be written again. -/
def rewritten : Record → Record
  | (key, some value) => (key, some (clipped value))
  | (key, none) => (key, none)

theorem recordSize_rewritten_le (r : Record) : recordSize (rewritten r) ≤ recordSize r := by
  obtain ⟨key, _ | value⟩ := r
  · exact Nat.le_refl _
  · have := Nat.mod_le value.size (Bytes.span 4)
    simp only [rewritten, recordSize, size_recordBytes, Option.elim_some, size_clipped]
    omega

/-- The records of what is shown are no more than those in the frames. -/
theorem size_live_le (fs : List (List Record)) :
    ((live fs).map recordSize).sum ≤ (fs.flatten.map recordSize).sum := by
  have hnodup : (live fs).Nodup := by
    have hkeys := (shown fs).distinct_keys_toList
    refine List.Nodup.map ?_ (hkeys.imp fun {a b} hne e => hne ?_)
    · rintro ⟨k, b⟩ ⟨k', b'⟩ e
      cases e
      rfl
    · rw [e]
      exact Std.ReflCmp.compare_self
  have hsubset : live fs ⊆ fs.flatten.map rewritten := by
    intro r hr
    obtain ⟨⟨key, b⟩, hmem, rfl⟩ := List.mem_map.mp hr
    rw [Std.ExtTreeMap.mem_toList_iff_getElem?_eq_some] at hmem
    obtain ⟨value, hrecord, rfl⟩ := exists_record_of_shown hmem
    exact List.mem_map.mpr ⟨_, hrecord, rfl⟩
  obtain ⟨rs, hperm, hsub⟩ := List.subperm_of_subset hnodup hsubset
  calc ((live fs).map recordSize).sum
    _ = (rs.map recordSize).sum := (hperm.map recordSize).sum_eq.symm
    _ ≤ ((fs.flatten.map rewritten).map recordSize).sum :=
      (hsub.map recordSize).sum_le_sum fun _ _ => Nat.zero_le _
    _ ≤ (fs.flatten.map recordSize).sum := by
      rw [List.map_map]
      exact List.sum_le_sum fun r _ => recordSize_rewritten_le r

theorem size_frames_live_le {fs : List (List Record)} (h : fs ≠ []) :
    (frames [live fs]).size ≤ (frames fs).size := by
  have hlive : (frames [live fs]).size = frameHeaderSize + ((live fs).map recordSize).sum := by
    rw [frames, frames, ByteArray.append_empty, size_frame]
  have := size_live_le fs
  have := size_frame_flatten_le h
  omega

/-! ## Compacting a store -/

variable {c : Codec} {s s' : LogStore} {v w : Volume} {m : Contents}

/-- What compacting a store makes of it and of its file. -/
structure Compacts (s : LogStore) (v : Volume) (s' : LogStore) (w : Volume) : Prop where
  run : s.compact v = (.ok s', w)
  reads : ∀ key, s'.read w key = s.read v key
  /-- Compacting again changes no byte of the file. -/
  again : ∃ s'' u, s'.compact w = (.ok s'', u) ∧ u.load s.path = w.load s.path
  /-- A file with a frame does not grow. -/
  not_longer : ∀ before, v.load s.path = .ok before → headerSize < before.size →
    ∃ after, w.load s.path = .ok after ∧ after.size ≤ before.size

theorem Laid.load {h : ByteArray} {fs : List (List Record)} (hs : s.Laid c v h fs) :
    v.load s.path = .ok (h ++ frames fs) := by
  rw [Volume.load_of_openFile hs.opened, hs.content]

theorem Laid.compacts {fs : List (List Record)} (hs : s.Laid c v header fs) {side : String}
    (hside : v.place (PathText.compactionFile s.path) = .file side) :
    ∃ s' w, s.Compacts v s' w ∧ w.load s.path = .ok (header ++ frames [live fs]) := by
  obtain ⟨s', w, hrun, hpath, hs', hfolders, -⟩ := hs.compact hside
  have hside' : w.place (PathText.compactionFile s'.path) = .file side := by
    rw [hpath, Volume.place_eq_of_folders w v hfolders]
    exact hside
  obtain ⟨s'', u, hrun', hpath', hs'', -, -⟩ := hs'.compact hside'
  have hload := hs'.load
  rw [hpath] at hload
  have hload' := hs''.load
  rw [hpath', hpath, live_live] at hload'
  refine ⟨s', w, ⟨hrun, fun key => ?_, ⟨s'', u, hrun', hload'.trans hload.symm⟩, ?_⟩, hload⟩
  · rw [hs.read, hs'.read, shown_live]
  · intro before hbefore hframe
    obtain rfl := Except.ok.inj (hs.load.symm.trans hbefore)
    have hmore : fs ≠ [] := by
      rintro rfl
      rw [ByteArray.size_append, isHeader_header.size_eq] at hframe
      exact absurd hframe (Nat.lt_irrefl _)
    refine ⟨_, hload, ?_⟩
    rw [ByteArray.size_append, ByteArray.size_append]
    exact Nat.add_le_add_left (size_frames_live_le hmore) _

theorem Has.compacts (hs : s.Has c v m) {side : String}
    (hside : v.place (PathText.compactionFile s.path) = .file side) :
    ∃ s' w, s.Compacts v s' w ∧ w.load s.path = .ok (header ++ c.log [WriteBatch.puts m]) := by
  obtain ⟨batches, hw, rfl⟩ := hs
  obtain ⟨s', w, hcompacts, hload⟩ := hw.laid.compacts hside
  rw [Codec.live_records hw.fits] at hload
  exact ⟨s', w, hcompacts, hload⟩

/-- Whatever has been done to two stores with one codec since they were created, each can be
compacted: it then reads as before, its file has not grown unless there was no frame in it, and
compacting it again leaves the file as it is. If the two read alike, they come to have the same
file. -/
theorem compaction_canonical (c : Codec) {path path' name name' side side' : String}
    {v v' : Volume} (hpath : v.place path = .file name) (hpath' : v'.place path' = .file name')
    (hside : v.place (PathText.compactionFile path) = .file side)
    (hside' : v'.place (PathText.compactionFile path') = .file side') (ops ops' : List Operation)
    (hfits : FitsAlong c ∅ ops) (hfits' : FitsAlong c ∅ ops') :
    ∃ s w s' w' t u t' u', session c path ops v = (.ok s, w) ∧
      session c path' ops' v' = (.ok s', w') ∧ (∀ key, s.read w key = .ok (said ops)[key]?) ∧
      (∀ key, s'.read w' key = .ok (said ops')[key]?) ∧ s.Compacts w t u ∧
      s'.Compacts w' t' u' ∧
      ((∀ key, s.read w key = s'.read w' key) →
        ∃ file, u.load path = .ok file ∧ u'.load path' = .ok file) := by
  obtain ⟨s, w, hrun, rfl, hfolders, hs⟩ := has_session hpath hfits fun _ => ⟨side, hside⟩
  obtain ⟨s', w', hrun', rfl, hfolders', hs'⟩ := has_session hpath' hfits' fun _ => ⟨side', hside'⟩
  obtain ⟨t, u, hcompacts, hload⟩ :=
    hs.compacts ((Volume.place_eq_of_folders w v hfolders _).trans hside)
  obtain ⟨t', u', hcompacts', hload'⟩ :=
    hs'.compacts ((Volume.place_eq_of_folders w' v' hfolders' _).trans hside')
  refine ⟨s, w, s', w', t, u, t', u', hrun, hrun', hs.read, hs'.read, hcompacts, hcompacts',
    fun halike => ?_⟩
  have hsame : said ops = said ops' := Std.ExtTreeMap.ext_getElem? fun key => by
    have := halike key
    rw [hs.read, hs'.read] at this
    exact Except.ok.inj this
  exact ⟨_, hload, hsame ▸ hload'⟩

/-- Two entries, written at once. -/
def plainly : List Operation :=
  [.write [.put "a".toUTF8 "x".toUTF8, .put "b".toUTF8 "y".toUTF8]]

/-- The same entries, after others and after a compaction. -/
def roundabout : List Operation :=
  [.put "b".toUTF8 "y".toUTF8, .put "c".toUTF8 "z".toUTF8, .compact, .delete "c".toUTF8, .reopen,
    .put "a".toUTF8 "w".toUTF8, .put "a".toUTF8 "x".toUTF8]

theorem compaction_canonical_roundabout :
    (Volume.empty.place "s" = .file "s" ∧ Volume.empty.place "t.kv" = .file "t.kv" ∧
      Volume.empty.place (PathText.compactionFile "s") = .file "s.compact" ∧
      Volume.empty.place (PathText.compactionFile "t.kv") = .file "t.compact" ∧
      FitsAlong .zstandard ∅ plainly ∧ FitsAlong .zstandard ∅ roundabout) ∧
    ∃ s w s' w' t u t' u', session .zstandard "s" plainly Volume.empty = (.ok s, w) ∧
      session .zstandard "t.kv" roundabout Volume.empty = (.ok s', w') ∧
      (∀ key, s.read w key = s'.read w' key) ∧ s.Compacts w t u ∧ s'.Compacts w' t' u' ∧
      ∃ file, u.load "s" = .ok file ∧ u'.load "t.kv" = .ok file := by
  have hplaces : Volume.empty.place "s" = .file "s" ∧ Volume.empty.place "t.kv" = .file "t.kv" ∧
      Volume.empty.place (PathText.compactionFile "s") = .file "s.compact" ∧
      Volume.empty.place (PathText.compactionFile "t.kv") = .file "t.compact" := by
    decide +kernel
  obtain ⟨hpath, hpath', hside, hside'⟩ := hplaces
  have hfits : FitsAlong .zstandard ∅ plainly ∧ FitsAlong .zstandard ∅ roundabout := by
    decide +kernel
  have hsaid : said plainly = said roundabout :=
    Std.ExtTreeMap.toList_inj.mp (by decide +kernel)
  obtain ⟨s, w, s', w', t, u, t', u', hrun, hrun', hread, hread', hcompacts, hcompacts', hsame⟩ :=
    compaction_canonical .zstandard hpath hpath' hside hside' plainly roundabout hfits.1 hfits.2
  have halike (key : ByteArray) : s.read w key = s'.read w' key := by
    rw [hread, hread', hsaid]
  exact ⟨⟨hpath, hpath', hside, hside', hfits⟩, s, w, s', w', t, u, t', u', hrun, hrun', halike,
    hcompacts, hcompacts', hsame halike⟩

end LogStore

end VersionedTrie
