import VersionedTrie.Proofs.FrameLog.Lengths
import VersionedTrie.Proofs.Reading
import VersionedTrie.Store.LogStore

/-! # Log stores and their frames

The file of a store is a header and frames, and what the store knows of it, its end and its index,
is what replaying those frames would give if none of them were left out (`Laid`). This holds whatever
the sizes of the frames: the index is made of positions, and where a length is too great for its four
bytes it is only the value itself that is cut short (`Laid.indexes`). Writing and compacting lead from
one such store to another (`Laid.write`, `Laid.compact`); opening the file leads to one with the
frames that are found again (`Laid.reopen`).
-/

set_option autoImplicit false

namespace VersionedTrie

namespace WriteBatch

/-- The batch that puts every entry, in the order of the keys. -/
def puts (m : Contents) : WriteBatch := m.toList.map fun (key, value) => .put key value

theorem apply_puts (m : Contents) : apply (puts m) ∅ = m := by
  have hfold : apply (puts m) ∅ = Std.ExtTreeMap.ofList m.toList := by
    rw [Std.ExtTreeMap.ofList_eq_foldl, puts, apply, List.foldl_map]
    rfl
  refine Std.ExtTreeMap.ext_getElem? fun key => ?_
  cases hm : m[key]? with
  | some value =>
    rw [hfold]
    exact Std.ExtTreeMap.getElem?_ofList_of_mem Std.ReflCmp.compare_self m.distinct_keys_toList
      (Std.ExtTreeMap.mem_toList_iff_getElem?_eq_some.mpr hm)
  | none =>
    rw [getElem?_apply_of_ne, Std.ExtTreeMap.getElem?_empty]
    intro op hop
    obtain ⟨⟨k, value⟩, hk, rfl⟩ := List.mem_map.mp hop
    rintro (rfl : k = key)
    rw [Std.ExtTreeMap.mem_toList_iff_getElem?_eq_some.mp hk] at hm
    cases hm

end WriteBatch

/-! ## Actions on a volume -/

namespace Volume

theorem walk_eq_of_folders {v w : Volume} (h : v.folders = w.folders)
    (before pieces : List (List Char)) : v.walk before pieces = w.walk before pieces := by
  induction pieces generalizing before with
  | nil => rfl
  | cons s r ih =>
    have hfolder : v.isFolder = w.isFolder := by
      funext pieces
      simp only [isFolder, h]
    simp only [walk, hfolder, ih]

theorem place_eq_of_folders (v w : Volume) (h : v.folders = w.folders) (path : String) :
    v.place path = w.place path := by
  simp only [place, walk_eq_of_folders h]

/-- Where a file is found does not depend on what files hold. -/
theorem openFile_congr (v w : Volume) (hf : v.folders = w.folders) (hn : v.names = w.names)
    (path : String) : v.openFile path = w.openFile path := by
  rw [openFile, openFile, place_eq_of_folders v w hf, hn]

theorem openFile_setContent (v : Volume) (n : FileNumber) (b : ByteArray) (path : String) :
    (v.setContent n b).openFile path = v.openFile path :=
  openFile_congr (v.setContent n b) v rfl rfl path

theorem openFile_overwrite (v : Volume) (n : FileNumber) (i : Nat) (b : ByteArray) (path : String) :
    (v.overwrite n i b).openFile path = v.openFile path :=
  openFile_congr (v.overwrite n i b) v rfl rfl path

theorem openFile_eq_ok {v : Volume} {path : String} {n : FileNumber} :
    v.openFile path = .ok n ↔ ∃ name, v.place path = .file name ∧ v.names[name]? = some n := by
  rw [openFile]
  cases v.place path with
  | file name => cases h : v.names[name]? <;> simp [h]
  | folder => simp
  | nowhere fault => simp

theorem load_of_openFile {v : Volume} {path : String} {n : FileNumber}
    (h : v.openFile path = .ok n) : v.load path = .ok (v.content n) := by
  rw [load, h]
  rfl

/-- Creating a file gives one that the path leads to, and keeps the one that it led to before. -/
theorem createFile_eq {v : Volume} {path name : String} (h : v.place path = .file name) :
    ∃ n w, v.createFile path = .ok (n, w) ∧ w.names[name]? = some n ∧ w.folders = v.folders ∧
      ∀ k, v.openFile path = .ok k → n = k := by
  rw [createFile, openFile, h]
  cases hn : v.names[name]? with
  | some n =>
    exact ⟨n, v.setContent n ByteArray.empty, by simp only [hn], hn, rfl, fun k hk => by
      simpa [hn] using hk⟩
  | none =>
    refine ⟨v.next, { v with names := v.names.insert name v.next, next := v.next + 1 }.setContent
      v.next ByteArray.empty, by simp only [hn], ?_, rfl, by simp [hn]⟩
    simp [setContent]

theorem setContent_overwrite (v : Volume) (n : FileNumber) (i : Nat) (b c : ByteArray) :
    (v.overwrite n i b).setContent n c = v.setContent n c := by
  have hfiles : (v.files.alter n fun old => some (splice (old.getD ByteArray.empty) i b)).insert n c =
      v.files.insert n c := by
    refine Std.ExtTreeMap.ext_getElem? fun k => ?_
    by_cases hk : n = k <;>
      simp [Std.ExtTreeMap.getElem?_insert, Std.ExtTreeMap.getElem?_alter, hk]
  rw [setContent, overwrite, hfiles, setContent]

theorem setContent_content {v : Volume} {n : FileNumber} (h : 0 < (v.content n).size) :
    v.setContent n (v.content n) = v := by
  cases hn : v.files[n]? with
  | none =>
    have hnone : v.content n = ByteArray.empty := by rw [content, hn]; rfl
    rw [hnone, ByteArray.size_empty] at h
    exact absurd h (Nat.lt_irrefl 0)
  | some b =>
    have hb : v.content n = b := by rw [content, hn]; rfl
    have hfiles : v.files.insert n b = v.files := by
      refine Std.ExtTreeMap.ext_getElem? fun k => ?_
      by_cases hk : n = k
      · rw [← hk, Std.ExtTreeMap.getElem?_insert_self, hn]
      · simp [Std.ExtTreeMap.getElem?_insert, hk]
    rw [hb, setContent, hfiles]

end Volume

namespace LogStore

open FrameLog

variable {c : Codec}

theorem create_eq (c : Codec) (path : String) (v : Volume) :
    create c path v =
      match v.createFile path with
      | .error fault => (.error (.io fault), v)
      | .ok (n, v) => (.ok ⟨c, path, n, headerSize, ∅⟩, v.setContent n header) := by
  simp only [create, run_bind, run_get]
  cases v.createFile path <;> rfl

theorem openExisting_eq (c : Codec) (path : String) (v : Volume) :
    openExisting c path v =
      match v.openFile path with
      | .error fault => (.error (.io fault), v)
      | .ok n =>
        match checkHeader (v.content n) with
        | .error e => (.error e, v)
        | .ok () =>
          match replay (v.content n) with
          | .error defect => (.error (.corruption defect), v)
          | .ok (index, tail) =>
            (.ok ⟨c, path, n, tail, index⟩,
              if tail < (v.content n).size then v.setContent n ((v.content n).extract 0 tail)
              else v) := by
  simp only [openExisting, run_bind, run_get]
  cases v.openFile path with
  | error fault => rfl
  | ok n =>
    simp only [run_lift_ok]
    cases checkHeader (v.content n) with
    | error e => rfl
    | ok _ =>
      cases replay (v.content n) with
      | error defect => rfl
      | ok r =>
        dsimp only
        split <;> rfl

theorem compact_eq (s : LogStore) (v : Volume) :
    s.compact v =
      match s.liveRecords v with
      | .error e => (.error e, v)
      | .ok records =>
        match v.createFile (PathText.compactionFile s.path) with
        | .error fault => (.error (.io fault), v)
        | .ok (n, w) =>
          let w := w.setContent n (header ++ (frame records).1)
          match w.rename (PathText.compactionFile s.path) s.path with
          | .error fault => (.error (.io fault), w)
          | .ok w =>
            match w.openFile s.path with
            | .error fault => (.error (.io fault), w)
            | .ok n =>
              (.ok { s with
                  file := n
                  tail := headerSize + (frame records).1.size
                  index := applyLocations ∅ headerSize (frame records).2 }, w) := by
  simp only [compact, run_bind, run_get]
  cases s.liveRecords v with
  | error e => rfl
  | ok records =>
    simp only [compact.liftExcept, run_pure]
    cases v.createFile (PathText.compactionFile s.path) with
    | error fault => rfl
    | ok r =>
      obtain ⟨n, w⟩ := r
      simp only [run_lift_ok]
      cases (w.setContent n (header ++ (frame records).1)).rename
        (PathText.compactionFile s.path) s.path with
      | error fault => rfl
      | ok w =>
        simp only [run_bind, run_set, run_pure]
        cases w.openFile s.path <;> rfl

/-- A header that is accepted as such. -/
structure IsHeader (h : ByteArray) : Prop where
  size_eq : h.size = headerSize
  accepted : checkHeader h = .ok ()

theorem isHeader_header : IsHeader header where
  size_eq := by decide
  accepted := rfl

theorem IsHeader.checkHeader_append {h : ByteArray} (hh : IsHeader h) (rest : ByteArray) :
    checkHeader (h ++ rest) = .ok () := by
  have hsize : headerSize = 64 := rfl
  have hh64 := hh.size_eq
  have hmagic : (h ++ rest).extract 0 8 = h.extract 0 8 := Bytes.extract_append_of_le (by omega)
  have hversion : (h ++ rest).extract 8 12 = h.extract 8 12 :=
    Bytes.extract_append_of_le (by omega)
  have hlong : ¬(h ++ rest).size < headerSize := by
    rw [ByteArray.size_append]
    omega
  have := hh.accepted
  rw [checkHeader, if_neg (by omega)] at this
  rw [checkHeader, if_neg hlong, hmagic, hversion]
  exact this

theorem IsHeader.size_append_pos {h : ByteArray} (hh : IsHeader h) (rest : ByteArray) :
    0 < (h ++ rest).size := by
  rw [ByteArray.size_append, hh.size_eq, headerSize]
  omega

/-! ## What frames show -/

/-- The values that the index of frames leads to, as they stand in the file. -/
def shown (fs : List (List Record)) : Contents := WriteBatch.apply (fs.flatten.map indexed) ∅

theorem shown_append (fs gs : List (List Record)) :
    shown (fs ++ gs) = WriteBatch.apply (gs.flatten.map indexed) (shown fs) := by
  simp [shown, WriteBatch.apply_append]

/-- No value that is shown is too long for its length. -/
theorem size_lt_of_shown {fs : List (List Record)} {key b : ByteArray}
    (h : (shown fs)[key]? = some b) : b.size < Bytes.span 4 := by
  have hall (rs : List Record) (m : Contents)
      (hm : ∀ (key b : ByteArray), m[key]? = some b → b.size < Bytes.span 4) (key b : ByteArray) :
      (WriteBatch.apply (rs.map indexed) m)[key]? = some b → b.size < Bytes.span 4 := by
    induction rs generalizing m with
    | nil => exact hm key b
    | cons r rs ih =>
      refine ih _ fun k c hc => ?_
      rw [WriteOp.apply_get?] at hc
      obtain ⟨k', _ | value⟩ := r
      · by_cases hk : k' = k
        · simp [indexed, WriteOp.key, WriteOp.outcome, hk] at hc
        · exact hm k c (by simpa [indexed, WriteOp.key, hk] using hc)
      · by_cases hk : k' = k
        · obtain rfl : clipped value = c := by
            simpa [indexed, WriteOp.key, WriteOp.outcome, hk] using hc
          rw [size_clipped]
          exact Nat.mod_lt _ (by decide)
        · exact hm k c (by simpa [indexed, WriteOp.key, hk] using hc)
  exact hall fs.flatten ∅ (by simp) key b h

/-- The values that are shown, as the records of one frame in the order of the keys. -/
def live (fs : List (List Record)) : List Record :=
  (shown fs).toList.map fun (key, b) => (key, some b)

theorem shown_live (fs : List (List Record)) : shown [live fs] = shown fs := by
  have hputs : (live fs).map indexed = WriteBatch.puts (shown fs) := by
    rw [live, WriteBatch.puts, List.map_map]
    refine List.map_congr_left fun (key, b) hmem => ?_
    rw [Std.ExtTreeMap.mem_toList_iff_getElem?_eq_some] at hmem
    simp only [Function.comp_apply, indexed, clipped_eq_self (size_lt_of_shown hmem)]
  rw [shown, List.flatten_singleton, hputs, WriteBatch.apply_puts]

/-- A file that is compact stays as it is when it is compacted. -/
theorem live_live (fs : List (List Record)) : live [live fs] = live fs := by
  rw [live, shown_live, live]

/-- The value that stored bytes give. -/
def unpacked (c : Codec) (b : ByteArray) : Except Error ByteArray :=
  match c.decode? b with
  | some value => .ok value
  | none => .error (.io .notCompressed)

theorem readValue_eq (s : LogStore) (v : Volume) (e : Extent) :
    s.readValue v e = (s.readStored v e).bind (unpacked s.codec) := by
  rw [readValue]
  cases s.readStored v e with
  | error err => rfl
  | ok b =>
    simp only [Bind.bind, Except.bind, unpacked]
    cases s.codec.decode? b <;> rfl

/-- The answer to a read that finds the given bytes, if any. -/
def fetched (c : Codec) : Option ByteArray → Except Error (Option ByteArray)
  | none => .ok none
  | some b => (unpacked c b).map some

@[simp] theorem fetched_encode (c : Codec) (value : ByteArray) :
    fetched c (some (c.encode value)) = .ok (some value) := by
  simp [fetched, unpacked, c.decode?_encode, Except.map]

/-- The store and the volume after a frame of records; if there are none, there is no frame. -/
def enter (s : LogStore) (rs : List Record) (v : Volume) : LogStore × Volume :=
  if rs.isEmpty then (s, v)
  else
    let (frame, locations) := FrameLog.frame rs
    ({ s with
        tail := s.tail + frame.size
        index := FrameLog.applyLocations s.index s.tail locations },
      v.overwrite s.file s.tail frame)

theorem write_eq_enter (s : LogStore) (batch : WriteBatch) (v : Volume) :
    s.write batch v = s.enter (batch.map s.codec.record) v := by
  rw [LogStore.write, enter, List.isEmpty_map]

/-- The file of the store is a header with frames, and the store knows its end and the places of its
values. -/
structure Laid (s : LogStore) (c : Codec) (v : Volume) (h : ByteArray) (fs : List (List Record)) :
    Prop where
  codec : s.codec = c
  headed : IsHeader h
  opened : v.openFile s.path = .ok s.file
  content : v.content s.file = h ++ frames fs
  tail : s.tail = (h ++ frames fs).size
  index : s.index = indexFrom headerSize ∅ fs

namespace Laid

variable {s : LogStore} {v : Volume} {h : ByteArray} {fs : List (List Record)}

theorem indexes (hs : s.Laid c v h fs) : Indexes (v.content s.file) s.index (shown fs) := by
  have := (Indexes.empty h).frames fs
  rw [hs.headed.size_eq] at this
  rw [hs.content, hs.index]
  exact this

/-! ## Reading -/

theorem readStored (hs : s.Laid c v h fs) {key : ByteArray} {e : Extent}
    (he : s.index[key]? = some e) :
    s.readStored v e = .ok ((v.content s.file).extract e.offset (e.offset + e.size)) := by
  have hwithin := hs.indexes.within key e he
  rw [LogStore.readStored, Volume.readRange]
  by_cases hsize : e.size = 0
  · have hnone : (v.content s.file).extract e.offset (e.offset + e.size) = ByteArray.empty :=
      ByteArray.extract_eq_empty_iff.mpr (by omega)
    rw [if_pos hsize, hnone]
  · simp only [if_neg hsize, if_pos hwithin]

theorem read (hs : s.Laid c v h fs) (key : ByteArray) :
    s.read v key = fetched c (shown fs)[key]? := by
  rw [← hs.indexes.shows key, LogStore.read, locate]
  cases he : s.index[key]? with
  | none => rfl
  | some e =>
    simp only [readValue_eq, hs.readStored he, hs.codec, Option.map_some, fetched]
    rfl

/-! ## Writing -/

theorem enter (hs : s.Laid c v h fs) {rs : List Record} (hmore : rs.isEmpty = false) :
    (s.enter rs v).1.Laid c (s.enter rs v).2 h (fs ++ [rs]) := by
  rw [LogStore.enter, hmore, if_neg Bool.false_ne_true]
  have hlog : frames (fs ++ [rs]) = frames fs ++ (frame rs).1 := by
    simp [frames_append, frames]
  have hsplice : (v.overwrite s.file s.tail (frame rs).1).content s.file =
      h ++ frames (fs ++ [rs]) := by
    rw [Volume.content_overwrite_self, Volume.splice, hs.content, hs.tail, if_pos rfl, hlog,
      ByteArray.append_assoc]
  refine ⟨hs.codec, hs.headed, ?_, hsplice, ?_, ?_⟩
  · exact (Volume.openFile_overwrite v s.file s.tail _ s.path).trans hs.opened
  · simp only [hs.tail, hlog, ByteArray.size_append, Nat.add_assoc]
  · have hsize : s.tail = headerSize + (frames fs).size := by
      rw [hs.tail, ByteArray.size_append, hs.headed.size_eq]
    simp only [indexFrom_append, indexFrom, hsize, hs.index]

theorem write (hs : s.Laid c v h fs) {batch : WriteBatch} (hmore : batch.isEmpty = false) :
    (s.write batch v).1.Laid c (s.write batch v).2 h (fs ++ [batch.map c.record]) := by
  rw [write_eq_enter, hs.codec]
  exact hs.enter (by rwa [List.isEmpty_map])

/-- The file says all that the store knows. -/
theorem eq_of_file_eq {s' : LogStore} (hs : s.Laid c v h fs) (hs' : s'.Laid c v h fs)
    (hpath : s'.path = s.path) (hfile : s'.file = s.file) : s' = s := by
  obtain ⟨codec, path, file, tail, index⟩ := s
  obtain ⟨codec', path', file', tail', index'⟩ := s'
  obtain rfl : codec' = codec := hs'.codec.trans hs.codec.symm
  obtain rfl : tail' = tail := hs'.tail.trans hs.tail.symm
  obtain rfl : index' = index := hs'.index.trans hs.index.symm
  cases hpath
  cases hfile
  rfl

end Laid

/-! ## Opening -/

theorem create_ok (c : Codec) {path name : String} {v : Volume} (h : v.place path = .file name) :
    ∃ s w, create c path v = (.ok s, w) := by
  obtain ⟨n, w, hcreate, -⟩ := Volume.createFile_eq h
  exact ⟨⟨c, path, n, headerSize, ∅⟩, w.setContent n header, by rw [create_eq, hcreate]⟩

theorem create_laid {path : String} {v w : Volume} {s : LogStore}
    (h : create c path v = (.ok s, w)) :
    s.path = path ∧ s.Laid c w header [] ∧ w.folders = v.folders := by
  rw [create_eq] at h
  cases hplace : v.place path with
  | folder =>
    simp only [Volume.createFile, hplace] at h
    cases h
  | nowhere fault =>
    simp only [Volume.createFile, hplace] at h
    cases h
  | file name =>
    obtain ⟨n, u, hcreate, hnames, hfolders, -⟩ := Volume.createFile_eq hplace
    simp only [hcreate] at h
    cases h
    refine ⟨rfl, ⟨rfl, isHeader_header, ?_, ?_, ?_, rfl⟩, hfolders⟩
    · refine (Volume.openFile_setContent u n header path).trans ?_
      refine Volume.openFile_eq_ok.mpr ⟨name, ?_, hnames⟩
      rw [← hplace]
      exact Volume.place_eq_of_folders u v hfolders path
    · rw [Volume.content_setContent, if_pos rfl]
      exact ByteArray.append_empty.symm
    · rw [show frames [] = ByteArray.empty from rfl, ByteArray.append_empty]
      exact isHeader_header.size_eq.symm

/-- A store file with a torn end is opened without that end. -/
theorem openExisting_laid {path : String} {v : Volume} {n : FileNumber} {h t : ByteArray}
    {fs : List (List Record)} (hh : IsHeader h) (hfits : ∀ rs ∈ fs, FrameLog.Fits rs)
    (hopen : v.openFile path = .ok n) (hcontent : v.content n = h ++ frames fs ++ t)
    (ht : Torn t) :
    ∃ s, openExisting c path v = (.ok s, v.setContent n (h ++ frames fs)) ∧ s.path = path ∧
      s.file = n ∧ s.Laid c (v.setContent n (h ++ frames fs)) h fs := by
  have hcheck : checkHeader (v.content n) = .ok () := by
    rw [hcontent, ByteArray.append_assoc]
    exact hh.checkHeader_append _
  have hreplay : replay (v.content n) =
      .ok (indexFrom headerSize ∅ fs, (h ++ frames fs).size) := by
    rw [hcontent]
    exact replay_frames hh.size_eq hfits ht
  have hcut : (v.content n).extract 0 (h ++ frames fs).size = h ++ frames fs := by
    rw [hcontent]
    exact ByteArray.extract_append_eq_left rfl
  refine ⟨⟨c, path, n, (h ++ frames fs).size, indexFrom headerSize ∅ fs⟩, ?_, rfl, rfl, rfl, hh,
    ?_, ?_, rfl, rfl⟩
  · simp only [openExisting_eq, hopen, hcheck, hreplay, hcut]
    split
    · rfl
    · next hwhole =>
      have hsize : t.size = 0 := by
        simp only [hcontent, ByteArray.size_append] at hwhole
        omega
      rw [ByteArray.size_eq_zero_iff.mp hsize, ByteArray.append_empty] at hcontent
      rw [← hcontent, Volume.setContent_content]
      rw [hcontent]
      exact hh.size_append_pos _
  · exact (Volume.openFile_setContent v n _ path).trans hopen
  · rw [Volume.content_setContent, if_pos rfl]

/-- Opening a store file again gives a store with the frames that are found again; the others are
cut off. -/
theorem Laid.reopen {s : LogStore} {v : Volume} {h : ByteArray} {fs : List (List Record)}
    (hs : s.Laid c v h fs) (hclear : ∀ rs ∈ fs, Clear rs) :
    ∃ s', openExisting c s.path v =
        (.ok s', v.setContent s.file (h ++ frames (recovered fs))) ∧
      s'.path = s.path ∧ s'.file = s.file ∧
      s'.Laid c (v.setContent s.file (h ++ frames (recovered fs))) h (recovered fs) := by
  obtain ⟨t, hsplit, ht⟩ := exists_torn_of_recovered hclear
  refine openExisting_laid hs.headed fits_of_mem_recovered hs.opened ?_ ht
  rw [hs.content, hsplit, ByteArray.append_assoc]

/-- The file holds what the store has put there. -/
theorem Laid.setContent_eq {s : LogStore} {v : Volume} {h : ByteArray} {fs : List (List Record)}
    (hs : s.Laid c v h fs) : v.setContent s.file (h ++ frames fs) = v := by
  rw [← hs.content]
  refine Volume.setContent_content ?_
  rw [hs.content]
  exact hs.headed.size_append_pos _

theorem Laid.reopen_of_fits {s : LogStore} {v : Volume} {h : ByteArray} {fs : List (List Record)}
    (hs : s.Laid c v h fs) (hfits : ∀ rs ∈ fs, FrameLog.Fits rs) :
    openExisting c s.path v = (.ok s, v) := by
  obtain ⟨s', hopen, hpath, hfile, hs'⟩ := hs.reopen fun rs hrs => (hfits rs hrs).clear
  rw [recovered_eq_self hfits, hs.setContent_eq] at hopen hs'
  rw [hopen, hs.eq_of_file_eq hs' hpath hfile]

/-! ## Compaction -/

theorem mapM_eq_map {α β : Type} {l : List α} {f : α → Except Error β} {g : α → β}
    (h : ∀ a ∈ l, f a = .ok (g a)) : l.mapM f = .ok (l.map g) := by
  induction l with
  | nil => rfl
  | cons a l ih =>
    rw [List.mapM_cons, h a List.mem_cons_self, ih fun b hb => h b (List.mem_cons_of_mem a hb)]
    rfl

theorem Laid.liveRecords {s : LogStore} {v : Volume} {h : ByteArray} {fs : List (List Record)}
    (hs : s.Laid c v h fs) : s.liveRecords v = .ok (live fs) := by
  rw [LogStore.liveRecords, live, ← hs.indexes.map_eq, Std.ExtTreeMap.toList_map, List.map_map]
  refine mapM_eq_map fun (key, e) hmem => ?_
  rw [Std.ExtTreeMap.mem_toList_iff_getElem?_eq_some] at hmem
  simp only [hs.readStored hmem]
  rfl

/-- After a compaction the file has one frame, which shows the same; and where the path of the side
file led to a file, it is that one. -/
theorem Laid.compact {s : LogStore} {v : Volume} {h : ByteArray} {fs : List (List Record)}
    {side : String} (hs : s.Laid c v h fs)
    (hside : v.place (PathText.compactionFile s.path) = .file side) :
    ∃ s' w, s.compact v = (.ok s', w) ∧ s'.path = s.path ∧ s'.Laid c w header [live fs] ∧
      w.folders = v.folders ∧
      ∀ n, v.openFile (PathText.compactionFile s.path) = .ok n → s'.file = n := by
  obtain ⟨name, hname, -⟩ := Volume.openFile_eq_ok.mp hs.opened
  obtain ⟨n, w, hcreate, hnames, hfolders, hfound⟩ := Volume.createFile_eq hside
  let filled : Volume := w.setContent n (FrameLog.header ++ (frame (live fs)).1)
  let moved : Volume := { filled with names := (filled.names.erase side).insert name n }
  have hrename : (w.setContent n (FrameLog.header ++ (frame (live fs)).1)).rename
      (PathText.compactionFile s.path) s.path = .ok moved := by
    have hsource := (Volume.place_eq_of_folders filled v hfolders _).trans hside
    have htarget := (Volume.place_eq_of_folders filled v hfolders _).trans hname
    have hnamed : filled.names[side]? = some n := hnames
    show filled.rename (PathText.compactionFile s.path) s.path = .ok moved
    simp only [Volume.rename, hsource, htarget, hnamed]
    rfl
  have hopen : moved.openFile s.path = .ok n := by
    refine Volume.openFile_eq_ok.mpr ⟨name, ?_, by simp [moved]⟩
    rw [← hname]
    exact Volume.place_eq_of_folders moved v hfolders s.path
  have hcontent : moved.content n = FrameLog.header ++ frames [live fs] := by
    have hself : moved.content n = FrameLog.header ++ (frame (live fs)).1 :=
      (Volume.content_setContent w n n _).trans (if_pos rfl)
    simp [hself, frames]
  refine ⟨⟨s.codec, s.path, n, headerSize + (frame (live fs)).1.size,
    applyLocations ∅ headerSize (frame (live fs)).2⟩, moved, ?_, rfl,
    ⟨hs.codec, isHeader_header, hopen, hcontent, ?_, rfl⟩, hfolders, hfound⟩
  · simp only [compact_eq, hs.liveRecords, hcreate, hrename, hopen]
  · simp [frames, isHeader_header.size_eq]

/-- A compaction that is not refused leaves one frame. -/
theorem Laid.of_compact {s s' : LogStore} {v w : Volume} {h : ByteArray} {fs : List (List Record)}
    (hs : s.Laid c v h fs) (hrun : s.compact v = (.ok s', w)) :
    s'.path = s.path ∧ s'.Laid c w header [live fs] := by
  cases hplace : v.place (PathText.compactionFile s.path) with
  | file side =>
    obtain ⟨s'', w'', hrun', hpath, hs', -⟩ := hs.compact hplace
    rw [hrun'] at hrun
    cases hrun
    exact ⟨hpath, hs'⟩
  | folder =>
    rw [compact_eq, hs.liveRecords] at hrun
    simp only [Volume.createFile, hplace] at hrun
    cases hrun
  | nowhere fault =>
    rw [compact_eq, hs.liveRecords] at hrun
    simp only [Volume.createFile, hplace] at hrun
    cases hrun

end LogStore

end VersionedTrie
