import VersionedTrie.Proofs.LogStore.Laid

/-! # Log stores and their files

The file of a store is a header and the frames of the batches that made it, and what the store knows
of it, its end and its index, is what replaying those frames gives (`Written`). Such a store reads as
the contents that the batches make of nothing (`Written.read`). Appending a batch, opening the file
anew and compacting it each lead from one such store to another; a compaction leaves a single batch,
which puts every entry.
-/

set_option autoImplicit false

namespace VersionedTrie

/-! ## Batches -/

/-- The operation with its value replaced. -/
def WriteOp.mapValue (f : ByteArray → ByteArray) : WriteOp → WriteOp
  | put key value => put key (f value)
  | delete key => delete key

namespace WriteBatch

theorem apply_mapValue (f : ByteArray → ByteArray) (batch : WriteBatch) (m : Contents) :
    apply (batch.map (WriteOp.mapValue f)) (m.map fun _ value => f value) =
      (apply batch m).map fun _ value => f value := by
  induction batch generalizing m with
  | nil => rfl
  | cons op batch ih =>
    have hop : (op.mapValue f).apply (m.map fun _ value => f value) =
        (op.apply m).map fun _ value => f value := by
      refine Std.ExtTreeMap.ext_getElem? fun key => ?_
      rw [WriteOp.apply_get?, Std.ExtTreeMap.getElem?_map, Std.ExtTreeMap.getElem?_map,
        WriteOp.apply_get?]
      cases op with
      | put k value =>
        by_cases hk : k = key <;> simp [WriteOp.mapValue, WriteOp.key, WriteOp.outcome, hk]
      | delete k =>
        by_cases hk : k = key <;> simp [WriteOp.mapValue, WriteOp.key, WriteOp.outcome, hk]
    rw [List.map_cons, apply_cons, hop, ih, apply_cons]

/-- The contents that batches make of nothing. -/
def held (batches : List WriteBatch) : Contents := apply batches.flatten ∅

theorem held_concat (batches : List WriteBatch) (batch : WriteBatch) :
    held (batches ++ [batch]) = apply batch (held batches) := by
  simp [held, apply_append]

theorem held_puts (m : Contents) : held [puts m] = m := by
  rw [held, List.flatten_singleton, apply_puts]

end WriteBatch

/-! ## What a codec makes of batches -/

namespace Codec

open FrameLog LogStore

variable {c : Codec}

/-- The contents as they are written. -/
def pack (c : Codec) (m : Contents) : Contents := m.map fun _ value => c.encode value

theorem pack_empty : c.pack ∅ = ∅ := Std.ExtTreeMap.ext_getElem? fun key => by simp [pack]

theorem apply_record (c : Codec) (batch : WriteBatch) (m : Contents) :
    WriteBatch.apply ((batch.map c.record).map operation) (c.pack m) = c.pack (batch.apply m) := by
  have hop : operation ∘ c.record = WriteOp.mapValue c.encode := by
    funext op
    cases op <;> rfl
  rw [List.map_map, hop]
  exact WriteBatch.apply_mapValue c.encode batch m

def records (c : Codec) (batches : List WriteBatch) : List (List Record) :=
  batches.map (·.map c.record)

/-- The frames of batches one after another. -/
def log (c : Codec) (batches : List WriteBatch) : ByteArray := frames (c.records batches)

/-- The payload of the batch fits the four bytes of its length. -/
def Fits (c : Codec) (batch : WriteBatch) : Prop := FrameLog.Fits (batch.map c.record)

instance (c : Codec) (batch : WriteBatch) : Decidable (c.Fits batch) :=
  inferInstanceAs (Decidable (FrameLog.Fits _))

theorem fits_of_mem_records {batches : List WriteBatch} (hfits : ∀ batch ∈ batches, c.Fits batch) :
    ∀ rs ∈ c.records batches, FrameLog.Fits rs := by
  intro rs hrs
  obtain ⟨batch, hb, rfl⟩ := List.mem_map.mp hrs
  exact hfits batch hb

/-- What the frames of batches that fit show is what the batches say. -/
theorem shown_records {batches : List WriteBatch} (hfits : ∀ batch ∈ batches, c.Fits batch) :
    shown (c.records batches) = c.pack (WriteBatch.held batches) := by
  have hindexed : (c.records batches).flatten.map indexed =
      (c.records batches).flatten.map operation := by
    refine List.map_congr_left fun r hr => indexed_eq_operation ?_
    obtain ⟨rs, hrs, hmem⟩ := List.mem_flatten.mp hr
    exact (fits_of_mem_records hfits rs hrs).records r hmem
  rw [shown, hindexed, records, ← List.map_flatten, ← c.pack_empty, apply_record,
    WriteBatch.held]

theorem live_records {batches : List WriteBatch} (hfits : ∀ batch ∈ batches, c.Fits batch) :
    live (c.records batches) = (WriteBatch.puts (WriteBatch.held batches)).map c.record := by
  rw [live, shown_records hfits, pack, Std.ExtTreeMap.toList_map, WriteBatch.puts, List.map_map,
    List.map_map]
  rfl

end Codec

namespace LogStore

open FrameLog

variable {c : Codec}

/-! ## What a store has written -/

/-- The file of the store is a header with the frames of the batches, and the store knows its end
and the places of its values. -/
structure Written (s : LogStore) (c : Codec) (v : Volume) (h : ByteArray)
    (batches : List WriteBatch) : Prop where
  codec : s.codec = c
  headed : IsHeader h
  fits : ∀ batch ∈ batches, c.Fits batch
  opened : v.openFile s.path = .ok s.file
  content : v.content s.file = h ++ c.log batches
  tail : s.tail = (h ++ c.log batches).size
  index : s.index = indexFrom headerSize ∅ (c.records batches)

namespace Written

variable {s : LogStore} {v : Volume} {h : ByteArray} {batches : List WriteBatch}

theorem laid (hs : s.Written c v h batches) : s.Laid c v h (c.records batches) :=
  ⟨hs.codec, hs.headed, hs.opened, hs.content, hs.tail, hs.index⟩

theorem of_laid (hs : s.Laid c v h (c.records batches)) (hfits : ∀ batch ∈ batches, c.Fits batch) :
    s.Written c v h batches :=
  ⟨hs.codec, hs.headed, hfits, hs.opened, hs.content, hs.tail, hs.index⟩

theorem indexes (hs : s.Written c v h batches) :
    Indexes (v.content s.file) s.index (c.pack (WriteBatch.held batches)) := by
  rw [← Codec.shown_records hs.fits]
  exact hs.laid.indexes

/-! ## Reading -/

theorem read (hs : s.Written c v h batches) (key : ByteArray) :
    s.read v key = .ok (WriteBatch.held batches)[key]? := by
  rw [hs.laid.read, Codec.shown_records hs.fits, Codec.pack, Std.ExtTreeMap.getElem?_map]
  cases (WriteBatch.held batches)[key]? with
  | none => rfl
  | some value => exact fetched_encode c value

theorem contains_eq (hs : s.Written c v h batches) (key : ByteArray) :
    s.contains key = (WriteBatch.held batches).contains key := by
  rw [LogStore.contains, hs.indexes.contains_eq, Codec.pack, Std.ExtTreeMap.contains_map]

theorem size_eq (hs : s.Written c v h batches) : s.size = (WriteBatch.held batches).size := by
  rw [LogStore.size, hs.indexes.size_eq, Codec.pack, Std.ExtTreeMap.size_map]

theorem isEmpty_eq (hs : s.Written c v h batches) :
    s.isEmpty = (WriteBatch.held batches).isEmpty := by
  rw [LogStore.isEmpty, Std.ExtTreeMap.isEmpty_eq_size_beq_zero,
    Std.ExtTreeMap.isEmpty_eq_size_beq_zero]
  exact congrArg (· == 0) hs.size_eq

/-! ## Writing -/

theorem write (hs : s.Written c v h batches) {batch : WriteBatch} (hb : c.Fits batch)
    (hmore : batch.isEmpty = false) :
    (s.write batch v).1.Written c (s.write batch v).2 h (batches ++ [batch]) := by
  refine of_laid ?_ fun b hmem => ?_
  · rw [Codec.records, List.map_append]
    exact hs.laid.write hmore
  · obtain hmem | hmem := List.mem_append.mp hmem
    · exact hs.fits b hmem
    · rwa [List.mem_singleton.mp hmem]

end Written

/-! ## Opening -/

theorem create_written {path : String} {v w : Volume} {s : LogStore}
    (h : create c path v = (.ok s, w)) :
    s.path = path ∧ s.Written c w header [] ∧ w.folders = v.folders := by
  obtain ⟨hpath, hs, hfolders⟩ := create_laid h
  exact ⟨hpath, .of_laid hs nofun, hfolders⟩

/-- A store file with a torn end is opened without that end. -/
theorem openExisting_torn {path : String} {v : Volume} {n : FileNumber} {h t : ByteArray}
    {batches : List WriteBatch} (hh : IsHeader h) (hfits : ∀ batch ∈ batches, c.Fits batch)
    (hopen : v.openFile path = .ok n) (hcontent : v.content n = h ++ c.log batches ++ t)
    (ht : Torn t) :
    ∃ s, openExisting c path v = (.ok s, v.setContent n (h ++ c.log batches)) ∧ s.path = path ∧
      s.file = n ∧ s.Written c (v.setContent n (h ++ c.log batches)) h batches := by
  obtain ⟨s, hrun, hpath, hfile, hs⟩ :=
    openExisting_laid hh (Codec.fits_of_mem_records hfits) hopen hcontent ht
  exact ⟨s, hrun, hpath, hfile, .of_laid hs hfits⟩

theorem Written.reopen {s : LogStore} {v : Volume} {h : ByteArray} {batches : List WriteBatch}
    (hs : s.Written c v h batches) : openExisting c s.path v = (.ok s, v) :=
  hs.laid.reopen_of_fits (Codec.fits_of_mem_records hs.fits)

/-! ## Compaction -/

/-- After a compaction the file has one batch, and its contents are the same. -/
theorem Written.compact {s : LogStore} {v : Volume} {h : ByteArray} {batches : List WriteBatch}
    {side : String} (hs : s.Written c v h batches)
    (hside : v.place (PathText.compactionFile s.path) = .file side)
    (hfits : c.Fits (WriteBatch.puts (WriteBatch.held batches))) :
    ∃ s' w, s.compact v = (.ok s', w) ∧ s'.path = s.path ∧
      s'.Written c w header [WriteBatch.puts (WriteBatch.held batches)] ∧
      w.folders = v.folders := by
  obtain ⟨s', w, hrun, hpath, hs', hfolders, -⟩ := hs.laid.compact hside
  rw [Codec.live_records hs.fits] at hs'
  refine ⟨s', w, hrun, hpath, .of_laid hs' fun batch hb => ?_, hfolders⟩
  rwa [List.mem_singleton.mp hb]

end LogStore

end VersionedTrie
