import VersionedTrie.Proofs.LogStore.Wrapping

/-! # Located values

A read looks its key up in the index, lets go of the index, and then reads the range of the file that
it found; meanwhile others may write and compact. What they append leaves every range as it was, so
that the read answers as it would have at the lookup (`Laid.readValue_of_front`). A compaction moves
the values and does not know of the pending read. It leaves the range alone only if it leaves the
frames as they were, as when the file is compact already (`live_live`); otherwise the range may lie
beyond the end of the file, or hold the value of another key: this can happen to every located value
(`located_until_compaction`).
-/

set_option autoImplicit false

namespace VersionedTrie.LogStore

open FrameLog

variable {c : Codec} {s s' : LogStore} {v w : Volume} {h h' : ByteArray}
  {fs fs' : List (List Record)}

/-! ## Ranges that stay -/

/-- Where the old frames still stand at the front of the file, a range holds what it held. -/
theorem Laid.readValue_of_front (hs : s.Laid c v h fs) (hs' : s'.Laid c w h fs') (hfs : fs <+: fs')
    {key : ByteArray} {e : Extent} (he : s.locate key = some e) :
    (s'.readValue w e).map some = s.read v key := by
  have hwithin := hs.indexes.within key e he
  have hcontent : ∃ more, w.content s'.file = v.content s.file ++ more := by
    obtain ⟨gs, rfl⟩ := hfs
    exact ⟨frames gs, by rw [hs'.content, hs.content, frames_append, ByteArray.append_assoc]⟩
  obtain ⟨more, hmore⟩ := hcontent
  have hsame : s'.readStored w e = s.readStored v e := by
    rw [LogStore.readStored, LogStore.readStored, Volume.readRange, Volume.readRange, hmore,
      Bytes.extract_append_of_le hwithin]
    by_cases hsize : e.size = 0
    · simp [hsize]
    · rw [if_neg hsize, if_neg hsize, if_pos hwithin,
        if_pos (by rw [ByteArray.size_append]; omega)]
  simp only [LogStore.read, he, readValue_eq, hsame, hs.codec, hs'.codec]

theorem prefix_appended (c : Codec) (fs : List (List Record)) (batch : WriteBatch) :
    fs <+: appended c fs batch := by
  cases hempty : batch.isEmpty with
  | true => simp [appended, hempty]
  | false => simp [appended, hempty]

/-- Writing leaves the frames where they are. -/
theorem prefix_foldl {ops : List Operation} (hcompact : .compact ∉ ops) (hopen : .reopen ∉ ops)
    (fs : List (List Record)) : fs <+: ops.foldl (Operation.frames c) fs := by
  induction ops generalizing fs with
  | nil => exact List.prefix_rfl
  | cons op ops ih =>
    have hop : fs <+: op.frames c fs := by
      cases op with
      | put key value => exact prefix_appended c fs _
      | delete key => exact prefix_appended c fs _
      | write batch => exact prefix_appended c fs batch
      | compact => exact absurd List.mem_cons_self hcompact
      | reopen => exact absurd List.mem_cons_self hopen
    exact hop.trans (ih (fun hmem => hcompact (List.mem_cons_of_mem op hmem))
      (fun hmem => hopen (List.mem_cons_of_mem op hmem)) _)

/-! ## Where values stand -/

/-- The extent lies behind the head of a first frame, and its size is a length. -/
structure Placed (e : Extent) : Prop where
  offset_le : headerSize + frameHeaderSize ≤ e.offset
  size_lt : e.size < Bytes.span 4

theorem placed_locations {rs : List Record} {index : Index} {i p : Nat} (hi : headerSize ≤ i)
    (h : ∀ (key : ByteArray) (e : Extent), index[key]? = some e → Placed e) :
    ∀ (key : ByteArray) (e : Extent),
      (applyLocations index i (locations p rs))[key]? = some e → Placed e := by
  induction rs generalizing index p with
  | nil => exact h
  | cons r rs ih =>
    refine ih fun k d hd => ?_
    obtain ⟨key, _ | value⟩ := r
    · by_cases hk : key = k
      · simp [locationAt, hk] at hd
      · exact h k d (by simpa [locationAt, Std.ExtTreeMap.getElem?_erase, hk] using hd)
    · by_cases hk : key = k
      · simp only [locationAt, hk, Std.ExtTreeMap.getElem?_insert_self, Option.some.injEq] at hd
        subst hd
        exact ⟨by dsimp only; omega, Nat.mod_lt _ (by decide)⟩
      · exact h k d (by simpa [locationAt, Std.ExtTreeMap.getElem?_insert, hk] using hd)

theorem placed_indexFrom {index : Index} {i : Nat} (hi : headerSize ≤ i)
    (h : ∀ (key : ByteArray) (e : Extent), index[key]? = some e → Placed e) :
    ∀ (key : ByteArray) (e : Extent), (indexFrom i index fs)[key]? = some e → Placed e := by
  induction fs generalizing index i with
  | nil => exact h
  | cons rs fs ih =>
    refine ih (by omega) ?_
    rw [frame_eq]
    exact placed_locations hi h

theorem Laid.placed (hs : s.Laid c v h fs) {key : ByteArray} {e : Extent}
    (he : s.locate key = some e) : Placed e := by
  rw [locate, hs.index] at he
  exact placed_indexFrom (Nat.le_refl headerSize) (by simp) key e he

/-! ## Ranges that do not stay -/

/-- A batch that deletes every entry. -/
def clearing (s : LogStore) : WriteBatch := s.index.keys.map .delete

theorem apply_clearing (hs : s.Laid c v h fs) : WriteBatch.apply s.clearing (shown fs) = ∅ := by
  refine Std.ExtTreeMap.ext_getElem? fun key => ?_
  rw [Std.ExtTreeMap.getElem?_empty]
  refine WriteBatch.getElem?_apply_eq (fun op hop _ => ?_) _ ?_
  · obtain ⟨k, -, rfl⟩ := List.mem_map.mp hop
    rfl
  · cases hkey : (shown fs)[key]? with
    | none => exact .inl rfl
    | some b =>
      refine .inr ⟨.delete key, List.mem_map.mpr ⟨key, ?_, rfl⟩, rfl⟩
      rw [Std.ExtTreeMap.mem_keys, ← Std.ExtTreeMap.contains_iff_mem, hs.indexes.contains_eq,
        Std.ExtTreeMap.contains_eq_isSome_getElem?, hkey]
      rfl

/-- After a batch that first deletes every entry, its other operations alone are shown. -/
theorem shown_appended_clearing (hs : s.Laid c v h fs) (batch : WriteBatch) :
    shown (appended c fs (s.clearing ++ batch)) = shown [batch.map c.record] := by
  cases hempty : (s.clearing ++ batch).isEmpty with
  | true =>
    obtain ⟨hnone, rfl⟩ := List.append_eq_nil_iff.mp (List.isEmpty_iff.mp hempty)
    have hcleared := apply_clearing hs
    rw [hnone, WriteBatch.apply_nil] at hcleared
    rw [hnone, List.nil_append, appended, List.isEmpty_nil, if_pos rfl, hcleared]
    rfl
  | false =>
    have hdeletes : (s.clearing.map c.record).map indexed = s.clearing := by
      rw [clearing, List.map_map, List.map_map]
      rfl
    rw [appended, hempty, if_neg Bool.false_ne_true, shown_append, List.flatten_singleton,
      List.map_append, List.map_append, hdeletes, WriteBatch.apply_append, apply_clearing hs, shown,
      List.flatten_singleton]

/-- The steps that leave of a store nothing but what a batch puts. -/
def replacing (s : LogStore) (batch : WriteBatch) : List Operation :=
  [.write (s.clearing ++ batch), .compact]

/-- The path of the side file leads to a file, so that the store can be compacted. -/
def Compactable (s : LogStore) (v : Volume) : Prop :=
  ∃ side, v.place (PathText.compactionFile s.path) = .file side

theorem Laid.replaced (hs : s.Laid c v FrameLog.header fs) (hside : s.Compactable v)
    (batch : WriteBatch) :
    ∃ s' w, (s.replacing batch).foldlM Operation.perform s v = (.ok s', w) ∧
      s'.Laid c w FrameLog.header [live [batch.map c.record]] := by
  have hopen : .reopen ∉ s.replacing batch := by simp [replacing]
  obtain ⟨s', w, hrun, -, -, hs'⟩ :=
    carried_laid.all hs (reopening_of_not_mem hopen fs) fun _ => hside
  refine ⟨s', w, hrun, ?_⟩
  have hlive : live (appended c fs (s.clearing ++ batch)) = live [batch.map c.record] := by
    rw [live, shown_appended_clearing hs, live]
  rw [← hlive]
  exact hs'

/-- When everything is gone, every range lies beyond the end of the file. -/
theorem Laid.readValue_endOfFile (hs : s.Laid c v FrameLog.header [live [[]]]) {e : Extent}
    (he : Placed e) (hsize : e.size ≠ 0) : s.readValue v e = .error (.io .endOfFile) := by
  have hnone : live [[]] = [] := by simp [live, shown]
  have hend : (v.content s.file).size = headerSize + frameHeaderSize := by
    rw [hs.content, hnone, ByteArray.size_append, isHeader_header.size_eq]
    simp [frames, frame_eq, payload]
  have hplaced := he.offset_le
  rw [readValue_eq, LogStore.readStored, Volume.readRange, if_neg hsize,
    if_neg (by rw [hend]; omega)]
  rfl

/-- Where a single value stands. -/
theorem Laid.locate_single {key stored : ByteArray} (hsize : stored.size < Bytes.span 4)
    (hs : s.Laid c v h [[(key, some stored)]]) :
    s.locate key = some ⟨headerSize + (frameHeaderSize + (9 + key.size)), stored.size⟩ := by
  rw [locate, hs.index]
  simp only [indexFrom, frame_eq, locations, locationAt, applyLocations, List.foldl_cons,
    List.foldl_nil, Std.ExtTreeMap.getElem?_insert_self, Nat.mod_eq_of_lt hsize]
  congr 3
  omega

/-- When a single value is left, a range that was made for another one may be its own. -/
theorem Laid.readValue_other {other value : ByteArray}
    (hs : s.Laid c v FrameLog.header [live [[c.record (.put other value)]]]) {e : Extent}
    (he : Placed e) (hoffset : headerSize + (frameHeaderSize + (9 + other.size)) = e.offset)
    (hsize : (c.encode value).size = e.size) : s.readValue v e = .ok value := by
  have hfits : (c.encode value).size < Bytes.span 4 := hsize ▸ he.size_lt
  have hlive : live [[c.record (.put other value)]] = [(other, some (c.encode value))] := by
    have hshown : shown [[c.record (.put other value)]] =
        (∅ : Contents).insert other (c.encode value) := by
      simp [shown, Codec.record, indexed, clipped_eq_self hfits, WriteOp.apply]
    rw [live, hshown]
    rfl
  rw [hlive] at hs
  have hlocate := hs.locate_single hfits
  rw [hoffset, hsize] at hlocate
  have hshown : (shown [[(other, some (c.encode value))]])[other]? =
      some (c.encode value) := by
    simp [shown, indexed, clipped_eq_self hfits, WriteOp.apply]
  have hread : (s.readValue v e).map some = .ok (some value) := by
    have := hs.read other
    rw [hshown, LogStore.read, hlocate] at this
    exact this.trans (fetched_encode c value)
  cases hvalue : s.readValue v e with
  | error err =>
    rw [hvalue] at hread
    cases hread
  | ok found =>
    rw [hvalue] at hread
    cases hread
    rfl

/-! ## A read that waits -/

/-- What becomes of a value that was located in a store, until it is read. -/
structure Pending (s : LogStore) (c : Codec) (v : Volume) (fs : List (List Record))
    (key : ByteArray) (e : Extent) : Prop where
  /-- If no compaction comes between, or those that do leave the frames where they were, the read
  answers as it would have at the lookup. -/
  stays : ∀ ops : List Operation, .reopen ∉ ops → (.compact ∈ ops → s.Compactable v) →
    ∃ s' w, ops.foldlM Operation.perform s v = (.ok s', w) ∧
      (.compact ∉ ops ∨ fs <+: ops.foldl (Operation.frames c) fs →
        (s'.readValue w e).map some = s.read v key)
  /-- A compaction may leave the range beyond the end of the file, -/
  lost : s.Compactable v → e.size ≠ 0 →
    ∃ s' w, (s.replacing []).foldlM Operation.perform s v = (.ok s', w) ∧
      s'.readValue w e = .error (.io .endOfFile)
  /-- or put there the value of any key of the right size. -/
  taken : s.Compactable v → ∀ other value : ByteArray,
    headerSize + (frameHeaderSize + (9 + other.size)) = e.offset →
    (c.encode value).size = e.size →
    ∃ s' w, (s.replacing [.put other value]).foldlM Operation.perform s v = (.ok s', w) ∧
      s'.readValue w e = .ok value

theorem Laid.pending (hs : s.Laid c v FrameLog.header fs) {key : ByteArray} {e : Extent}
    (he : s.locate key = some e) : s.Pending c v fs key e where
  stays ops hopen hside := by
    obtain ⟨s', w, hrun, -, -, hs'⟩ := carried_laid.all hs (reopening_of_not_mem hopen fs) hside
    refine ⟨s', w, hrun, fun h => hs.readValue_of_front hs' ?_ he⟩
    exact h.elim (fun hcompact => prefix_foldl hcompact hopen fs) id
  lost hside hsize := by
    obtain ⟨s', w, hrun, hs'⟩ := hs.replaced hside []
    exact ⟨s', w, hrun, hs'.readValue_endOfFile (hs.placed he) hsize⟩
  taken hside other value hoffset hsize := by
    obtain ⟨s', w, hrun, hs'⟩ := hs.replaced hside [.put other value]
    exact ⟨s', w, hrun, hs'.readValue_other (hs.placed he) hoffset hsize⟩

/-- However a store has come about, a value that is located in it, and read after other operations,
is read as it would have been at the lookup, if no compaction has come between that moves the frames:
it is the value last put, if no frame was lost before and the value fits. A compaction can make any
such read fail, or give the value of another key. -/
theorem located_until_compaction (c : Codec) {path name : String} {v : Volume}
    (hpath : v.place path = .file name) (ops : List Operation)
    (hside : .compact ∈ ops → ∃ side, v.place (PathText.compactionFile path) = .file side)
    (hclear : Reopening c Clear [] ops) :
    ∃ s w, session c path ops v = (.ok s, w) ∧
      ∀ (key : ByteArray) (e : Extent), s.locate key = some e →
        s.Pending c w (framesAfter c ops) key e ∧
        (Reopening c FrameLog.Fits [] ops → ∃ value, (said ops)[key]? = some value ∧
          ((c.encode value).size < Bytes.span 4 → s.read w key = .ok (some value))) := by
  obtain ⟨s, w, hrun, -, -, hs⟩ := carried_laid.session (fun _ _ hs => hs) hpath hclear hside
  refine ⟨s, w, hrun, fun key e he => ⟨hs.pending he, fun hwhole => ?_⟩⟩
  have hshown : shown (ops.foldl (Operation.frames c) []) = retained c (said ops) :=
    shown_framesAfter hwhole
  have hfound := hs.indexes.shows key
  rw [show s.index[key]? = some e from he, hshown, retained, Std.ExtTreeMap.getElem?_map,
    Option.map_some, eq_comm, Option.map_eq_some_iff] at hfound
  obtain ⟨value, hvalue, -⟩ := hfound
  refine ⟨value, hvalue, fun hsize => ?_⟩
  rw [hs.read, hshown, fetched_retained fun value' hvalue' => ?_, hvalue]
  rwa [Option.some.inj (hvalue'.symm.trans hvalue)]

/-- The value of a key is located; the key is deleted and another one put, and the file compacted; and
the value of the other key is read. -/
theorem located_until_compaction_stale :
    (Volume.empty.place "s" = .file "s" ∧
      Volume.empty.place (PathText.compactionFile "s") = .file "s.compact" ∧
      Reopening .zstandard Clear [] [.put "a".toUTF8 "x".toUTF8]) ∧
    ∃ s w e, session .zstandard "s" [.put "a".toUTF8 "x".toUTF8] Volume.empty = (.ok s, w) ∧
      s.locate "a".toUTF8 = some e ∧ s.read w "a".toUTF8 = .ok (some "x".toUTF8) ∧
      ∃ s' w', (s.replacing [.put "b".toUTF8 "y".toUTF8]).foldlM Operation.perform s w =
          (.ok s', w') ∧
        s'.readValue w' e = .ok "y".toUTF8 := by
  have hpath : Volume.empty.place "s" = .file "s" := by decide +kernel
  have hside : Volume.empty.place (PathText.compactionFile "s") = .file "s.compact" := by
    decide +kernel
  have hopen : .reopen ∉ [Operation.put "a".toUTF8 "x".toUTF8] := by simp
  have hsize : (Codec.zstandard.encode "x".toUTF8).size < Bytes.span 4 := by decide +kernel
  obtain ⟨s, w, hrun, hsame, hfolders, hs⟩ :=
    carried_laid.session (c := .zstandard) (fun _ _ hs => hs) hpath
      (reopening_of_not_mem hopen []) fun _ => ⟨_, hside⟩
  have he := hs.locate_single hsize
  obtain ⟨s', w', hrun', hpending⟩ :=
    located_until_compaction .zstandard hpath _ (fun _ => ⟨_, hside⟩) (reopening_of_not_mem hopen [])
  rw [hrun] at hrun'
  cases hrun'
  obtain ⟨hstale, hvalue⟩ := hpending _ _ he
  obtain ⟨value, hsaid, hread⟩ := hvalue (reopening_of_not_mem hopen [])
  obtain rfl : "x".toUTF8 = value := by
    have := (WriteOp.apply_get? (.put "a".toUTF8 "x".toUTF8) ∅ "a".toUTF8).trans (if_pos rfl)
    exact Option.some.inj (this.symm.trans hsaid)
  have hcompactable : s.Compactable w := by
    refine ⟨"s.compact", ?_⟩
    rw [hsame, Volume.place_eq_of_folders w Volume.empty hfolders]
    exact hside
  refine ⟨⟨hpath, hside, reopening_of_not_mem hopen []⟩, s, w, _, hrun, he, hread hsize, ?_⟩
  exact hstale.taken hcompactable "b".toUTF8 "y".toUTF8 (by decide +kernel) (by decide +kernel)

end VersionedTrie.LogStore
