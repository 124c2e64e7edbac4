import VersionedTrie.Proofs.LogStore.Operations

/-! # Lengths that wrap

Nothing bounds a batch, or what a compaction gathers in one frame, while the lengths in a frame have
four bytes. A store in use does not notice: its index is made of positions, and each of its values is
read in full as long as that value fits by itself (`shown_framesAfter`). The file does: if the payload
of a frame does not fit, its length is written wrong, and the next opening cuts off this frame and
everything behind it (`lasts_until_wrapped`). A session is followed along the frames that its
operations leave (`Operation.frames`).
-/

set_option autoImplicit false

namespace VersionedTrie.LogStore

open FrameLog

/-! ## The frames that operations leave -/

/-- The frames with that of a batch behind them; an empty batch has none. -/
def appended (c : Codec) (fs : List (List Record)) (batch : WriteBatch) : List (List Record) :=
  if batch.isEmpty then fs else fs ++ [batch.map c.record]

/-- The frames of the file after an operation, by those before it. -/
def Operation.frames (c : Codec) (fs : List (List Record)) : Operation → List (List Record)
  | put key value => appended c fs [.put key value]
  | delete key => appended c fs [.delete key]
  | write batch => appended c fs batch
  | compact => [live fs]
  | reopen => recovered fs

/-- The frames of the file of a new store after some operations. -/
def framesAfter (c : Codec) (ops : List Operation) : List (List Record) :=
  ops.foldl (Operation.frames c) []

/-- Whenever the file is opened again, all its frames are as said. -/
def Reopening (c : Codec) (P : List Record → Prop) : List (List Record) → List Operation → Prop
  | _, [] => True
  | fs, op :: ops => (op = .reopen → ∀ rs ∈ fs, P rs) ∧ Reopening c P (op.frames c fs) ops

variable {c : Codec}

theorem reopening_of_not_mem {P : List Record → Prop} {ops : List Operation}
    (h : .reopen ∉ ops) (fs : List (List Record)) : Reopening c P fs ops := by
  induction ops generalizing fs with
  | nil => trivial
  | cons op ops ih =>
    exact ⟨fun hop => absurd (hop ▸ List.mem_cons_self) h,
      ih (fun hmem => h (List.mem_cons_of_mem op hmem)) _⟩

variable {s : LogStore} {v : Volume} {fs : List (List Record)}

theorem append_laid (hs : s.Laid c v FrameLog.header fs) (batch : WriteBatch) :
    ∃ s' w, s.append batch v = (.ok s', w) ∧ s'.path = s.path ∧ w.folders = v.folders ∧
      s'.Laid c w FrameLog.header (appended c fs batch) := by
  refine ⟨(s.write batch v).1, (s.write batch v).2, rfl, ?_⟩
  cases hempty : batch.isEmpty with
  | true =>
    obtain rfl := List.isEmpty_iff.mp hempty
    exact ⟨rfl, rfl, hs⟩
  | false =>
    refine ⟨?_, ?_, ?_⟩
    · simp [LogStore.write, hempty]
    · simp [LogStore.write, hempty, Volume.overwrite]
    · rw [appended, hempty, if_neg Bool.false_ne_true]
      exact hs.write hempty

theorem carried_laid :
    Carried (fun s v fs => s.Laid c v FrameLog.header fs) (Reopening c Clear) (Operation.frames c) := by
  intro s v fs op ops hs hahead hside
  have hop : ∃ s' w, op.perform s v = (.ok s', w) ∧ s'.path = s.path ∧ w.folders = v.folders ∧
      s'.Laid c w FrameLog.header (op.frames c fs) := by
    cases op with
    | put key value => exact append_laid hs [.put key value]
    | delete key => exact append_laid hs [.delete key]
    | write batch => exact append_laid hs batch
    | compact =>
      obtain ⟨side, hplace⟩ := hside rfl
      obtain ⟨s', w, hrun, hpath, hs', hfolders, -⟩ := hs.compact hplace
      exact ⟨s', w, hrun, hpath, hfolders, hs'⟩
    | reopen =>
      obtain rfl := hs.codec
      obtain ⟨s', hrun, hpath, -, hs'⟩ := hs.reopen (hahead.1 rfl)
      exact ⟨s', _, hrun, hpath, rfl, hs'⟩
  obtain ⟨s', w, hrun, hpath, hfolders, hs'⟩ := hop
  exact ⟨s', w, hrun, hpath, hfolders, hs', hahead.2⟩

/-! ## What a store in use says -/

/-- The contents as a store in use has them: compressed, as far as four bytes count. -/
def retained (c : Codec) (m : Contents) : Contents :=
  m.map fun _ value => clipped (c.encode value)

theorem apply_retained (c : Codec) (batch : WriteBatch) (m : Contents) :
    WriteBatch.apply ((batch.map c.record).map indexed) (retained c m) =
      retained c (batch.apply m) := by
  have hop : indexed ∘ c.record = WriteOp.mapValue fun value => clipped (c.encode value) := by
    funext op
    cases op <;> rfl
  rw [List.map_map, hop]
  exact WriteBatch.apply_mapValue _ batch m

theorem shown_appended {m : Contents} (hm : shown fs = retained c m) (batch : WriteBatch) :
    shown (appended c fs batch) = retained c (batch.apply m) := by
  cases hempty : batch.isEmpty with
  | true =>
    obtain rfl := List.isEmpty_iff.mp hempty
    exact hm
  | false =>
    rw [appended, hempty, if_neg Bool.false_ne_true, shown_append, List.flatten_singleton, hm,
      apply_retained]

theorem shown_foldl {ops : List Operation} {m : Contents} (hm : shown fs = retained c m)
    (hwhole : Reopening c FrameLog.Fits fs ops) :
    shown (ops.foldl (Operation.frames c) fs) =
      retained c (ops.foldl (fun m op => op.batch.apply m) m) := by
  induction ops generalizing m fs with
  | nil => exact hm
  | cons op ops ih =>
    refine ih ?_ hwhole.2
    cases op with
    | put key value => exact shown_appended hm [.put key value]
    | delete key => exact shown_appended hm [.delete key]
    | write batch => exact shown_appended hm batch
    | compact => exact (shown_live fs).trans hm
    | reopen => exact (congrArg shown (recovered_eq_self (hwhole.1 rfl))).trans hm

/-- As long as no frame is lost, the frames show what the operations say. -/
theorem shown_framesAfter {ops : List Operation} (hwhole : Reopening c FrameLog.Fits [] ops) :
    shown (framesAfter c ops) = retained c (said ops) := by
  refine shown_foldl (Std.ExtTreeMap.ext_getElem? fun key => ?_) hwhole
  simp [shown, retained]

theorem fetched_retained {m : Contents} {key : ByteArray}
    (h : ∀ value, m[key]? = some value → (c.encode value).size < Bytes.span 4) :
    fetched c (retained c m)[key]? = .ok m[key]? := by
  rw [retained, Std.ExtTreeMap.getElem?_map]
  cases hm : m[key]? with
  | none => rfl
  | some value =>
    rw [Option.map_some, clipped_eq_self (h value hm), fetched_encode]

/-! ## Closing and opening -/

/-- What a store in use is worth once it is closed, by the frames of its file. -/
structure Lasting (s : LogStore) (c : Codec) (v : Volume) (fs : List (List Record)) : Prop where
  laid : s.Laid c v FrameLog.header fs
  reads : ∀ key, s.read v key = fetched c (shown fs)[key]?
  /-- The lengths in a frame are those of its payload, keys and values exactly if it fits. -/
  lengths : ∀ rs ∈ fs, TrueLengths rs ↔ FrameLog.Fits rs
  /-- If they are, opening the file gives the same store. -/
  whole : (∀ rs ∈ fs, TrueLengths rs) → openExisting c s.path v = (.ok s, v)
  /-- If not, it gives one with the frames before the first that does not fit. -/
  cut : (∀ rs ∈ fs, Clear rs) →
    ∃ s' w, openExisting c s.path v = (.ok s', w) ∧ s'.Laid c w FrameLog.header (recovered fs) ∧
      (∀ key, s'.read w key = fetched c (shown (recovered fs))[key]?) ∧
      (s' = s → ∀ rs ∈ fs, TrueLengths rs)
  /-- A batch that does not fit is lost, and with it nothing else; -/
  without_batch : ∀ batch : WriteBatch, (∀ rs ∈ fs, FrameLog.Fits rs) → ¬c.Fits batch →
    Clear (batch.map c.record) → openExisting c s.path (s.write batch v).2 = (.ok s, v)
  /-- after a compaction that does not fit, everything is. -/
  without_all : ∀ (s' : LogStore) (w : Volume), s.compact v = (.ok s', w) →
    ¬FrameLog.Fits (live fs) → Clear (live fs) →
    ∃ s'' w', openExisting c s.path w = (.ok s'', w') ∧ ∀ key, s''.read w' key = .ok none

theorem Laid.cut (hs : s.Laid c v FrameLog.header fs) (hclear : ∀ rs ∈ fs, Clear rs) :
    ∃ s' w, openExisting c s.path v = (.ok s', w) ∧ s'.Laid c w FrameLog.header (recovered fs) ∧
      (∀ key, s'.read w key = fetched c (shown (recovered fs))[key]?) ∧
      (s' = s → ∀ rs ∈ fs, TrueLengths rs) := by
  obtain ⟨s', hrun, -, -, hs'⟩ := hs.reopen hclear
  refine ⟨s', _, hrun, hs', hs'.read, ?_⟩
  rintro rfl rs hrs
  have htail := hs'.tail.symm.trans hs.tail
  simp only [ByteArray.size_append] at htail
  exact (trueLengths_iff rs).mpr (fits_of_size_recovered (by omega) rs hrs)

theorem Laid.without_batch (hs : s.Laid c v FrameLog.header fs) {batch : WriteBatch}
    (hfits : ∀ rs ∈ fs, FrameLog.Fits rs) (hlong : ¬c.Fits batch)
    (hclear : Clear (batch.map c.record)) :
    openExisting c s.path (s.write batch v).2 = (.ok s, v) := by
  have hempty : batch.isEmpty = false := by
    cases batch with
    | nil => exact absurd (by decide : FrameLog.Fits []) hlong
    | cons op batch => rfl
  have hw := hs.write hempty
  obtain ⟨s', hrun, hpath, hfile, hs'⟩ := hw.reopen fun rs hrs => by
    obtain hrs | hrs := List.mem_append.mp hrs
    · exact (hfits rs hrs).clear
    · rwa [List.mem_singleton.mp hrs]
  have hsame : (s.write batch v).1.path = s.path ∧ (s.write batch v).1.file = s.file := by
    simp [LogStore.write, hempty]
  have hcut : (s.write batch v).2.setContent s.file (FrameLog.header ++ frames fs) = v := by
    rw [LogStore.write, hempty, if_neg Bool.false_ne_true, Volume.setContent_overwrite,
      hs.setContent_eq]
  rw [recovered_concat hlong, recovered_eq_self hfits, hsame.1, hsame.2, hcut] at hrun
  rw [recovered_concat hlong, recovered_eq_self hfits, hsame.2, hcut] at hs'
  rw [hrun, hs.eq_of_file_eq hs' (hpath.trans hsame.1) (hfile.trans hsame.2)]

theorem Laid.without_all (hs : s.Laid c v FrameLog.header fs) {s' : LogStore} {w : Volume}
    (hrun : s.compact v = (.ok s', w)) (hlong : ¬FrameLog.Fits (live fs))
    (hclear : Clear (live fs)) :
    ∃ s'' w', openExisting c s.path w = (.ok s'', w') ∧ ∀ key, s''.read w' key = .ok none := by
  obtain ⟨hpath, hs'⟩ := hs.of_compact hrun
  obtain ⟨s'', hopen, -, -, hs''⟩ := hs'.reopen fun rs hrs => by
    rwa [List.mem_singleton.mp hrs]
  rw [hpath] at hopen
  refine ⟨s'', _, hopen, fun key => ?_⟩
  have hnone : recovered [live fs] = [] := by simp [recovered, hlong]
  rw [hs''.read, hnone]
  simp [shown, fetched]

theorem Laid.lasting (hs : s.Laid c v FrameLog.header fs) : s.Lasting c v fs where
  laid := hs
  reads := hs.read
  lengths rs _ := trueLengths_iff rs
  whole h := hs.reopen_of_fits fun rs hrs => (trueLengths_iff rs).mp (h rs hrs)
  cut := hs.cut
  without_batch _ := hs.without_batch
  without_all _ _ := hs.without_all

/-- Whatever is written, however much, a store in use has what was said of each value that fits by
itself, until its file is opened again. That opening gives the same store exactly if all lengths that
were written are the true ones, which they are in the frames whose payload fits; otherwise it gives
the frames before the first that does not: a batch too long is lost, and after a compaction too long
everything is. Only where part of a payload has the digest of the whole could it be otherwise. -/
theorem lasts_until_wrapped (c : Codec) {path name : String} {v : Volume}
    (hpath : v.place path = .file name) (ops : List Operation)
    (hside : .compact ∈ ops → ∃ side, v.place (PathText.compactionFile path) = .file side)
    (hclear : Reopening c Clear [] ops) :
    ∃ s w, session c path ops v = (.ok s, w) ∧ s.Lasting c w (framesAfter c ops) ∧
      (Reopening c FrameLog.Fits [] ops → ∀ key,
        (∀ value, (said ops)[key]? = some value →
          (c.encode value).size < Bytes.span 4) →
        s.read w key = .ok (said ops)[key]?) := by
  obtain ⟨s, w, hrun, -, -, hs⟩ :=
    carried_laid.session (fun _ _ hs => hs) hpath hclear hside
  refine ⟨s, w, hrun, hs.lasting, fun hwhole key hsize => ?_⟩
  have hshown : shown (ops.foldl (Operation.frames c) []) = retained c (said ops) :=
    shown_framesAfter hwhole
  rw [hs.read, hshown, fetched_retained hsize]

/-- A key that is one byte longer than any length says. -/
noncomputable def vast : ByteArray := (List.replicate (Bytes.span 4) (0 : UInt8)).toByteArray

theorem size_vast : vast.size = Bytes.span 4 := by
  rw [vast, List.size_toByteArray, List.length_replicate]

/-- A short batch, and one with the given key. -/
def overlong (key : ByteArray) : List Operation := [.put "a".toUTF8 "x".toUTF8, .delete key]

theorem lasts_until_wrapped_overlong :
    (Volume.empty.place "s" = .file "s" ∧ .compact ∉ overlong vast ∧
      Reopening .zstandard Clear [] (overlong vast)) ∧
    ∃ s w, session .zstandard "s" (overlong vast) Volume.empty = (.ok s, w) ∧
      s.Lasting .zstandard w [[Codec.zstandard.record (.put "a".toUTF8 "x".toUTF8)],
        [Codec.zstandard.record (.delete vast)]] ∧
      ¬TrueLengths [Codec.zstandard.record (.delete vast)] ∧
      s.read w "a".toUTF8 = .ok (some "x".toUTF8) := by
  -- of the key only its size is used: its bytes are too many to be looked at
  suffices hall : ∀ key : ByteArray, key.size = Bytes.span 4 →
      (Volume.empty.place "s" = .file "s" ∧ .compact ∉ overlong key ∧
        Reopening .zstandard Clear [] (overlong key)) ∧
      ∃ s w, session .zstandard "s" (overlong key) Volume.empty = (.ok s, w) ∧
        s.Lasting .zstandard w [[Codec.zstandard.record (.put "a".toUTF8 "x".toUTF8)],
          [Codec.zstandard.record (.delete key)]] ∧
        ¬TrueLengths [Codec.zstandard.record (.delete key)] ∧
        s.read w "a".toUTF8 = .ok (some "x".toUTF8) from hall vast size_vast
  intro key hsize
  have hpath : Volume.empty.place "s" = .file "s" := by decide +kernel
  have hside : .compact ∉ overlong key := by simp [overlong]
  have hclear : Reopening .zstandard Clear [] (overlong key) :=
    reopening_of_not_mem (by simp [overlong]) []
  have hlong : ¬TrueLengths [Codec.zstandard.record (.delete key)] := by
    rw [trueLengths_iff, FrameLog.Fits, payload, payload, Codec.record, ByteArray.append_empty,
      size_recordBytes, hsize]
    omega
  have hne : key ≠ "a".toUTF8 := by
    rintro rfl
    revert hsize
    decide
  have hsaid : (said (overlong key))["a".toUTF8]? = some "x".toUTF8 :=
    calc (said (overlong key))["a".toUTF8]?
      _ = ((WriteOp.put "a".toUTF8 "x".toUTF8).apply ∅)["a".toUTF8]? :=
        ((WriteOp.delete key).apply_get? _ _).trans (if_neg hne)
      _ = some "x".toUTF8 := (WriteOp.apply_get? _ _ _).trans (if_pos rfl)
  obtain ⟨s, w, hrun, hs, hread⟩ :=
    lasts_until_wrapped .zstandard hpath (overlong key) (fun h => absurd h hside) hclear
  refine ⟨⟨hpath, hside, hclear⟩, s, w, hrun, hs, hlong, ?_⟩
  rw [hread (reopening_of_not_mem (by simp [overlong]) []) "a".toUTF8 fun value hvalue => ?_, hsaid]
  obtain rfl := Option.some.inj (hsaid.symm.trans hvalue)
  decide +kernel

end VersionedTrie.LogStore
