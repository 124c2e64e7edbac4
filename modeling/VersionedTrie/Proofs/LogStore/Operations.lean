import VersionedTrie.Proofs.LogStore.Basic
import VersionedTrie.Proofs.Zstandard
import VersionedTrie.Store.Basic

/-! # A log store is a memory store

A store that is created, written to, compacted and closed and opened again, in any order, answers
every question as a store in memory that was given the same batches (`refines_memory`). One
operation leads from a store that has written some contents to one that has written what the
operation makes of them, whatever frames they are made of (`Operation.perform_has`); for a
compaction and a reopening these are the same contents.
-/

set_option autoImplicit false

namespace VersionedTrie.LogStore

/-- What is done to a store in use. To reopen a store is to let it go and open its path. -/
inductive Operation where
  | put (key value : ByteArray)
  | delete (key : ByteArray)
  | write (batch : WriteBatch)
  | compact
  | reopen
  deriving DecidableEq

def append (s : LogStore) (batch : WriteBatch) : VolumeM LogStore := do
  let (s, v) := s.write batch (← get)
  set v
  pure s

namespace Operation

/-- What the operation says of the entries. -/
def batch : Operation → WriteBatch
  | put key value => [.put key value]
  | delete key => [.delete key]
  | write batch => batch
  | compact => []
  | reopen => []

def perform (s : LogStore) : Operation → VolumeM LogStore
  | put key value => s.append [.put key value]
  | delete key => s.append [.delete key]
  | write batch => s.append batch
  | compact => s.compact
  | reopen => openExisting s.codec s.path

/-- The batch whose frame the operation writes, on a store with the given contents. -/
def framed (m : Contents) : Operation → WriteBatch
  | put key value => [.put key value]
  | delete key => [.delete key]
  | write batch => batch
  | compact => WriteBatch.puts m
  | reopen => []

end Operation

/-- A new store at the path, after some operations. -/
def session (c : Codec) (path : String) (ops : List Operation) : VolumeM LogStore := do
  let s ← create c path
  ops.foldlM Operation.perform s

/-- A store in memory that is given the same batches. -/
def mirror (ops : List Operation) : Store :=
  ops.foldl (fun s op => (s.write op.batch Volume.empty).1) Store.inMemory

/-- Every frame that the operations write fits its length. -/
def FitsAlong (c : Codec) : Contents → List Operation → Prop
  | _, [] => True
  | m, op :: ops => c.Fits (op.framed m) ∧ FitsAlong c (op.batch.apply m) ops

instance decidableFitsAlong (c : Codec) :
    (m : Contents) → (ops : List Operation) → Decidable (FitsAlong c m ops)
  | _, [] => inferInstanceAs (Decidable True)
  | m, op :: ops =>
    have := decidableFitsAlong c (op.batch.apply m) ops
    inferInstanceAs (Decidable (_ ∧ _))

/-! ## One operation -/

/-- The store has written the contents, in whatever frames. -/
def Has (s : LogStore) (c : Codec) (v : Volume) (m : Contents) : Prop :=
  ∃ batches, s.Written c v FrameLog.header batches ∧ WriteBatch.held batches = m

variable {c : Codec} {s : LogStore} {v : Volume} {m : Contents}

theorem append_has (hs : s.Has c v m) {batch : WriteBatch} (hfits : c.Fits batch) :
    ∃ s' w, s.append batch v = (.ok s', w) ∧ s'.path = s.path ∧ w.folders = v.folders ∧
      s'.Has c w (batch.apply m) := by
  obtain ⟨batches, hw, rfl⟩ := hs
  refine ⟨(s.write batch v).1, (s.write batch v).2, rfl, ?_⟩
  cases hempty : batch.isEmpty with
  | true =>
    obtain rfl := List.isEmpty_iff.mp hempty
    exact ⟨rfl, rfl, batches, hw, rfl⟩
  | false =>
    refine ⟨?_, ?_, batches ++ [batch], hw.write hfits hempty, WriteBatch.held_concat batches batch⟩
    · simp [LogStore.write, hempty]
    · simp [LogStore.write, hempty, Volume.overwrite]

theorem Operation.perform_has (hs : s.Has c v m) {op : Operation} (hfits : c.Fits (op.framed m))
    (hside : op = .compact → ∃ side, v.place (PathText.compactionFile s.path) = .file side) :
    ∃ s' w, op.perform s v = (.ok s', w) ∧ s'.path = s.path ∧ w.folders = v.folders ∧
      s'.Has c w (op.batch.apply m) := by
  cases op with
  | put key value => exact append_has hs hfits
  | delete key => exact append_has hs hfits
  | write batch => exact append_has hs hfits
  | compact =>
    obtain ⟨batches, hw, rfl⟩ := hs
    obtain ⟨side, hplace⟩ := hside rfl
    obtain ⟨s', w, hcompact, hpath, hw', hfolders⟩ := hw.compact hplace hfits
    exact ⟨s', w, hcompact, hpath, hfolders, _, hw', WriteBatch.held_puts _⟩
  | reopen =>
    obtain ⟨batches, hw, rfl⟩ := hs
    obtain rfl := hw.codec
    exact ⟨s, v, hw.reopen, rfl, rfl, batches, hw, rfl⟩

/-! ## Any operations -/

section

variable {G : Type} {Inv : LogStore → Volume → G → Prop} {Along : G → List Operation → Prop}
  {next : G → Operation → G}

/-- What is known of a store in use is carried on by each operation that those ahead allow. -/
def Carried (Inv : LogStore → Volume → G → Prop) (Along : G → List Operation → Prop)
    (next : G → Operation → G) : Prop :=
  ∀ (s : LogStore) (v : Volume) (g : G) (op : Operation) (ops : List Operation),
    Inv s v g → Along g (op :: ops) →
    (op = .compact → ∃ side, v.place (PathText.compactionFile s.path) = .file side) →
    ∃ s' w, op.perform s v = (.ok s', w) ∧ s'.path = s.path ∧ w.folders = v.folders ∧
      Inv s' w (next g op) ∧ Along (next g op) ops

/-- What each operation carries on, any operations do. -/
theorem Carried.all (step : Carried Inv Along next) {ops : List Operation} {s : LogStore}
    {v : Volume} {g : G} (hs : Inv s v g) (hahead : Along g ops)
    (hside : .compact ∈ ops → ∃ side, v.place (PathText.compactionFile s.path) = .file side) :
    ∃ s' w, ops.foldlM Operation.perform s v = (.ok s', w) ∧ s'.path = s.path ∧
      w.folders = v.folders ∧ Inv s' w (ops.foldl next g) := by
  induction ops generalizing s v g with
  | nil => exact ⟨s, v, rfl, rfl, rfl, hs⟩
  | cons op ops ih =>
    obtain ⟨s', w, hrun, hpath, hfolders, hs', hahead'⟩ :=
      step s v g op ops hs hahead fun h => hside (h ▸ List.mem_cons_self)
    obtain ⟨s'', w', hrest, hpath', hfolders', hs''⟩ := ih hs' hahead' fun hmem => by
      rw [hpath, Volume.place_eq_of_folders w v hfolders]
      exact hside (List.mem_cons_of_mem op hmem)
    refine ⟨s'', w', ?_, hpath'.trans hpath, hfolders'.trans hfolders, hs''⟩
    rw [List.foldlM_cons, run_bind, hrun]
    exact hrest

/-- What is known of a new store is carried on to the end of a session. -/
theorem Carried.session (step : Carried Inv Along next) {g : G}
    (hnew : ∀ (s : LogStore) (w : Volume), s.Laid c w FrameLog.header [] → Inv s w g)
    {path name : String} {v : Volume} (hpath : v.place path = .file name) {ops : List Operation}
    (hahead : Along g ops)
    (hside : .compact ∈ ops → ∃ side, v.place (PathText.compactionFile path) = .file side) :
    ∃ s w, LogStore.session c path ops v = (.ok s, w) ∧ s.path = path ∧ w.folders = v.folders ∧
      Inv s w (ops.foldl next g) := by
  obtain ⟨s₀, w₀, hcreate⟩ := create_ok c hpath
  obtain ⟨hpath₀, hs₀, hfolders₀⟩ := create_laid hcreate
  obtain ⟨s, w, hrun, hpath', hfolders, hs⟩ := step.all (hnew s₀ w₀ hs₀) hahead fun h => by
    rw [hpath₀, Volume.place_eq_of_folders w₀ v hfolders₀]
    exact hside h
  refine ⟨s, w, ?_, hpath'.trans hpath₀, hfolders.trans hfolders₀, hs⟩
  rw [LogStore.session, run_bind, hcreate]
  exact hrun

end

theorem carried_has : Carried (Has · c) (FitsAlong c) fun m op => op.batch.apply m := by
  intro s v m op ops hs hahead hside
  obtain ⟨s', w, hrun, hpath, hfolders, hs'⟩ := op.perform_has hs hahead.1 hside
  exact ⟨s', w, hrun, hpath, hfolders, hs', hahead.2⟩

/-- The contents that operations speak of. -/
def said (ops : List Operation) : Contents := ops.foldl (fun m op => op.batch.apply m) ∅

/-- At the end of a session a store has what was said. -/
theorem has_session {path name : String} {v : Volume} (hpath : v.place path = .file name)
    {ops : List Operation} (hfits : FitsAlong c ∅ ops)
    (hside : .compact ∈ ops → ∃ side, v.place (PathText.compactionFile path) = .file side) :
    ∃ s w, session c path ops v = (.ok s, w) ∧ s.path = path ∧ w.folders = v.folders ∧
      s.Has c w (said ops) :=
  carried_has.session (fun _ _ hs => ⟨[], .of_laid hs nofun, rfl⟩) hpath hfits hside

theorem Has.read (hs : s.Has c v m) (key : ByteArray) : s.read v key = .ok m[key]? := by
  obtain ⟨batches, hw, rfl⟩ := hs
  exact hw.read key

theorem mirror_eq (ops : List Operation) :
    mirror ops = Store.ofMedium (.memory (said ops)) := by
  have hfold (m : Contents) :
      ops.foldl (fun s op => (s.write op.batch Volume.empty).1) (Store.ofMedium (.memory m)) =
        Store.ofMedium (.memory (ops.foldl (fun m op => op.batch.apply m) m)) := by
    induction ops generalizing m with
    | nil => rfl
    | cons op ops ih => exact ih (op.batch.apply m)
  exact hfold ∅

/-- On a path that leads to a file, with another one at hand for compactions, nothing fails, and
what a store then says of its entries is what a store in memory says, whatever its codec. -/
theorem refines_memory (c : Codec) {path name : String} {v : Volume}
    (hpath : v.place path = .file name) (ops : List Operation)
    (hside : .compact ∈ ops → ∃ side, v.place (PathText.compactionFile path) = .file side)
    (hfits : FitsAlong c ∅ ops) :
    ∃ s w, session c path ops v = (.ok s, w) ∧
      (∀ key, (Store.ofMedium (.log s)).lookup w key = (mirror ops).lookup w key) ∧
      (∀ key, (Store.ofMedium (.log s)).contains key = (mirror ops).contains key) ∧
      (Store.ofMedium (.log s)).size = (mirror ops).size ∧
      (Store.ofMedium (.log s)).isEmpty = (mirror ops).isEmpty := by
  obtain ⟨s, w, hrun, -, -, batches, hw, hm⟩ := has_session hpath hfits hside
  refine ⟨s, w, hrun, ?_⟩
  rw [mirror_eq, ← hm]
  exact ⟨hw.read, hw.contains_eq, hw.size_eq, hw.isEmpty_eq⟩

/-- Writing, overwriting and deleting across a compaction and two reopenings. -/
def across : List Operation :=
  [.put "a".toUTF8 "x".toUTF8,
    .write [.put "b".toUTF8 "y".toUTF8, .delete "a".toUTF8, .put "b".toUTF8 "z".toUTF8],
    .reopen, .put "a".toUTF8 ByteArray.empty, .compact, .delete "b".toUTF8, .reopen]

theorem refines_memory_across :
    (Volume.empty.place "s" = .file "s" ∧ Volume.empty.place (PathText.compactionFile "s") =
      .file "s.compact" ∧ FitsAlong .zstandard ∅ across) ∧
    ∃ s w, session .zstandard "s" across Volume.empty = (.ok s, w) ∧
      (∀ key, (Store.ofMedium (.log s)).lookup w key = (mirror across).lookup w key) ∧
      (∀ key, (Store.ofMedium (.log s)).contains key = (mirror across).contains key) ∧
      (Store.ofMedium (.log s)).size = (mirror across).size ∧
      (Store.ofMedium (.log s)).isEmpty = (mirror across).isEmpty := by
  have hpath : Volume.empty.place "s" = .file "s" := by decide +kernel
  have hside : Volume.empty.place (PathText.compactionFile "s") = .file "s.compact" := by
    decide +kernel
  have hfits : FitsAlong .zstandard ∅ across := by decide +kernel
  exact ⟨⟨hpath, hside, hfits⟩, refines_memory .zstandard hpath across (fun _ => ⟨_, hside⟩) hfits⟩

end VersionedTrie.LogStore
