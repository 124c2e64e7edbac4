import VersionedTrie.Proofs.LogStore.Sparing
import VersionedTrie.Proofs.Zstandard

/-! # Stores side by side

Stores at different paths of one volume do not notice each other, as long as the side file of a
compaction is not the file of another store: whatever is done to one of them, the others keep their
files and their answers, and each is answered as if it were the only one (`Shelf.undisturbed`). The
name of the side file is that of the store with another extension, so that it may well be the name of
another store; a compaction then takes that store's file away from it.
-/

set_option autoImplicit false

namespace VersionedTrie

namespace LogStore

/-- What a store is asked. -/
inductive Query where
  | value (key : ByteArray)
  | contains (key : ByteArray)
  | size
  | isEmpty
  deriving DecidableEq

/-- What comes back from an action on a store. -/
inductive Reply where
  | done
  | failed (e : Error)
  | value (r : Except Error (Option ByteArray))
  | contains (found : Bool)
  | size (n : Nat)
  | isEmpty (empty : Bool)
  /-- There is no store open. -/
  | closed

instance : (r : Reply) → Decidable (r = .done)
  | .done => isTrue rfl
  | .failed _ | .value _ | .contains _ | .size _ | .isEmpty _ | .closed => isFalse nofun

def ask (s : LogStore) (v : Volume) : Query → Reply
  | .value key => .value (s.read v key)
  | .contains key => .contains (s.contains key)
  | .size => .size s.size
  | .isEmpty => .isEmpty s.isEmpty

/-- What is done at a path. -/
inductive Act where
  | create
  | openExisting
  | openOrCreate
  | close
  | perform (op : Operation)
  | ask (q : Query)
  deriving DecidableEq

/-- The store that is open after an attempt to open or use one. -/
def settle (old : Option LogStore) :
    Except Error LogStore × Volume → Reply × Option LogStore × Volume
  | (.ok s, v) => (.done, some s, v)
  | (.error e, v) => (.failed e, old, v)

namespace Act

/-- What an action at a path says, which store is open there then, and the volume. -/
def run (c : Codec) (path : String) (held : Option LogStore) (v : Volume) :
    Act → Reply × Option LogStore × Volume
  | create => settle held (LogStore.create c path v)
  | openExisting => settle held (LogStore.openExisting c path v)
  | openOrCreate => settle held (LogStore.openOrCreate c path v)
  | close => (.done, none, v)
  | perform op =>
    match held with
    | some s => settle held (op.perform s v)
    | none => (.closed, none, v)
  | ask q =>
    match held with
    | some s => (s.ask v q, held, v)
    | none => (.closed, none, v)

def compacts (a : Act) : Bool := a = perform .compact

end Act

/-! ## One action -/

variable {c : Codec} {path : String} {v w : Volume} {held held' : Option LogStore}

/-- A store is open only at its path. -/
def AllSeated (path : String) (v : Volume) (held : Option LogStore) : Prop :=
  ∀ s, held = some s → s.Seated path v

theorem Contained.settle {touched : Set String} {r : Except Error LogStore × Volume}
    (h : Contained path touched v r) (hv : v.Tidy) (hheld : AllSeated path v held) :
    AllSeated path (settle held r).2.2 (settle held r).2.1 ∧
      v.Spares (settle held r).2.2 touched := by
  obtain ⟨_ | s, w⟩ := r
  · obtain rfl : w = v := h
    exact ⟨hheld, .refl hv⟩
  · refine ⟨?_, h.2⟩
    rintro _ ⟨⟩
    exact h.1

theorem Act.run_contained (hv : v.Tidy) (hheld : AllSeated path v held) (a : Act) :
    AllSeated path (a.run c path held v).2.2 (a.run c path held v).2.1 ∧
      v.Spares (a.run c path held v).2.2 (reach v path a.compacts) := by
  cases a with
  | create => exact (create_contained hv false).settle hv hheld
  | openExisting => exact (openExisting_contained hv false).settle hv hheld
  | openOrCreate => exact (openOrCreate_contained hv false).settle hv hheld
  | close => exact ⟨nofun, .refl hv⟩
  | perform op =>
    cases held with
    | none => exact ⟨nofun, .refl hv⟩
    | some s =>
      have hop := Operation.perform_contained hv (hheld s rfl) op
      have hcompacts : (Act.perform op).compacts = decide (op = .compact) := by
        simp [Act.compacts]
      rw [hcompacts]
      exact hop.settle hv hheld
  | ask q =>
    cases held with
    | none => exact ⟨nofun, .refl hv⟩
    | some s => exact ⟨hheld, .refl hv⟩

/-! ## The same path on two volumes -/

variable {s t : LogStore}

theorem content_eq_of_state (h : t.state w = s.state v) : w.content t.file = v.content s.file :=
  congrArg (·.2.2.2) h

theorem readStored_congr (h : t.state w = s.state v) : t.readStored w = s.readStored v := by
  funext e
  rw [readStored, readStored, Volume.readRange, Volume.readRange, content_eq_of_state h]

theorem ask_congr (h : t.state w = s.state v) (q : Query) : t.ask w q = s.ask v q := by
  have hcodec : t.codec = s.codec := congrArg (·.1) h
  have hindex : t.index = s.index := congrArg (·.2.2.1) h
  cases q with
  | value key =>
    rw [ask, ask, read, read, locate, locate, hindex]
    cases s.index[key]? with
    | none => rfl
    | some e => simp only [readValue_eq, hcodec, readStored_congr h]
  | contains key => rw [ask, ask, contains, contains, hindex]
  | size => rw [ask, ask, size, size, hindex]
  | isEmpty => rw [ask, ask, isEmpty, isEmpty, hindex]

/-- What an attempt to open or use a store comes to, the numbers of the files aside. -/
def outcome (r : Except Error LogStore × Volume) : Except Error (Codec × Nat × Index × ByteArray) :=
  r.1.map fun s => s.state r.2

theorem create_congr (hf : w.folders = v.folders) :
    outcome (create c path w) = outcome (create c path v) := by
  have hnew (u : Volume) {name : String} (h : u.place path = .file name) :
      outcome (create c path u) = .ok (c, FrameLog.headerSize, ∅, FrameLog.header) := by
    obtain ⟨s, u', hrun⟩ := create_ok c h
    obtain ⟨-, hs, -⟩ := create_laid hrun
    have hfile : FrameLog.header ++ FrameLog.frames [] = FrameLog.header := ByteArray.append_empty
    rw [hrun, outcome, Except.map, state, hs.codec, hs.tail, hs.index, hs.content, hfile,
      isHeader_header.size_eq]
    rfl
  have hplace := Volume.place_eq_of_folders w v hf path
  cases h : v.place path with
  | file name => rw [hnew v h, hnew w (hplace.trans h)]
  | folder =>
    rw [create_eq, create_eq, Volume.createFile, Volume.createFile, hplace, h]
    rfl
  | nowhere fault =>
    rw [create_eq, create_eq, Volume.createFile, Volume.createFile, hplace, h]
    rfl

theorem openExisting_congr (hload : w.load path = v.load path) :
    outcome (openExisting c path w) = outcome (openExisting c path v) := by
  rw [openExisting_eq, openExisting_eq]
  obtain ⟨fault, hv, hw⟩ | ⟨n, m, hv, hw, hcontent⟩ := Volume.openFile_cases_of_load hload
  · rw [hv, hw]
    rfl
  · rw [hv, hw]
    dsimp only
    rw [hcontent]
    cases FrameLog.checkHeader (v.content n) with
    | error e => rfl
    | ok _ =>
      cases FrameLog.replay (v.content n) with
      | error defect => rfl
      | ok r =>
        obtain ⟨index, tail⟩ := r
        by_cases htail : tail < (v.content n).size
        · simp [outcome, Except.map, state, htail, Volume.content_setContent]
        · simp [outcome, Except.map, state, htail, hcontent]

theorem contains_congr (hf : w.folders = v.folders) (hload : w.load path = v.load path) :
    w.contains path = v.contains path := by
  have hplace := Volume.place_eq_of_folders w v hf path
  rw [Volume.contains, Volume.contains, hplace]
  cases hp : v.place path with
  | folder => rfl
  | nowhere fault => rfl
  | file name =>
    dsimp only
    rw [Std.ExtTreeMap.contains_eq_isSome_getElem?, Std.ExtTreeMap.contains_eq_isSome_getElem?]
    obtain ⟨fault, hv, hw⟩ | ⟨n, m, hv, hw, -⟩ := Volume.openFile_cases_of_load hload
    · have hnone {u : Volume} (hu : u.place path = .file name) (h : u.openFile path = .error fault) :
          u.names[name]? = none := Option.eq_none_iff_forall_ne_some.mpr fun n hn => by
        rw [Volume.openFile_eq_ok.mpr ⟨name, hu, hn⟩] at h
        cases h
      rw [hnone hp hv, hnone (hplace.trans hp) hw]
    · obtain ⟨a, ha, hn⟩ := Volume.openFile_eq_ok.mp hv
      obtain ⟨b, hb, hm⟩ := Volume.openFile_eq_ok.mp hw
      obtain rfl := Place.file.inj (hp.symm.trans ha)
      obtain rfl := Place.file.inj ((hplace.trans hp).symm.trans hb)
      rw [hn, hm]
      rfl

theorem openOrCreate_congr (hf : w.folders = v.folders) (hload : w.load path = v.load path) :
    outcome (openOrCreate c path w) = outcome (openOrCreate c path v) := by
  rw [openOrCreate, run_bind, run_bind, run_get, run_get]
  dsimp only
  rw [contains_congr hf hload]
  split
  · exact openExisting_congr hload
  · exact create_congr hf

theorem append_congr (h : t.state w = s.state v) (batch : WriteBatch) :
    outcome (t.append batch w) = outcome (s.append batch v) := by
  have houtcome (r : LogStore) (u : Volume) : outcome (r.append batch u) =
      if batch.isEmpty then .ok (r.state u)
      else
        let frame := FrameLog.frame (batch.map (r.state u).1.record)
        .ok ((r.state u).1, (r.state u).2.1 + frame.1.size,
          FrameLog.applyLocations (r.state u).2.2.1 (r.state u).2.1 frame.2,
          Volume.splice (r.state u).2.2.2 (r.state u).2.1 frame.1) := by
    change Except.ok ((r.write batch u).1.state (r.write batch u).2) = _
    cases hempty : batch.isEmpty with
    | true => simp [write, hempty]
    | false => simp [write, hempty, state, Volume.content_overwrite_self]
  rw [houtcome, houtcome, h]

theorem liveRecords_congr (h : t.state w = s.state v) : t.liveRecords w = s.liveRecords v := by
  have hindex : t.index = s.index := congrArg (·.2.2.1) h
  rw [liveRecords, liveRecords, hindex]
  simp only [readStored_congr h]

theorem compact_congr (hv : v.Tidy) (hw : w.Tidy) (hs : s.Seated path v) (ht : t.Seated path w)
    (hf : w.folders = v.folders) (h : t.state w = s.state v) :
    outcome (t.compact w) = outcome (s.compact v) := by
  have houtcome {r : LogStore} {u : Volume} (hu : u.Tidy) (hr : r.Seated path u) :
      outcome (r.compact u) =
        match r.liveRecords u, u.place (PathText.compactionFile path) with
        | .error e, _ => .error e
        | .ok _, .folder => .error (.io .isDirectory)
        | .ok _, .nowhere fault => .error (.io fault)
        | .ok records, .file _ =>
          .ok (r.codec, FrameLog.headerSize + (FrameLog.frame records).1.size,
            FrameLog.applyLocations ∅ FrameLog.headerSize (FrameLog.frame records).2,
            FrameLog.header ++ (FrameLog.frame records).1) := by
    cases hrecords : r.liveRecords u with
    | error e =>
      rw [compact_stuck hrecords]
      rfl
    | ok records =>
      cases hside : u.place (PathText.compactionFile path) with
      | folder =>
        rw [compact_sideless hr hrecords (by rw [Volume.createFile, hside])]
        rfl
      | nowhere fault =>
        rw [compact_sideless hr hrecords (by rw [Volume.createFile, hside])]
        rfl
      | file a =>
        obtain ⟨r', u', b, hrun, -, -, hstate, -⟩ := compact_moves hu hr hrecords hside
        rw [hrun, outcome, Except.map, hstate]
  have hcodec : t.codec = s.codec := congrArg (·.1) h
  rw [houtcome hw ht, houtcome hv hs, liveRecords_congr h, hcodec,
    Volume.place_eq_of_folders w v hf]

theorem Operation.perform_congr (hv : v.Tidy) (hw : w.Tidy) (hs : s.Seated path v)
    (ht : t.Seated path w) (hf : w.folders = v.folders) (hload : w.load path = v.load path)
    (h : t.state w = s.state v) (op : Operation) :
    outcome (op.perform t w) = outcome (op.perform s v) := by
  cases op with
  | put key value => exact append_congr h [.put key value]
  | delete key => exact append_congr h [.delete key]
  | write batch => exact append_congr h batch
  | compact => exact compact_congr hv hw hs ht hf h
  | reopen =>
    have hcodec : t.codec = s.codec := congrArg (·.1) h
    rw [perform, perform, hs.path_eq, ht.path_eq, hcodec]
    exact openExisting_congr hload

/-- Two volumes are alike at a path: the file is the same, and so is the store that is open there, but
for the number of its file. -/
structure Alike (path : String) (v : Volume) (held : Option LogStore) (w : Volume)
    (held' : Option LogStore) : Prop where
  folders : w.folders = v.folders
  load : w.load path = v.load path
  state : held'.map (·.state w) = held.map (·.state v)

/-- What others do changes nothing at the path. -/
theorem Alike.of_spares {u : Volume} {touched : Set String} (h : Alike path v held w held')
    (hheld : AllSeated path v held) (hspares : v.Spares u touched)
    (hpath : ∀ a, v.place path = .file a → a ∉ touched) : Alike path u held w held' where
  folders := h.folders.trans hspares.folders.symm
  load := h.load.trans (hspares.load_eq hpath).symm
  state := by
    rw [h.state]
    cases held with
    | none => rfl
    | some s => exact congrArg some ((hheld s rfl).state_of_spares hspares hpath).symm

theorem Alike.settle {touched touched' : Set String} {r r' : Except Error LogStore × Volume}
    (h : Alike path v held w held') (hr : Contained path touched v r)
    (hr' : Contained path touched' w r') (hout : outcome r' = outcome r) :
    (settle held' r').1 = (settle held r).1 ∧
      Alike path (settle held r).2.2 (settle held r).2.1 (settle held' r').2.2
        (settle held' r').2.1 := by
  obtain ⟨e | s, v'⟩ := r <;> obtain ⟨e' | t, w'⟩ := r'
  · obtain rfl : e' = e := Except.error.inj hout
    obtain rfl : v' = v := hr
    obtain rfl : w' = w := hr'
    exact ⟨rfl, h⟩
  · cases hout
  · cases hout
  · have hstate : t.state w' = s.state v' := Except.ok.inj hout
    refine ⟨rfl, ?_, ?_, congrArg some hstate⟩
    · exact hr'.2.folders.trans (h.folders.trans hr.2.folders.symm)
    · rw [LogStore.settle, LogStore.settle, Volume.load_of_openFile hr.1.opened,
        Volume.load_of_openFile hr'.1.opened, content_eq_of_state hstate]

/-- What is done at the path has the same answer on both volumes, and leaves them alike. -/
theorem Act.run_congr (h : Alike path v held w held') (hv : v.Tidy) (hw : w.Tidy)
    (hheld : AllSeated path v held) (hheld' : AllSeated path w held') (a : Act) :
    (a.run c path held' w).1 = (a.run c path held v).1 ∧
      Alike path (a.run c path held v).2.2 (a.run c path held v).2.1 (a.run c path held' w).2.2
        (a.run c path held' w).2.1 := by
  have hopen : held'.map (·.state w) = held.map (·.state v) := h.state
  cases a with
  | create =>
    exact h.settle (create_contained hv false) (create_contained hw false) (create_congr h.folders)
  | openExisting =>
    exact h.settle (openExisting_contained hv false) (openExisting_contained hw false)
      (openExisting_congr h.load)
  | openOrCreate =>
    exact h.settle (openOrCreate_contained hv false) (openOrCreate_contained hw false)
      (openOrCreate_congr h.folders h.load)
  | close => exact ⟨rfl, h.folders, h.load, rfl⟩
  | perform op =>
    cases held <;> cases held' <;> try cases hopen
    · exact ⟨rfl, h⟩
    · rename_i s t
      exact h.settle (Operation.perform_contained hv (hheld s rfl) op)
        (Operation.perform_contained hw (hheld' t rfl) op)
        (Operation.perform_congr hv hw (hheld s rfl) (hheld' t rfl) h.folders h.load
          (Option.some.inj hopen) op)
  | ask q =>
    cases held <;> cases held' <;> try cases hopen
    · exact ⟨rfl, h⟩
    · exact ⟨ask_congr (Option.some.inj hopen) q, h⟩

/-- A compaction that is done has taken the file of its side path, if there was one. -/
theorem Act.run_compact (hv : v.Tidy) (hs : s.Seated path v)
    (hrun : ((perform .compact).run c path (some s) v).1 = .done) {a : String}
    (hside : v.place (PathText.compactionFile path) = .file a) {n : FileNumber}
    (hn : v.names[a]? = some n) (hother : v.place path ≠ .file a) :
    ∃ s' w, (perform .compact).run c path (some s) v = (.done, some s', w) ∧ s'.file = n ∧
      w.names[a]? = none ∧ w.folders = v.folders := by
  cases hrecords : s.liveRecords v with
  | error e =>
    rw [Act.run, Operation.perform, compact_stuck hrecords] at hrun
    cases hrun
  | ok records =>
    obtain ⟨s', w, b, hcompact, htarget, -, -, hfile, hgone, hspares⟩ :=
      compact_moves hv hs hrecords hside
    refine ⟨s', w, ?_, hfile n (Volume.openFile_eq_ok.mpr ⟨a, hside, hn⟩), hgone ?_,
      hspares.folders⟩
    · rw [Act.run, Operation.perform, hcompact]
      rfl
    · rintro rfl
      exact hother htarget

end LogStore

/-! ## Stores on one volume -/

/-- Stores that are open on one volume. -/
structure Shelf (ι : Type) where
  volume : Volume
  stores : ι → Option LogStore

namespace Shelf

open LogStore

variable {ι : Type}

/-- A volume on which no store is open. -/
def bare (v : Volume) : Shelf ι := ⟨v, fun _ => none⟩

/-- What is the same after something was done elsewhere: the bytes of the file, whether or not a store
is open there, and what an open store answers. -/
structure Untouched (path : ι → String) (b b' : Shelf ι) (j : ι) : Prop where
  load : b'.volume.load (path j) = b.volume.load (path j)
  store : b'.stores j = b.stores j
  answers : ∀ s, b.stores j = some s → ∀ q, s.ask b'.volume q = s.ask b.volume q

/-- The file of a store has gone to another one: its path leads nowhere, and its values are looked up
among the bytes of the other. -/
structure Displaced (path : ι → String) (b : Shelf ι) (i j : ι) : Prop where
  gone : b.volume.load (path j) = .error .noSuchFile
  shared : ∃ s t, b.stores i = some s ∧ b.stores j = some t ∧
    ∀ e, t.readStored b.volume e = s.readStored b.volume e

/-- Every store is open only at its path, on a tidy volume with the given folders. -/
structure Sound (path : ι → String) (v : Volume) (b : Shelf ι) : Prop where
  tidy : b.volume.Tidy
  folders : b.volume.folders = v.folders
  seated : ∀ i, AllSeated (path i) b.volume (b.stores i)

theorem sound_bare {path : ι → String} {v : Volume} (hv : v.Tidy) : Sound path v (bare v) :=
  ⟨hv, rfl, fun _ => nofun⟩

/-- The turn changes no file that another path leads to. -/
def Apart (path : ι → String) (v : Volume) (turn : ι × Act) : Prop :=
  ∀ j, j ≠ turn.1 → ∀ a, v.place (path j) = .file a → a ∉ reach v (path turn.1) turn.2.compacts

variable [DecidableEq ι]

def act (c : Codec) (path : ι → String) (b : Shelf ι) (turn : ι × Act) : Reply × Shelf ι :=
  let r := turn.2.run c (path turn.1) (b.stores turn.1) b.volume
  (r.1, ⟨r.2.2, Function.update b.stores turn.1 r.2.1⟩)

def told (c : Codec) (path : ι → String) (b : Shelf ι) (turn : ι × Act) : Reply :=
  (b.act c path turn).1

def after (c : Codec) (path : ι → String) (b : Shelf ι) (turn : ι × Act) : Shelf ι :=
  (b.act c path turn).2

def run (c : Codec) (path : ι → String) (b : Shelf ι) (turns : List (ι × Act)) : Shelf ι :=
  turns.foldl (after c path) b

/-- What is said at one of the paths. -/
def heard (c : Codec) (path : ι → String) (j : ι) : Shelf ι → List (ι × Act) → List Reply
  | _, [] => []
  | b, turn :: turns =>
    if turn.1 = j then b.told c path turn :: heard c path j (b.after c path turn) turns
    else heard c path j (b.after c path turn) turns

variable {c : Codec} {path : ι → String} {v : Volume} {b b' : Shelf ι} {turn : ι × Act}
  {turns : List (ι × Act)} {i j : ι}

/-! ### One turn -/

theorem after_self (b : Shelf ι) (i : ι) (a : Act) :
    (b.after c path (i, a)).stores i = (a.run c (path i) (b.stores i) b.volume).2.1 :=
  Function.update_self i _ _

theorem after_of_ne (b : Shelf ι) (turn : ι × Act) (h : j ≠ turn.1) :
    (b.after c path turn).stores j = b.stores j :=
  Function.update_of_ne h _ _

/-- What is the turn of one store leaves the places of the files of the others alone. -/
theorem Sound.spares (hb : Sound path v b) (hturn : Apart path v turn) (hj : j ≠ turn.1) :
    ∃ touched, b.volume.Spares (b.after c path turn).volume touched ∧
      ∀ a, b.volume.place (path j) = .file a → a ∉ touched := by
  refine ⟨_, (Act.run_contained hb.tidy (hb.seated turn.1) turn.2).2, fun a ha => ?_⟩
  have hplace := Volume.place_eq_of_folders b.volume v hb.folders
  rw [hplace] at ha
  have htouched : reach b.volume (path turn.1) turn.2.compacts =
      reach v (path turn.1) turn.2.compacts := by
    simp only [reach, hplace]
  rw [htouched]
  exact hturn j hj a ha

theorem Sound.after (hb : Sound path v b) (hturn : Apart path v turn) :
    Sound path v (b.after c path turn) := by
  have hown := Act.run_contained (c := c) hb.tidy (hb.seated turn.1) turn.2
  refine ⟨hown.2.tidy, hown.2.folders.trans hb.folders, fun j => ?_⟩
  by_cases hj : j = turn.1
  · subst hj
    rw [after_self]
    exact hown.1
  · obtain ⟨touched, hspares, hpath⟩ := hb.spares hturn hj
    rw [after_of_ne b turn hj]
    exact fun s hs => (hb.seated j s hs).of_spares hspares hpath

theorem Sound.untouched (hb : Sound path v b) (hturn : Apart path v turn) (hj : j ≠ turn.1) :
    Untouched path b (b.after c path turn) j := by
  obtain ⟨touched, hspares, hpath⟩ := hb.spares hturn hj
  exact ⟨hspares.load_eq hpath, after_of_ne b turn hj, fun s hs q =>
    ask_congr ((hb.seated j s hs).state_of_spares hspares hpath) q⟩

/-- A compaction takes the file of a store whose path its side file has. -/
theorem Sound.displaced (hb : Sound path v b) (hij : v.place (path i) ≠ v.place (path j)) {a : String}
    (hside : v.place (PathText.compactionFile (path i)) = .file a)
    (hpath : v.place (path j) = .file a) (hj : (b.stores j).isSome)
    (hrun : b.told c path (i, .perform .compact) = .done) :
    Displaced path (b.after c path (i, .perform .compact)) i j := by
  have hne : j ≠ i := fun h => hij (h ▸ rfl)
  have hplace := Volume.place_eq_of_folders b.volume v hb.folders
  obtain ⟨t, ht⟩ := Option.isSome_iff_exists.mp hj
  obtain ⟨a', ha', hname⟩ := Volume.openFile_eq_ok.mp (hb.seated j t ht).opened
  obtain rfl : a' = a := Place.file.inj (ha'.symm.trans ((hplace _).trans hpath))
  cases hi : b.stores i with
  | none =>
    rw [told, act, hi] at hrun
    cases hrun
  | some s =>
    rw [told, act, hi] at hrun
    obtain ⟨s', w, hact, hfile, hgone, hfolders⟩ := Act.run_compact hb.tidy (hb.seated i s hi) hrun
      ((hplace _).trans hside) hname fun h => hij (((hplace _).symm.trans h).trans hpath.symm)
    have hvolume : (b.after c path (i, .perform .compact)).volume = w := by
      rw [Shelf.after, act, hi]
      exact congrArg (·.2.2) hact
    refine ⟨?_, s', t, ?_, (after_of_ne b _ hne).trans ht, fun e => ?_⟩
    · rw [hvolume, Volume.load, Volume.openFile, Volume.place_eq_of_folders w _ hfolders, ha']
      simp only [hgone]
      rfl
    · rw [after_self, hi, hact]
    · rw [readStored, readStored, hfile]

/-! ### Any turns -/

theorem Sound.run (hb : Sound path v b) (hturns : ∀ turn ∈ turns, Apart path v turn) :
    Sound path v (b.run c path turns) := by
  induction turns generalizing b with
  | nil => exact hb
  | cons turn turns ih =>
    exact ih (hb.after (hturns turn List.mem_cons_self))
      fun t ht => hturns t (List.mem_cons_of_mem turn ht)

/-- What is said at a path depends on what is done there, and on nothing else. -/
theorem Sound.heard_eq (hb : Sound path v b) (hb' : Sound path v b')
    (hj : Alike (path j) b.volume (b.stores j) b'.volume (b'.stores j))
    (hturns : ∀ turn ∈ turns, Apart path v turn) :
    heard c path j b turns = heard c path j b' (turns.filter (·.1 = j)) := by
  induction turns generalizing b b' with
  | nil => rfl
  | cons turn turns ih =>
    obtain ⟨hturn, hturns⟩ := List.forall_mem_cons.mp hturns
    by_cases hown : turn.1 = j
    · -- Both take the turn, on volumes that are alike at the path.
      subst hown
      obtain ⟨hsame, hnext⟩ := Act.run_congr hj hb.tidy hb'.tidy (hb.seated _) (hb'.seated _) turn.2
      rw [List.filter_cons_of_pos (by simp), heard, heard, if_pos rfl, if_pos rfl]
      refine congrArg₂ List.cons hsame.symm (ih (hb.after hturn) (hb'.after hturn) ?_ hturns)
      rw [after_self, after_self]
      exact hnext
    · -- Only the first takes it, and stays as it was at the path.
      obtain ⟨touched, hspares, hpath⟩ := hb.spares hturn (Ne.symm hown)
      rw [List.filter_cons_of_neg (by simpa using hown), heard, if_neg hown]
      refine ih (hb.after hturn) hb' ?_ hturns
      rw [after_of_ne b turn (Ne.symm hown)]
      exact hj.of_spares (hb.seated j) hspares hpath

/-- On stores with one codec at paths to different files, none of which is the side file of a
compaction of another one: whatever is done to one of them changes neither the files of the others
nor their answers, and each is answered as if the others were not there. One more compaction, of a
store whose side file is the file of another, takes it from that. -/
theorem undisturbed (c : Codec) (path : ι → String) (v : Volume) (hv : v.Tidy)
    (hpaths : ∀ i j a, v.place (path i) = .file a → v.place (path j) = .file a → i = j)
    (turns : List (ι × Act))
    (hsides : ∀ i, (i, .perform .compact) ∈ turns → ∀ j a,
      v.place (PathText.compactionFile (path i)) = .file a → v.place (path j) = .file a → i = j) :
    (∀ pre turn, pre ++ [turn] <+: turns → ∀ j, j ≠ turn.1 →
      Untouched path ((bare v).run c path pre) ((bare v).run c path (pre ++ [turn])) j) ∧
    (∀ j, heard c path j (bare v) turns = heard c path j (bare v) (turns.filter (·.1 = j))) ∧
    ∀ i j a, i ≠ j → v.place (PathText.compactionFile (path i)) = .file a →
      v.place (path j) = .file a → (((bare v).run c path turns).stores j).isSome →
      ((bare v).run c path turns).told c path (i, .perform .compact) = .done →
      Displaced path (((bare v).run c path turns).after c path (i, .perform .compact)) i j := by
  have hapart : ∀ turn ∈ turns, Apart path v turn := by
    rintro ⟨i, act⟩ hturn j hj a ha (hown | ⟨hcompacts, hside⟩)
    · exact hj (hpaths j i a ha hown)
    · obtain rfl : act = .perform .compact := of_decide_eq_true hcompacts
      exact hj (hsides i hturn j a hside ha).symm
  have hstart : Sound path v (bare v) := sound_bare hv
  refine ⟨fun pre turn hpre j hj => ?_, fun j => ?_, fun i j a hij hside hpath hopen hdone => ?_⟩
  · have hmem : ∀ t ∈ pre ++ [turn], Apart path v t := fun t ht => hapart t (hpre.subset ht)
    rw [run, run, List.foldl_append]
    exact (hstart.run fun t ht => hmem t (List.mem_append_left _ ht)).untouched
      (hmem turn (by simp)) hj
  · exact hstart.heard_eq hstart ⟨rfl, rfl, rfl⟩ hapart
  · exact (hstart.run hapart).displaced (fun h => hij (hpaths i j a (h.trans hpath) hpath)) hside hpath
      hopen hdone

/-- Three stores, of which the last has the name of the first one's side file. -/
def neighbours : Fin 3 → String
  | 0 => "s"
  | 1 => "t"
  | 2 => "s.compact"

/-- All are made and written to, and two of them compacted. -/
def mingled : List (Fin 3 × Act) :=
  [(0, .create), (1, .create), (2, .create), (0, .perform (.put "a".toUTF8 "x".toUTF8)),
    (2, .perform (.put "b".toUTF8 "y".toUTF8)), (1, .perform (.put "a".toUTF8 "z".toUTF8)),
    (1, .perform .compact), (2, .perform .compact), (1, .openExisting),
    (2, .ask (.value "b".toUTF8))]

def occupied : Shelf (Fin 3) := (bare .empty).run .zstandard neighbours mingled

theorem undisturbed_mingled :
    (Volume.empty.Tidy ∧ (∀ i, Volume.empty.place (neighbours i) = .file (neighbours i)) ∧
      Volume.empty.place (PathText.compactionFile (neighbours 0)) = .file (neighbours 2)) ∧
    heard .zstandard neighbours 2 (bare .empty) mingled =
      heard .zstandard neighbours 2 (bare .empty) (mingled.filter (·.1 = 2)) ∧
    Displaced neighbours (occupied.after .zstandard neighbours (0, .perform .compact)) 0 2 := by
  have hplaces : ∀ i, Volume.empty.place (neighbours i) = .file (neighbours i) := by decide +kernel
  have hside : Volume.empty.place (PathText.compactionFile (neighbours 0)) =
      .file (neighbours 2) := by decide +kernel
  have hdistinct : ∀ i j, neighbours i = neighbours j → i = j := by decide
  have hpaths : ∀ i j a, Volume.empty.place (neighbours i) = .file a →
      Volume.empty.place (neighbours j) = .file a → i = j := fun i j a hi hj =>
    hdistinct i j (Place.file.inj (((hplaces i).symm.trans hi).trans (hj.symm.trans (hplaces j))))
  have hapart : ∀ i, (i, .perform .compact) ∈ mingled → ∀ j,
      Volume.empty.place (PathText.compactionFile (neighbours i)) = .file (neighbours j) → i = j := by
    decide +kernel
  have hdone : occupied.told .zstandard neighbours (0, .perform .compact) = .done := by
    decide +kernel
  have hopen : (occupied.stores 2).isSome := by decide +kernel
  obtain ⟨-, hheard, hgone⟩ := undisturbed .zstandard neighbours .empty Volume.tidy_empty hpaths
    mingled fun i hi j a hsidei hj => hapart i hi j (hsidei.trans (hj.symm.trans (hplaces j)))
  exact ⟨⟨Volume.tidy_empty, hplaces, hside⟩, hheard 2,
    hgone 0 2 _ (by decide) hside (hplaces 2) hopen hdone⟩

end Shelf

end VersionedTrie
