import VersionedTrie.Proofs.LogStore.Operations
import Mathlib.Data.Set.Basic

/-! # What a store leaves alone

An action on a store changes no file but the one that its path leads to and, if it is a compaction,
the one that the path of its side file leads to (`Volume.Spares`); and an action that fails changes
nothing at all (`Contained`). This is so whatever the files hold. It takes a volume on which no file
has two names: a file that the store shares with another one under a second name would change with
its own.
-/

set_option autoImplicit false

namespace VersionedTrie

namespace Volume

/-- No file has two names, and the next number is not in use. -/
structure Tidy (v : Volume) : Prop where
  name_eq : ∀ (a b : String) (n : FileNumber), v.names[a]? = some n → v.names[b]? = some n → a = b
  lt_next : ∀ (a : String) (n : FileNumber), v.names[a]? = some n → n < v.next

theorem tidy_empty : empty.Tidy := ⟨by simp [empty], by simp [empty]⟩

/-- The folders stay, and so do all files but those of the given names. -/
structure Spares (v w : Volume) (touched : Set String) : Prop where
  tidy : w.Tidy
  folders : w.folders = v.folders
  names : ∀ a, a ∉ touched → w.names[a]? = v.names[a]?
  contents : ∀ (a : String) (n : FileNumber), a ∉ touched → v.names[a]? = some n →
    w.content n = v.content n

variable {u v w : Volume} {touched : Set String} {path : String}

namespace Spares

theorem refl (hv : v.Tidy) : v.Spares v touched := ⟨hv, rfl, fun _ _ => rfl, fun _ _ _ _ => rfl⟩

theorem trans (h : u.Spares v touched) (h' : v.Spares w touched) : u.Spares w touched where
  tidy := h'.tidy
  folders := h'.folders.trans h.folders
  names a ha := (h'.names a ha).trans (h.names a ha)
  contents a n ha hn := by
    rw [h'.contents a n ha ((h.names a ha).trans hn), h.contents a n ha hn]

theorem mono {more : Set String} (h : v.Spares w touched) (hsub : touched ⊆ more) :
    v.Spares w more where
  tidy := h.tidy
  folders := h.folders
  names a ha := h.names a fun hmem => ha (hsub hmem)
  contents a n ha := h.contents a n fun hmem => ha (hsub hmem)

theorem openFile_eq (h : v.Spares w touched) (hpath : ∀ a, v.place path = .file a → a ∉ touched) :
    w.openFile path = v.openFile path := by
  rw [openFile, openFile, place_eq_of_folders w v h.folders]
  cases hplace : v.place path with
  | file a => simp only [h.names a (hpath a hplace)]
  | folder => rfl
  | nowhere fault => rfl

theorem content_eq (h : v.Spares w touched) (hpath : ∀ a, v.place path = .file a → a ∉ touched)
    {n : FileNumber} (hn : v.openFile path = .ok n) : w.content n = v.content n := by
  obtain ⟨a, hplace, hname⟩ := openFile_eq_ok.mp hn
  exact h.contents a n (hpath a hplace) hname

end Spares

theorem Spares.load_eq (h : v.Spares w touched)
    (hpath : ∀ a, v.place path = .file a → a ∉ touched) : w.load path = v.load path := by
  cases hn : v.openFile path with
  | error fault => rw [load, load, h.openFile_eq hpath, hn]; rfl
  | ok n =>
    rw [load_of_openFile hn, load_of_openFile ((h.openFile_eq hpath).trans hn),
      h.content_eq hpath hn]

/-- Where two volumes have the same bytes under a path, both have a file there or neither does. -/
theorem openFile_cases_of_load (h : w.load path = v.load path) :
    (∃ fault, v.openFile path = .error fault ∧ w.openFile path = .error fault) ∨
    ∃ n m, v.openFile path = .ok n ∧ w.openFile path = .ok m ∧ w.content m = v.content n := by
  have hopened (u : Volume) : u.load path = (u.openFile path).map u.content := rfl
  rw [hopened, hopened] at h
  cases hv : v.openFile path with
  | error fault =>
    cases hw : w.openFile path with
    | error fault' =>
      rw [hv, hw] at h
      obtain rfl : fault' = fault := Except.error.inj h
      exact .inl ⟨fault', rfl, rfl⟩
    | ok m =>
      rw [hv, hw] at h
      cases h
  | ok n =>
    cases hw : w.openFile path with
    | error fault =>
      rw [hv, hw] at h
      cases h
    | ok m =>
      rw [hv, hw] at h
      exact .inr ⟨n, m, rfl, rfl, Except.ok.inj h⟩

/-! ## Single steps -/

/-- What changes the bytes of one file spares the others. -/
theorem spares_of_content (hv : v.Tidy) {a : String} {n : FileNumber} (ha : v.names[a]? = some n)
    (hnames : w.names = v.names) (hfolders : w.folders = v.folders) (hnext : w.next = v.next)
    (hcontent : ∀ m, n ≠ m → w.content m = v.content m) : v.Spares w {a} where
  tidy := ⟨by rw [hnames]; exact hv.name_eq, by rw [hnames, hnext]; exact hv.lt_next⟩
  folders := hfolders
  names _ _ := by rw [hnames]
  contents b m hb hm := hcontent m fun hnm => hb (hv.name_eq b a m hm (hnm ▸ ha))

theorem spares_setContent (hv : v.Tidy) {a : String} {n : FileNumber} (ha : v.names[a]? = some n)
    (b : ByteArray) : v.Spares (v.setContent n b) {a} :=
  spares_of_content hv ha rfl rfl rfl fun m hm => by rw [content_setContent, if_neg hm]

theorem spares_overwrite (hv : v.Tidy) {a : String} {n : FileNumber} (ha : v.names[a]? = some n)
    (i : Nat) (b : ByteArray) : v.Spares (v.overwrite n i b) {a} :=
  spares_of_content hv ha rfl rfl rfl fun _ hm => content_overwrite_ne v i b hm

theorem Tidy.insert_next (hv : v.Tidy) (a : String) :
    v.Spares { v with names := v.names.insert a v.next, next := v.next + 1 } {a} := by
  have hnew : (v.names.insert a v.next)[a]? = some v.next := Std.ExtTreeMap.getElem?_insert_self
  have hold : ∀ b, b ≠ a → (v.names.insert a v.next)[b]? = v.names[b]? := fun b hb => by
    rw [Std.ExtTreeMap.getElem?_insert, if_neg]
    simpa using Ne.symm hb
  -- The number of the new file is above those of the others.
  have hlt : ∀ (b : String) (m : FileNumber), b ≠ a → (v.names.insert a v.next)[b]? = some m →
      m < v.next := fun b m hb hm => hv.lt_next b m ((hold b hb).symm.trans hm)
  refine ⟨⟨fun b c m hb hc => ?_, fun b m hm => ?_⟩, rfl, hold, fun _ _ _ _ => rfl⟩
  · by_cases hba : b = a
    · by_cases hca : c = a
      · rw [hba, hca]
      · obtain rfl : v.next = m := Option.some.inj (hnew.symm.trans (hba ▸ hb))
        exact absurd (hlt c v.next hca hc) (Nat.lt_irrefl _)
    · by_cases hca : c = a
      · obtain rfl : v.next = m := Option.some.inj (hnew.symm.trans (hca ▸ hc))
        exact absurd (hlt b v.next hba hb) (Nat.lt_irrefl _)
      · exact hv.name_eq b c m ((hold b hba).symm.trans hb) ((hold c hca).symm.trans hc)
  · by_cases hba : b = a
    · obtain rfl : v.next = m := Option.some.inj (hnew.symm.trans (hba ▸ hm))
      exact Nat.lt_succ_self v.next
    · exact Nat.lt_succ_of_lt (hlt b m hba hm)

theorem Tidy.move (hv : v.Tidy) {a : String} (b : String) {n : FileNumber}
    (ha : v.names[a]? = some n) :
    v.Spares { v with names := (v.names.erase a).insert b n } {a, b} := by
  -- A name leads to what it led to before, but for the two.
  have hnames : ∀ (c : String) (m : FileNumber), ((v.names.erase a).insert b n)[c]? = some m →
      c = b ∧ m = n ∨ c ≠ a ∧ v.names[c]? = some m := fun c m hm => by
    by_cases hcb : b = c
    · rw [hcb, Std.ExtTreeMap.getElem?_insert_self, Option.some.injEq] at hm
      exact .inl ⟨hcb.symm, hm.symm⟩
    · by_cases hca : a = c
      · simp [hcb, hca] at hm
      · refine .inr ⟨Ne.symm hca, ?_⟩
        simpa [Std.ExtTreeMap.getElem?_insert, Std.ExtTreeMap.getElem?_erase, hcb, hca] using hm
  refine ⟨⟨fun c d m hc hd => ?_, fun c m hm => ?_⟩, rfl, fun c hc => ?_, fun _ _ _ _ => rfl⟩
  · obtain ⟨rfl, rfl⟩ | ⟨hca, hc'⟩ := hnames c m hc
    · obtain ⟨rfl, -⟩ | ⟨hda, hd'⟩ := hnames d m hd
      · rfl
      · exact absurd (hv.name_eq d a m hd' ha) hda
    · obtain ⟨rfl, rfl⟩ | ⟨-, hd'⟩ := hnames d m hd
      · exact absurd (hv.name_eq c a m hc' ha) hca
      · exact hv.name_eq c d m hc' hd'
  · obtain ⟨-, rfl⟩ | ⟨-, hm⟩ := hnames c m hm
    · exact hv.lt_next a m ha
    · exact hv.lt_next c m hm
  · obtain ⟨hca, hcb⟩ := not_or.mp hc
    simp [Std.ExtTreeMap.getElem?_insert, Std.ExtTreeMap.getElem?_erase, Ne.symm hca, Ne.symm hcb]

/-- Creating a file spares all but the one of its name, which the path leads to from then on. -/
theorem spares_createFile (hv : v.Tidy) {n : FileNumber} (h : v.createFile path = .ok (n, w)) :
    ∃ a, v.place path = .file a ∧ w.names[a]? = some n ∧ v.Spares w {a} := by
  rw [createFile] at h
  cases hplace : v.place path with
  | folder => simp [hplace] at h
  | nowhere fault => simp [hplace] at h
  | file a =>
    refine ⟨a, rfl, ?_⟩
    cases hname : v.names[a]? with
    | some m =>
      simp only [hplace, hname, Except.ok.injEq, Prod.mk.injEq] at h
      obtain ⟨rfl, rfl⟩ := h
      exact ⟨hname, spares_setContent hv hname _⟩
    | none =>
      simp only [hplace, hname, Except.ok.injEq, Prod.mk.injEq] at h
      obtain ⟨rfl, rfl⟩ := h
      have hnamed : (v.names.insert a v.next)[a]? = some v.next :=
        Std.ExtTreeMap.getElem?_insert_self
      have hspares := hv.insert_next a
      exact ⟨hnamed, hspares.trans (spares_setContent hspares.tidy hnamed _)⟩

/-- Moving a file to another name spares all but those of the two names; the first one then leads
nowhere. -/
theorem spares_rename (hv : v.Tidy) {source target a b : String} {n : FileNumber}
    (hsource : v.place source = .file a) (htarget : v.place target = .file b)
    (hname : v.names[a]? = some n) :
    ∃ w, v.rename source target = .ok w ∧ w.names[b]? = some n ∧
      (a ≠ b → w.names[a]? = none) ∧ w.files = v.files ∧ v.Spares w {a, b} := by
  refine ⟨{ v with names := (v.names.erase a).insert b n }, ?_, ?_, fun hab => ?_, rfl,
    hv.move b hname⟩
  · simp only [rename, hsource, htarget, hname]
  · exact Std.ExtTreeMap.getElem?_insert_self
  · simp [Ne.symm hab]

end Volume

namespace LogStore

open FrameLog

/-- The store is open: its file is the one that the path leads to. -/
structure Seated (s : LogStore) (path : String) (v : Volume) : Prop where
  path_eq : s.path = path
  opened : v.openFile path = .ok s.file

theorem Seated.of_spares {s : LogStore} {path : String} {v w : Volume} {touched : Set String}
    (hs : s.Seated path v) (h : v.Spares w touched)
    (hpath : ∀ a, v.place path = .file a → a ∉ touched) : s.Seated path w :=
  ⟨hs.path_eq, (h.openFile_eq hpath).trans hs.opened⟩

/-- What a store is given and knows, and what its file holds. -/
def state (s : LogStore) (v : Volume) : Codec × Nat × Index × ByteArray :=
  (s.codec, s.tail, s.index, v.content s.file)

theorem Seated.state_of_spares {s : LogStore} {path : String} {v w : Volume} {touched : Set String}
    (hs : s.Seated path v) (h : v.Spares w touched)
    (hpath : ∀ a, v.place path = .file a → a ∉ touched) : s.state w = s.state v := by
  rw [state, state, h.content_eq hpath hs.opened]

/-- What becomes of a volume by an action on the store at a path: if it fails, nothing; otherwise the
store is open after it, and the files of other names are spared. -/
def Contained (path : String) (touched : Set String) (v : Volume) :
    Except Error LogStore × Volume → Prop
  | (.ok s, w) => s.Seated path w ∧ v.Spares w touched
  | (.error _, w) => w = v

/-- The names of the files that a store at the path may change. -/
def reach (v : Volume) (path : String) (compacts : Bool) : Set String :=
  {a | v.place path = .file a ∨
    compacts = true ∧ v.place (PathText.compactionFile path) = .file a}

variable {c : Codec} {s : LogStore} {v : Volume} {path : String}

theorem singleton_subset_reach {a : String} (h : v.place path = .file a) (compacts : Bool) :
    {a} ⊆ reach v path compacts := by
  rintro _ rfl
  exact .inl h

theorem create_contained (hv : v.Tidy) (compacts : Bool) :
    Contained path (reach v path compacts) v (create c path v) := by
  rw [create_eq]
  cases hcreate : v.createFile path with
  | error fault => rfl
  | ok r =>
    obtain ⟨n, w⟩ := r
    obtain ⟨a, hplace, hname, hspares⟩ := Volume.spares_createFile hv hcreate
    have hset := Volume.spares_setContent hspares.tidy hname header
    refine ⟨⟨rfl, Volume.openFile_eq_ok.mpr ⟨a, ?_, hname⟩⟩,
      (hspares.trans hset).mono (singleton_subset_reach hplace compacts)⟩
    rw [Volume.place_eq_of_folders (w.setContent n header) v hspares.folders, hplace]

theorem openExisting_contained (hv : v.Tidy) (compacts : Bool) :
    Contained path (reach v path compacts) v (openExisting c path v) := by
  rw [openExisting_eq]
  cases hopen : v.openFile path with
  | error fault => rfl
  | ok n =>
    obtain ⟨a, hplace, hname⟩ := Volume.openFile_eq_ok.mp hopen
    dsimp only
    cases checkHeader (v.content n) with
    | error e => rfl
    | ok _ =>
      cases replay (v.content n) with
      | error defect => rfl
      | ok r =>
        obtain ⟨index, tail⟩ := r
        by_cases htail : tail < (v.content n).size
        · have hset := Volume.spares_setContent hv hname ((v.content n).extract 0 tail)
          simp only [if_pos htail]
          refine ⟨⟨rfl, ?_⟩, hset.mono (singleton_subset_reach hplace compacts)⟩
          rw [Volume.openFile_setContent, hopen]
        · simp only [if_neg htail]
          exact ⟨⟨rfl, hopen⟩, .refl hv⟩

theorem openOrCreate_contained (hv : v.Tidy) (compacts : Bool) :
    Contained path (reach v path compacts) v (openOrCreate c path v) := by
  rw [openOrCreate, run_bind, run_get]
  dsimp only
  split
  · exact openExisting_contained hv compacts
  · exact create_contained hv compacts

theorem append_contained (hv : v.Tidy) (hs : s.Seated path v) (batch : WriteBatch)
    (compacts : Bool) :
    Contained path (reach v path compacts) v (s.append batch v) := by
  obtain ⟨a, hplace, hname⟩ := Volume.openFile_eq_ok.mp hs.opened
  change (s.write batch v).1.Seated path (s.write batch v).2 ∧
    v.Spares (s.write batch v).2 (reach v path compacts)
  cases hempty : batch.isEmpty with
  | true =>
    rw [write, if_pos hempty]
    exact ⟨hs, .refl hv⟩
  | false =>
    rw [write, if_neg (by simp [hempty])]
    refine ⟨⟨hs.path_eq, ?_⟩,
      (Volume.spares_overwrite hv hname _ _).mono (singleton_subset_reach hplace compacts)⟩
    rw [Volume.openFile_overwrite, hs.opened]

/-- A compaction that can read the values and make its side file moves that to the path of the store,
and the name of the side file is gone; if there was a file of that name, it is the one that moves. -/
theorem compact_moves (hv : v.Tidy) (hs : s.Seated path v) {records : List Record}
    (hrecords : s.liveRecords v = .ok records) {a : String}
    (hside : v.place (PathText.compactionFile path) = .file a) :
    ∃ s' w b, s.compact v = (.ok s', w) ∧ v.place path = .file b ∧ s'.Seated path w ∧
      s'.state w = (s.codec, headerSize + (frame records).1.size,
        applyLocations ∅ headerSize (frame records).2, header ++ (frame records).1) ∧
      (∀ n, v.openFile (PathText.compactionFile path) = .ok n → s'.file = n) ∧
      (a ≠ b → w.names[a]? = none) ∧ v.Spares w {a, b} := by
  obtain rfl := hs.path_eq
  obtain ⟨b, htarget, -⟩ := Volume.openFile_eq_ok.mp hs.opened
  obtain ⟨n, u, hcreate, -, -, hfound⟩ := Volume.createFile_eq hside
  obtain ⟨_, hside', hname, hcreated⟩ := Volume.spares_createFile hv hcreate
  obtain rfl := Place.file.inj (hside.symm.trans hside')
  have hfilled := hcreated.trans
    (Volume.spares_setContent hcreated.tidy hname (header ++ (frame records).1))
  have hplace := Volume.place_eq_of_folders (u.setContent n (header ++ (frame records).1)) v
    hfilled.folders
  obtain ⟨w, hrename, hmoved, hgone, hfiles, hspares⟩ := Volume.spares_rename hfilled.tidy
    ((hplace _).trans hside) ((hplace _).trans htarget) hname
  have hopen : w.openFile s.path = .ok n := Volume.openFile_eq_ok.mpr ⟨b, by
    rw [Volume.place_eq_of_folders w _ hspares.folders, hplace, htarget], hmoved⟩
  have hcontent : w.content n = header ++ (frame records).1 := by
    rw [Volume.content, hfiles]
    exact (Volume.content_setContent u n n _).trans (if_pos rfl)
  let s' : LogStore :=
    { s with
      file := n
      tail := headerSize + (frame records).1.size
      index := applyLocations ∅ headerSize (frame records).2 }
  refine ⟨s', w, b, ?_, htarget, ⟨rfl, hopen⟩, ?_, hfound, hgone, ?_⟩
  · rw [compact_eq]
    simp only [hrecords, hcreate, hrename, hopen, s']
  · rw [state, hcontent]
  · exact (hfilled.mono fun c hc => .inl hc).trans hspares

/-- Otherwise it fails at once. -/
theorem compact_stuck {e : Error} (h : s.liveRecords v = .error e) :
    s.compact v = (.error e, v) := by
  rw [compact_eq]
  simp only [h]

theorem compact_sideless (hs : s.Seated path v) {records : List Record}
    (hrecords : s.liveRecords v = .ok records) {fault : IoFault}
    (hside : v.createFile (PathText.compactionFile path) = .error fault) :
    s.compact v = (.error (.io fault), v) := by
  obtain rfl := hs.path_eq
  rw [compact_eq]
  simp only [hrecords, hside]

theorem compact_contained (hv : v.Tidy) (hs : s.Seated path v) :
    Contained path (reach v path true) v (s.compact v) := by
  cases hrecords : s.liveRecords v with
  | error e =>
    rw [compact_stuck hrecords]
    rfl
  | ok records =>
    cases hcreate : v.createFile (PathText.compactionFile path) with
    | error fault =>
      rw [compact_sideless hs hrecords hcreate]
      rfl
    | ok r =>
      obtain ⟨a, hside, -, -⟩ := Volume.spares_createFile hv hcreate
      obtain ⟨s', w, b, hrun, htarget, hs', -, -, -, hspares⟩ :=
        compact_moves hv hs hrecords hside
      rw [hrun]
      refine ⟨hs', hspares.mono ?_⟩
      rintro c (rfl | rfl)
      · exact .inr ⟨rfl, hside⟩
      · exact .inl htarget

theorem Operation.perform_contained (hv : v.Tidy) (hs : s.Seated path v) (op : Operation) :
    Contained path (reach v path (op = .compact)) v (op.perform s v) := by
  cases op with
  | put key value => exact append_contained hv hs [.put key value] _
  | delete key => exact append_contained hv hs [.delete key] _
  | write batch => exact append_contained hv hs batch _
  | compact => exact compact_contained hv hs
  | reopen =>
    rw [Operation.perform, hs.path_eq]
    exact openExisting_contained hv _

end LogStore

end VersionedTrie
