import VersionedTrie.Documents
import VersionedTrie.Proofs.Json.Records
import VersionedTrie.Proofs.Json.Rendering
import VersionedTrie.Proofs.Lineage.Ledger
import VersionedTrie.Proofs.LogStore.Laid
import VersionedTrie.Proofs.Reapplying
import Mathlib.Data.List.Basic
import Mathlib.Data.Set.List

/-! # Journals as texts

A journal is read back from its text, and from a file that the text has been saved to. And a text
that is read as a journal, wherever it comes from, names node keys only: `RawJournal` is what it
names before anything is checked, and the journal is exactly that (`RawJournal.ofJson?_eq_some`).
So the deletes of the journal are those of the store keys that the text names
(`Journal.faithful_text`). Without the check a prefix of more than 255 bytes would make a store key
that belongs to another node key (`RawKey.encode_of_dvd`).
-/

set_option autoImplicit false

namespace VersionedTrie

open Json (Value Text Layout)

/-! ## Files -/

/-- A text that is saved is loaded. -/
theorem Volume.loadText_save {v w : Volume} {path text : String}
    (h : v.save path text.toUTF8 = .ok w) : w.loadText path = .ok text := by
  rw [save] at h
  cases hplace : v.place path with
  | folder => simp [createFile, hplace, bind, Except.bind] at h
  | nowhere fault => simp [createFile, hplace, bind, Except.bind] at h
  | file name =>
    obtain ⟨n, u, hcreate, hname, hfolders, -⟩ := createFile_eq hplace
    rw [hcreate] at h
    obtain rfl : u.setContent n text.toUTF8 = w := Except.ok.inj h
    have hopen : (u.setContent n text.toUTF8).openFile path = .ok n := by
      rw [openFile_setContent]
      exact openFile_eq_ok.mpr ⟨name, (place_eq_of_folders _ v hfolders path).trans hplace, hname⟩
    have hload : (u.setContent n text.toUTF8).load path = .ok text.toUTF8 := by
      rw [load_of_openFile hopen, content_setContent, if_pos rfl]
    have htext : String.fromUTF8? text.toUTF8 = some text := dif_pos text.isValidUTF8
    rw [loadText, hload]
    simp only [bind, Except.bind, htext, pure, Except.pure]

/-! ## Node keys -/

theorem Digest.ofJson?_bytes (d : Digest) : Digest.ofJson? (.ofBytes d.bytes) = some d := by
  rw [Digest.ofJson?, Value.bytes?_ofBytes]
  exact Digest.ofBytes?_bytes d

namespace NodeKey

theorem ofJson?_toJson (k : NodeKey) : NodeKey.ofJson? k.toJson = some k := by
  have hfields : k.toJson.fields? ["version", "prefix", "path"] =
      some [some (.natural k.version.toNat), some (.ofBytes k.tree.bytes),
        some (.ofBytes k.stored.bytes)] := Value.fields?_record (by decide) rfl
  have hversion : Value.word? (.natural k.version.toNat) = some k.version := by
    rw [Value.word?, if_pos k.version.toNat_lt]
    simp
  have htree : TreePrefix.ofBytes? k.tree.bytes = some k.tree := dif_pos k.tree.size_le
  have hpath : Path.ofBytes? k.stored.bytes = some k.path := by
    rw [← k.stored.bytes_toPath, Path.ofBytes?_bytes, path]
  simp only [NodeKey.ofJson?, hfields, hversion, Value.bytes?_ofBytes, htree, hpath,
    Option.bind_eq_bind, Option.bind_some, Option.pure_def, ofPath_path]

end NodeKey

namespace Journal

theorem ofJson?_toJson (j : Journal) : Journal.ofJson? j.toJson = some j := by
  have hfields : j.toJson.fields? ["root_hash", "root_key", "dirty", "prune"] =
      some [some (.ofBytes j.root.bytes), some (.ofOption NodeKey.toJson j.rootKey),
        some (.array (j.written.map fun e => .array [e.1.toJson, .ofBytes e.2])),
        some (.array (j.superseded.toList.map NodeKey.toJson))] := Value.fields?_record (by decide) rfl
  have hrootKey : Value.optional? NodeKey.ofJson? (some (.ofOption NodeKey.toJson j.rootKey)) =
      some j.rootKey := by
    cases j.rootKey with
    | none => rfl
    | some k =>
      have hread : Value.nullable? NodeKey.ofJson? k.toJson = (NodeKey.ofJson? k.toJson).map some :=
        rfl
      rw [Value.ofOption, Value.optional?, hread, NodeKey.ofJson?_toJson, Option.map_some]
  have hwritten : Value.listOf? entryOfJson?
      (.array (j.written.map fun e => .array [e.1.toJson, .ofBytes e.2])) = some j.written := by
    refine Value.listOf?_array fun e _ => ?_
    simp only [entryOfJson?, NodeKey.ofJson?_toJson, Value.bytes?_ofBytes, Option.bind_eq_bind,
      Option.bind_some, Option.pure_def]
  have hsuperseded : Value.listOf? NodeKey.ofJson?
      (.array (j.superseded.toList.map NodeKey.toJson)) = some j.superseded.toList :=
    Value.listOf?_array fun k _ => k.ofJson?_toJson
  have hset : Std.ExtTreeSet.ofList j.superseded.toList = j.superseded := by
    refine Std.ExtTreeSet.ext_mem fun k => ?_
    rw [Std.ExtTreeSet.mem_ofList]
    simp
  simp only [Journal.ofJson?, hfields, Digest.ofJson?_bytes, hrootKey, hwritten, hsuperseded,
    Option.bind_eq_bind, Option.bind_some, Option.pure_def, hset]

end Journal

/-! ## What a text names -/

/-- A node key as it is named, whether or not there is such a node key. -/
structure RawKey where
  version : Version
  tree : ByteArray
  path : ByteArray
  deriving DecidableEq

namespace RawKey

def of (k : NodeKey) : RawKey := ⟨k.version, k.tree.bytes, k.stored.bytes⟩

def ofJson? (v : Value) : Option RawKey := do
  match ← v.fields? ["version", "prefix", "path"] with
  | [some version, some tree, some path] =>
    let version ← version.word?
    let tree ← tree.bytes?
    let path ← path.bytes?
    pure ⟨version, tree, path⟩
  | _ => none

structure Valid (r : RawKey) : Prop where
  size_le : r.tree.size ≤ 255
  nibbles : ∀ x ∈ r.path.data.toList, x.toNat < 16

/-- The store key that the parts make, with as much of the size of the prefix as one byte gives. -/
def encode (r : RawKey) : ByteArray :=
  Bytes.bigBytes 8 r.version.toNat ++ (Bytes.littleBytes 1 r.tree.size ++ (r.tree ++ r.path))

theorem encode_of (k : NodeKey) : (of k).encode = k.encode := rfl

/-- A prefix whose size does not show in one byte is taken for part of the path. -/
theorem encode_of_dvd {r : RawKey} (h : 256 ∣ r.tree.size) :
    r.encode = (⟨r.version, ByteArray.empty, r.tree ++ r.path⟩ : RawKey).encode := by
  have hsize : Bytes.littleBytes 1 r.tree.size = Bytes.littleBytes 1 0 := by
    obtain ⟨n, hn⟩ := h
    rw [Bytes.littleBytes, Bytes.littleBytes, hn, Bytes.little, Bytes.little]
    simp [Bytes.little]
  rw [encode, encode, hsize, ByteArray.size_empty, ByteArray.empty_append]

theorem of_injective : Function.Injective of := fun k k' h => by
  rw [← NodeKey.encode_inj, ← encode_of, ← encode_of, h]

theorem valid_iff {r : RawKey} : r.Valid ↔ ∃ k, of k = r := by
  constructor
  · rintro ⟨hsize, hnibbles⟩
    obtain ⟨p, hp⟩ := Path.exists_bytes_eq.mpr hnibbles
    exact ⟨⟨r.version, ⟨r.tree, hsize⟩, ⟨r.path, p, hp⟩⟩, rfl⟩
  · rintro ⟨k, rfl⟩
    exact ⟨k.tree.size_le, Path.exists_bytes_eq.mp k.stored.isStored⟩

theorem of_ofPath (version : Version) (tree : TreePrefix) (path : Path) :
    of (.ofPath version tree path) = ⟨version, tree.bytes, path.bytes⟩ := rfl

/-- A node key is read where it is named. -/
theorem ofJson?_eq_some (v : Value) (k : NodeKey) :
    NodeKey.ofJson? v = some k ↔ RawKey.ofJson? v = some (of k) := by
  rw [NodeKey.ofJson?, RawKey.ofJson?]
  cases v.fields? ["version", "prefix", "path"] with
  | none => simp
  | some fields =>
    simp only [Option.bind_eq_bind, Option.bind_some]
    split
    · simp only [Option.bind_eq_some_iff, Option.pure_def, Option.some.injEq]
      constructor
      · rintro ⟨version, hversion, b, hb, tree, htree, c, hc, path, hpath, rfl⟩
        refine ⟨version, hversion, b, hb, c, hc, ?_⟩
        rw [of_ofPath, TreePrefix.bytes_of_ofBytes? htree, Path.bytes_of_ofBytes? hpath]
      · rintro ⟨version, hversion, b, hb, c, hc, he⟩
        obtain ⟨rfl, rfl, rfl⟩ := RawKey.mk.inj he
        refine ⟨_, hversion, _, hb, k.tree, dif_pos k.tree.size_le, _, hc, k.path, ?_, k.ofPath_path⟩
        rw [← k.stored.bytes_toPath, Path.ofBytes?_bytes, NodeKey.path]
    · simp

end RawKey

/-- A journal as it is named. -/
structure RawJournal where
  root : Digest
  rootKey : Option RawKey
  written : List (RawKey × ByteArray)
  superseded : List RawKey

namespace RawJournal

def keys (r : RawJournal) : List RawKey :=
  r.rootKey.toList ++ (r.written.map (·.1) ++ r.superseded)

def entryOfJson? : Value → Option (RawKey × ByteArray)
  | .array [key, b] => do pure (← RawKey.ofJson? key, ← b.bytes?)
  | _ => none

def ofJson? (v : Value) : Option RawJournal := do
  match ← v.fields? ["root_hash", "root_key", "dirty", "prune"] with
  | [some root, rootKey, some written, some superseded] =>
    let root ← Digest.ofJson? root
    let rootKey ← Value.optional? RawKey.ofJson? rootKey
    let written ← written.listOf? entryOfJson?
    let superseded ← superseded.listOf? RawKey.ofJson?
    pure ⟨root, rootKey, written, superseded⟩
  | _ => none

/-- The journal, with the node keys in the order in which a text may name them. -/
def of (j : Journal) (superseded : List NodeKey) : RawJournal where
  root := j.root
  rootKey := j.rootKey.map RawKey.of
  written := j.written.map fun (key, b) => (RawKey.of key, b)
  superseded := superseded.map RawKey.of

theorem entryOfJson?_eq_some (v : Value) (e : NodeKey × ByteArray) :
    Journal.entryOfJson? v = some e ↔ entryOfJson? v = some (RawKey.of e.1, e.2) := by
  obtain ⟨k, b⟩ := e
  rw [Journal.entryOfJson?.eq_def, entryOfJson?.eq_def]
  split
  · simp only [Option.bind_eq_bind, Option.bind_eq_some_iff, Option.pure_def, Option.some.injEq]
    constructor
    · rintro ⟨k', hk, b', hb, he⟩
      obtain ⟨rfl, rfl⟩ := Prod.mk.inj he
      exact ⟨_, (RawKey.ofJson?_eq_some _ _).mp hk, _, hb, rfl⟩
    · rintro ⟨r, hr, b', hb, he⟩
      obtain ⟨rfl, rfl⟩ := Prod.mk.inj he
      exact ⟨_, (RawKey.ofJson?_eq_some _ _).mpr hr, _, hb, rfl⟩
  · simp

/-- A journal is read where it is named. -/
theorem ofJson?_eq_some {v : Value} {j : Journal} :
    Journal.ofJson? v = some j ↔
      ∃ ks, j.superseded = Std.ExtTreeSet.ofList ks ∧ RawJournal.ofJson? v = some (of j ks) := by
  rw [Journal.ofJson?, RawJournal.ofJson?]
  cases v.fields? ["root_hash", "root_key", "dirty", "prune"] with
  | none => simp
  | some fields =>
    simp only [Option.bind_eq_bind, Option.bind_some]
    split
    · simp only [Option.bind_eq_some_iff, Option.pure_def, Option.some.injEq]
      constructor
      · rintro ⟨root, hroot, rootKey, hrootKey, written, hwritten, ks, hks, rfl⟩
        exact ⟨ks, rfl, root, hroot,
          _, (Value.optional?_eq_some_iff RawKey.ofJson?_eq_some).mp hrootKey,
          _, (Value.listOf?_eq_some_iff entryOfJson?_eq_some).mp hwritten,
          _, (Value.listOf?_eq_some_iff RawKey.ofJson?_eq_some).mp hks, rfl⟩
      · rintro ⟨ks, hset, root, hroot, rootKey, hrootKey, written, hwritten, rs, hrs, he⟩
        obtain ⟨rfl, rfl, rfl, rfl⟩ := RawJournal.mk.inj he
        obtain ⟨root, rootKey, written, superseded⟩ := j
        obtain rfl : superseded = Std.ExtTreeSet.ofList ks := hset
        exact ⟨_, hroot,
          _, (Value.optional?_eq_some_iff RawKey.ofJson?_eq_some).mpr hrootKey,
          _, (Value.listOf?_eq_some_iff entryOfJson?_eq_some).mpr hwritten,
          _, (Value.listOf?_eq_some_iff RawKey.ofJson?_eq_some).mpr hrs, rfl⟩
    · simp

/-- Where all node keys are valid, a journal is named. -/
theorem exists_of {r : RawJournal} (h : ∀ k ∈ r.keys, k.Valid) :
    ∃ (j : Journal) (ks : List NodeKey), j.superseded = Std.ExtTreeSet.ofList ks ∧ of j ks = r := by
  have hkeys : ∀ k ∈ r.keys, ∃ key, RawKey.of key = k := fun k hk => RawKey.valid_iff.mp (h k hk)
  obtain ⟨root, rootKey, written, superseded⟩ := r
  obtain ⟨rootKey, rfl⟩ : ∃ k : Option NodeKey, k.map RawKey.of = rootKey := by
    cases rootKey with
    | none => exact ⟨none, rfl⟩
    | some k =>
      obtain ⟨key, hkey⟩ := hkeys k (by simp [keys])
      exact ⟨some key, congrArg some hkey⟩
  obtain ⟨written, rfl⟩ : written ∈
      Set.range (List.map fun (key, b) => (RawKey.of key, b)) := by
    rw [Set.range_list_map]
    rintro ⟨k, b⟩ he
    have hk : k ∈ written.map (·.1) := List.mem_map.mpr ⟨_, he, rfl⟩
    obtain ⟨key, hkey⟩ := hkeys k (by simp only [keys, List.mem_append, hk, true_or, or_true])
    exact ⟨(key, b), congrArg (·, b) hkey⟩
  obtain ⟨ks, rfl⟩ : superseded ∈ Set.range (List.map RawKey.of) := by
    rw [Set.range_list_map]
    exact fun k hk => hkeys k (by simp [keys, hk])
  exact ⟨⟨root, rootKey, written, .ofList ks⟩, ks, rfl, rfl⟩

/-- What is known of a journal by what names it. -/
structure Names (r : RawJournal) (j : Journal) : Prop where
  /-- Every node key has a prefix that fits and a path of nibbles, -/
  valid : ∀ k ∈ r.keys, k.Valid
  /-- and is what its store key is decoded to. -/
  decodes : ∀ k ∈ r.keys, ∃ key, RawKey.of key = k ∧ NodeKey.decode k.encode = .ok key
  root : j.root = r.root
  rootKey : j.rootKey.map RawKey.of = r.rootKey
  written : j.written.map (fun (key, b) => (RawKey.of key, b)) = r.written
  superseded : ∀ key, key ∈ j.superseded ↔ RawKey.of key ∈ r.superseded
  /-- The deletes are those of the store keys named, -/
  deletes : ∀ op, op ∈ j.deletes ↔ ∃ k ∈ r.superseded, op = .delete k.encode
  /-- and by them these are gone from a store, and nothing else. -/
  prunes : ∀ (c : Access) (held : Contents), c.Accepts held → ∃ d left,
    j.prune c = (.ok j.superseded.size, d) ∧ d.Accepts left ∧
    (∀ k ∈ r.superseded, left[k.encode]? = none) ∧
    ∀ b, (∀ k ∈ r.superseded, k.encode ≠ b) → left[b]? = held[b]?

theorem names_of {j : Journal} {ks : List NodeKey}
    (hset : j.superseded = Std.ExtTreeSet.ofList ks) : (of j ks).Names j := by
  have hmem : ∀ key, key ∈ j.superseded ↔ RawKey.of key ∈ ks.map RawKey.of := fun key => by
    rw [hset, Std.ExtTreeSet.mem_ofList, List.contains_iff_mem]
    exact (List.mem_map_of_injective RawKey.of_injective).symm
  have hkeys : ∀ k ∈ (of j ks).keys, ∃ key, RawKey.of key = k := by
    intro k hk
    simp only [keys, of, List.mem_append, List.mem_map, Option.mem_toList,
      Option.map_eq_some_iff] at hk
    obtain ⟨key, -, rfl⟩ | ⟨_, ⟨⟨key, b⟩, -, rfl⟩, rfl⟩ | ⟨key, -, rfl⟩ := hk
    · exact ⟨key, rfl⟩
    · exact ⟨key, rfl⟩
    · exact ⟨key, rfl⟩
  refine ⟨fun k hk => RawKey.valid_iff.mpr (hkeys k hk), fun k hk => ?_, rfl, rfl, rfl, hmem,
    fun op => ?_, fun c held hc => ?_⟩
  · obtain ⟨key, rfl⟩ := hkeys k hk
    rw [RawKey.encode_of]
    exact ⟨key, rfl, NodeKey.decode_encode key⟩
  · rw [Journal.deletes, List.mem_map]
    constructor
    · rintro ⟨key, hkey, rfl⟩
      refine ⟨RawKey.of key, (hmem key).mp (Std.ExtTreeSet.mem_toList.mp hkey), ?_⟩
      rw [RawKey.encode_of]
    · rintro ⟨k, hk, rfl⟩
      obtain ⟨key, -, rfl⟩ := List.mem_map.mp hk
      refine ⟨key, Std.ExtTreeSet.mem_toList.mpr ((hmem key).mpr hk), ?_⟩
      rw [RawKey.encode_of]
  · obtain ⟨d, hrun, hd⟩ := hc.prune j
    refine ⟨d, _, hrun, hd, fun k hk => ?_, fun b hb => ?_⟩
    · obtain ⟨key, -, rfl⟩ := List.mem_map.mp hk
      rw [RawKey.encode_of]
      exact Journal.getElem?_deletes_mem ((hmem key).mpr hk)
    · refine Journal.getElem?_deletes_ne fun key hkey => ?_
      rw [← RawKey.encode_of]
      exact hb _ ((hmem key).mp hkey)

end RawJournal

/-! ## Texts -/

def Journal.ofText? (text : String) : Option Journal := Value.ofText? text >>= Journal.ofJson?

def RawJournal.ofText? (text : String) : Option RawJournal :=
  Value.ofText? text >>= RawJournal.ofJson?

theorem RawJournal.ofText?_eq_some {text : String} {j : Journal} :
    Journal.ofText? text = some j ↔
      ∃ ks, j.superseded = Std.ExtTreeSet.ofList ks ∧ RawJournal.ofText? text = some (of j ks) := by
  rw [Journal.ofText?, RawJournal.ofText?]
  cases Value.ofText? text with
  | none => simp
  | some v => exact ofJson?_eq_some

theorem Journal.ofText?_render (j : Journal) (l : Layout) :
    Journal.ofText? (j.toJson.render l) = some j := by
  rw [Journal.ofText?, Value.ofText?_render]
  exact j.ofJson?_toJson

namespace Journal

/-- A journal is read back from its text, in either layout, and from a file that the text has been
saved to. A text that is read as a journal names that journal, with valid node keys alone; and a text
that names a journal with valid node keys is read. -/
theorem faithful_text :
    (∀ (j : Journal) (l : Layout), Journal.ofText? (j.toJson.render l) = some j ∧
      ∀ (v w : Volume) (path : String), v.save path (j.toJson.render l).toUTF8 = .ok w →
        w.loadText path = .ok (j.toJson.render l)) ∧
    ∀ text : String,
      (∀ j, Journal.ofText? text = some j → ∃ r, RawJournal.ofText? text = some r ∧ r.Names j) ∧
      ∀ r, RawJournal.ofText? text = some r →
        ((∃ j, Journal.ofText? text = some j) ↔ ∀ k ∈ r.keys, k.Valid) := by
  refine ⟨fun j l => ⟨j.ofText?_render l, fun v w path => Volume.loadText_save⟩,
    fun text => ⟨fun j hj => ?_, fun r hr => ⟨?_, fun hvalid => ?_⟩⟩⟩
  · obtain ⟨ks, hset, hr⟩ := RawJournal.ofText?_eq_some.mp hj
    exact ⟨_, hr, RawJournal.names_of hset⟩
  · rintro ⟨j, hj⟩
    obtain ⟨ks, hset, hr'⟩ := RawJournal.ofText?_eq_some.mp hj
    obtain rfl := Option.some.inj (hr.symm.trans hr')
    exact (RawJournal.names_of hset).valid
  · obtain ⟨j, ks, hset, rfl⟩ := RawJournal.exists_of hvalid
    exact ⟨j, RawJournal.ofText?_eq_some.mpr ⟨ks, hset, hr⟩⟩

/-- The text of a journal that names one superseded node twice, in the two forms that records have. -/
def tampered (tree : ByteArray) : String :=
  Value.render .indented <| .object
    [(some "prune", .array
      [.object [(some "path", .ofBytes [2, 15].toByteArray), (some "version", .natural 3),
          (some "prefix", .ofBytes tree)],
        .array [.natural 3, .ofBytes tree, .ofBytes [2, 15].toByteArray]]),
      (some "note", .null), (some "dirty", .array []),
      (some "root_hash", .ofBytes Digest.placeholder.bytes)]

theorem ofText?_tampered (tree : ByteArray) : RawJournal.ofText? (tampered tree) =
    some ⟨Digest.placeholder, none, [], [⟨3, tree, [2, 15].toByteArray⟩,
      ⟨3, tree, [2, 15].toByteArray⟩]⟩ := by
  have hversion : Value.word? (.natural 3) = some 3 := by decide
  rw [tampered, RawJournal.ofText?, Value.ofText?_render]
  simp [RawJournal.ofJson?, Value.fields?, Value.fieldsOfMembers?, Value.field?, Value.optional?,
    Value.listOf?, Value.items?, RawKey.ofJson?, Value.bytes?_ofBytes, hversion,
    Digest.ofJson?_bytes]

theorem faithful_text_tampered :
    (∃ j r, Journal.ofText? (tampered [7].toByteArray) = some j ∧
      RawJournal.ofText? (tampered [7].toByteArray) = some r ∧ r.superseded.length = 2 ∧
      r.Names j) ∧
    ∃ tree r, tree.size = 256 ∧ RawJournal.ofText? (tampered tree) = some r ∧
      ¬∃ j, Journal.ofText? (tampered tree) = some j := by
  obtain ⟨-, hread⟩ := faithful_text
  constructor
  · obtain ⟨hnames, hloads⟩ := hread (tampered [7].toByteArray)
    have hvalid : RawKey.Valid ⟨3, [7].toByteArray, [2, 15].toByteArray⟩ :=
      ⟨by decide, by decide +kernel⟩
    obtain ⟨j, hj⟩ := (hloads _ (ofText?_tampered _)).mpr fun k hk => by
      obtain rfl | rfl := List.mem_pair.mp hk <;> exact hvalid
    obtain ⟨r, hr, hrj⟩ := hnames j hj
    refine ⟨j, r, hj, hr, ?_, hrj⟩
    obtain rfl := Option.some.inj ((ofText?_tampered _).symm.trans hr)
    rfl
  · obtain ⟨tree, htree⟩ : ∃ tree : ByteArray, tree.size = 256 :=
      ⟨⟨Array.replicate 256 0⟩, Array.size_replicate⟩
    refine ⟨tree, _, htree, ofText?_tampered tree, fun hloaded => ?_⟩
    have hvalid := ((hread _).2 _ (ofText?_tampered tree)).mp hloaded
    have hsize : tree.size ≤ 255 := (hvalid _ List.mem_cons_self).size_le
    omega

end Journal

end VersionedTrie
