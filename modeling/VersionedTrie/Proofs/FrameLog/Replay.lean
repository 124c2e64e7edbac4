import VersionedTrie.Proofs.FrameLog.Records
import VersionedTrie.Store.Batch

/-! # Replay

A frame in a file is found again at its position, whatever surrounds it (`payload?_eq_some`), and
its locations, counted from that position, lead to the values of its records (`Indexes.frame`).
Replaying a file of frames therefore gives the index that writing them has built, and stops at the
first place where no complete frame begins (`replay_frames`). On any file it stops at such a place,
if it does not fail (`payload?_of_replayFrom`).
-/

set_option autoImplicit false

namespace VersionedTrie.FrameLog

open Bytes

/-! ## What an index shows -/

/-- What a record does to contents whose values are compressed. -/
def operation : Record → WriteOp
  | (key, some value) => .put key value
  | (key, none) => .delete key

/-- As much of a value as its length in four bytes speaks of. -/
def clipped (value : ByteArray) : ByteArray := value.extract 0 (value.size % span 4)

@[simp] theorem size_clipped (value : ByteArray) : (clipped value).size = value.size % span 4 := by
  have := Nat.mod_le value.size (span 4)
  rw [clipped, ByteArray.size_extract]
  omega

theorem clipped_append (value : ByteArray) :
    clipped value ++ value.extract (value.size % span 4) value.size = value := by
  rw [clipped, ← ByteArray.extract_eq_extract_append_extract (value.size % span 4) (Nat.zero_le _)
    (Nat.mod_le _ _), ByteArray.extract_zero_size]

theorem clipped_eq_self {value : ByteArray} (h : value.size < span 4) : clipped value = value := by
  rw [clipped, Nat.mod_eq_of_lt h, ByteArray.extract_zero_size]

/-- What the index of a frame shows of a record. -/
def indexed : Record → WriteOp
  | (key, some value) => .put key (clipped value)
  | (key, none) => .delete key

theorem indexed_eq_operation {r : Record} (hr : FitsRecord r) : indexed r = operation r := by
  obtain ⟨key, _ | value⟩ := r
  · rfl
  · rw [indexed, operation, clipped_eq_self (hr.2 value rfl)]

/-- The index leads to the values of `held` in the file, and to nothing else. -/
structure Indexes (file : ByteArray) (index : Index) (held : Contents) : Prop where
  within : ∀ (key : ByteArray) (e : Extent), index[key]? = some e → e.offset + e.size ≤ file.size
  shows : ∀ key : ByteArray,
    (index[key]?).map (fun e => file.extract e.offset (e.offset + e.size)) = held[key]?

namespace Indexes

variable {file more key value : ByteArray} {index : Index} {held : Contents} {e : Extent}

theorem empty (file : ByteArray) : Indexes file ∅ ∅ where
  within := by simp
  shows := by simp

theorem append (h : Indexes file index held) : Indexes (file ++ more) index held where
  within key e he := by
    have := h.within key e he
    rw [ByteArray.size_append]
    omega
  shows key := by
    rw [← h.shows key]
    refine Option.map_congr fun e he => ?_
    exact extract_append_of_le (h.within key e he)

theorem insert (h : Indexes file index held) (he : e.offset + e.size ≤ file.size)
    (hv : file.extract e.offset (e.offset + e.size) = value) :
    Indexes file (index.insert key e) (held.insert key value) where
  within k d hd := by
    by_cases hk : key = k
    · rw [hk, Std.ExtTreeMap.getElem?_insert_self, Option.some.injEq] at hd
      rwa [← hd]
    · refine h.within k d ?_
      simpa [Std.ExtTreeMap.getElem?_insert, hk] using hd
  shows k := by
    by_cases hk : key = k
    · simp [hk, hv]
    · simp [Std.ExtTreeMap.getElem?_insert, hk, h.shows k]

theorem erase (h : Indexes file index held) : Indexes file (index.erase key) (held.erase key) where
  within k d hd := by
    by_cases hk : key = k
    · simp [hk] at hd
    · refine h.within k d ?_
      simpa [Std.ExtTreeMap.getElem?_erase, hk] using hd
  shows k := by
    by_cases hk : key = k
    · simp [hk]
    · simp [Std.ExtTreeMap.getElem?_erase, hk, h.shows k]

/-- The contents are the index with every extent replaced by what stands there. -/
theorem map_eq (h : Indexes file index held) :
    index.map (fun _ e => file.extract e.offset (e.offset + e.size)) = held := by
  refine Std.ExtTreeMap.ext_getElem? fun key => ?_
  rw [Std.ExtTreeMap.getElem?_map, h.shows key]

theorem size_eq (h : Indexes file index held) : index.size = held.size := by
  rw [← h.map_eq, Std.ExtTreeMap.size_map]

theorem contains_eq (h : Indexes file index held) (key : ByteArray) :
    index.contains key = held.contains key := by
  rw [← h.map_eq, Std.ExtTreeMap.contains_map]

end Indexes

/-! ## Frames in a file -/

@[simp] theorem size_enclose (p : ByteArray) : (enclose p).size = frameHeaderSize + p.size := by
  simp only [enclose, ByteArray.size_append, size_littleBytes, (Digest.of p).size_bytes,
    frameHeaderSize]

/-- Records that stand behind others in a frame enter the index with their values, or with as much
of them as their lengths speak of. -/
theorem Indexes.locations {file base front p rest : ByteArray} {rs : List Record}
    (hfile : file = base ++ front ++ (p ++ payload rs) ++ rest)
    (hfront : front.size = frameHeaderSize) {index : Index} {held : Contents}
    (h : Indexes file index held) :
    Indexes file (applyLocations index base.size (locations p.size rs))
      (WriteBatch.apply (rs.map indexed) held) := by
  induction rs generalizing p index held with
  | nil => exact h
  | cons r rs ih =>
    have hrest {index : Index} {held : Contents} (h : Indexes file index held) :
        Indexes file
          (applyLocations index base.size (FrameLog.locations (p.size + (recordBytes r).size) rs))
          (WriteBatch.apply (rs.map indexed) held) := by
      rw [← ByteArray.size_append]
      exact ih (by simpa only [payload, ByteArray.append_assoc] using hfile) h
    obtain ⟨key, _ | value⟩ := r
    · exact hrest h.erase
    · have hcut : value ++ (payload rs ++ rest) = clipped value ++
          (value.extract (value.size % span 4) value.size ++ (payload rs ++ rest)) := by
        rw [← ByteArray.append_assoc (a := clipped value), clipped_append]
      have hvalue : file = base ++ front ++ p ++ [1].toByteArray ++ littleBytes 4 key.size ++ key ++
          littleBytes 4 value.size ++ clipped value ++
            (value.extract (value.size % span 4) value.size ++ (payload rs ++ rest)) := by
        rw [ByteArray.append_assoc, ← hcut]
        simpa only [payload, recordBytes, ByteArray.append_assoc] using hfile
      refine hrest (h.insert ?_ (extract_of_eq hvalue ?_ ?_)) <;>
        simp [hvalue, hfront] <;> omega

theorem Indexes.frame {file : ByteArray} {index : Index} {held : Contents}
    (h : Indexes file index held) (rs : List Record) :
    Indexes (file ++ (frame rs).1) (applyLocations index file.size (frame rs).2)
      (WriteBatch.apply (rs.map indexed) held) := by
  rw [frame_eq]
  have hfile : file ++ enclose (payload rs) =
      file ++ (littleBytes 4 (payload rs).size ++ (Digest.of (payload rs)).bytes) ++
        (ByteArray.empty ++ payload rs) ++ ByteArray.empty := by
    simp [enclose, ByteArray.append_assoc]
  exact Indexes.locations hfile
    (by simp [(Digest.of (payload rs)).size_bytes, frameHeaderSize]) h.append

theorem payload?_of_eq {file a p rest : ByteArray} (hfile : file = a ++ enclose p ++ rest)
    (hp : p.size < span 4) : payload? file a.size = some p := by
  have hd := (Digest.of p).size_bytes
  have hnumber : number? file a.size = some p.size :=
    number?_of_eq (c := (Digest.of p).bytes ++ p ++ rest)
      (by simpa only [enclose, ByteArray.append_assoc] using hfile) rfl hp
  have hpayload : file.extract (a.size + frameHeaderSize) (a.size + frameHeaderSize + p.size) = p :=
    extract_of_eq (a := a ++ littleBytes 4 p.size ++ (Digest.of p).bytes) (c := rest)
      (by simpa only [enclose, ByteArray.append_assoc] using hfile)
      (by simp [hd, frameHeaderSize]) rfl
  have hdigest : file.extract (a.size + 4) (a.size + frameHeaderSize) = (Digest.of p).bytes :=
    extract_of_eq (a := a ++ littleBytes 4 p.size) (c := p ++ rest)
      (by simpa only [enclose, ByteArray.append_assoc] using hfile)
      (by simp) (by rw [hd, frameHeaderSize])
  have hsize : file.size = a.size + frameHeaderSize + p.size + rest.size := by
    rw [hfile]
    simp
    omega
  rw [payload?, if_pos (by omega), hnumber]
  simp only [hpayload, hdigest, if_true]
  rw [if_pos (by omega)]

/-- What counts as a frame is read from its parts, of the sizes that it says. -/
theorem parts_of_payload? {file p : ByteArray} {i : Nat} (h : payload? file i = some p) :
    p.size < span 4 ∧ i + frameHeaderSize + p.size ≤ file.size ∧
      file.extract i (i + 4) = littleBytes 4 p.size ∧
      file.extract (i + 4) (i + frameHeaderSize) = (Digest.of p).bytes ∧
      file.extract (i + frameHeaderSize) (i + frameHeaderSize + p.size) = p := by
  unfold payload? at h
  split at h
  · next hhead =>
    split at h
    · cases h
    · next size hnumber =>
      dsimp only at h
      split at h
      · next hlong =>
        split at h
        · next hdigest =>
          obtain rfl := Option.some.inj h
          have hi : i + 4 ≤ file.size := by
            rw [frameHeaderSize] at hhead
            omega
          rw [number?, if_pos hi, Option.some.injEq] at hnumber
          have hfour : (file.extract i (i + 4)).size = 4 := by
            rw [ByteArray.size_extract]
            omega
          have hsize :
              (file.extract (i + frameHeaderSize) (i + frameHeaderSize + size)).size = size := by
            rw [ByteArray.size_extract]
            omega
          have hlength := littleBytes_ofLittleBytes (file.extract i (i + 4))
          have hfits := ofLittleBytes_lt (file.extract i (i + 4))
          rw [hfour, hnumber] at hlength hfits
          rw [hsize]
          exact ⟨hfits, hlong, hlength.symm, hdigest.symm, rfl⟩
        · cases h
      · cases h
  · cases h

/-- A frame counts exactly where it stands complete, with the digest of its payload. -/
theorem payload?_eq_some {file p : ByteArray} {i : Nat} :
    payload? file i = some p ↔
      p.size < span 4 ∧ ∃ a rest, a.size = i ∧ file = a ++ enclose p ++ rest := by
  constructor
  · intro h
    obtain ⟨hp, hlong, hlength, hdigest, hpayload⟩ := parts_of_payload? h
    have hhead : i + 4 ≤ i + frameHeaderSize := by
      rw [frameHeaderSize]
      omega
    have henclose : enclose p = file.extract i (i + frameHeaderSize + p.size) :=
      calc enclose p
        _ = file.extract i (i + 4) ++ file.extract (i + 4) (i + frameHeaderSize) ++
            file.extract (i + frameHeaderSize) (i + frameHeaderSize + p.size) := by
          rw [hlength, hdigest, hpayload, enclose]
        _ = file.extract i (i + frameHeaderSize) ++
            file.extract (i + frameHeaderSize) (i + frameHeaderSize + p.size) := by
          rw [← ByteArray.extract_eq_extract_append_extract (i + 4) (by omega) hhead]
        _ = file.extract i (i + frameHeaderSize + p.size) :=
          (ByteArray.extract_eq_extract_append_extract (i + frameHeaderSize) (by omega)
            (by omega)).symm
    refine ⟨hp, file.extract 0 i, file.extract (i + frameHeaderSize + p.size) file.size, ?_, ?_⟩
    · rw [ByteArray.size_extract]
      omega
    · rw [henclose, ← ByteArray.extract_eq_extract_append_extract i (by omega) (by omega),
        ← ByteArray.extract_eq_extract_append_extract (i + frameHeaderSize + p.size) (by omega)
          hlong, ByteArray.extract_zero_size]
  · rintro ⟨hp, a, rest, rfl, hfile⟩
    exact payload?_of_eq hfile hp

/-! ## Torn ends -/

/-- No complete frame with the digest of its payload stands at the front. -/
def Torn (t : ByteArray) : Prop :=
  ∀ p rest : ByteArray, p.size < span 4 → t ≠ enclose p ++ rest

theorem torn_empty : Torn ByteArray.empty := by
  intro p rest _ h
  have := congrArg ByteArray.size h
  simp [frameHeaderSize] at this
  omega

theorem payload?_append_eq_none {a t : ByteArray} : payload? (a ++ t) a.size = none ↔ Torn t := by
  rw [Option.eq_none_iff_forall_ne_some]
  refine ⟨fun h p rest hp ht => ?_, fun h p hp => ?_⟩
  · exact h p (payload?_of_eq (by rw [ht, ByteArray.append_assoc]) hp)
  · obtain ⟨hp, b, rest, hb, he⟩ := payload?_eq_some.mp hp
    rw [ByteArray.append_assoc, ByteArray.append_eq_append_iff_of_size_eq_left hb.symm] at he
    exact h p rest hp he.2

theorem length_append_inj {m n : Nat} {a b : ByteArray} (hm : m < span 4) (hn : n < span 4)
    (h : littleBytes 4 m ++ a = littleBytes 4 n ++ b) : m = n ∧ a = b := by
  rw [ByteArray.append_eq_append_iff_of_size_eq_left (by simp)] at h
  refine ⟨?_, h.2⟩
  rw [← ofLittleBytes_littleBytes hm, h.1, ofLittleBytes_littleBytes hn]

theorem enclose_append_inj {p q a b : ByteArray} (hp : p.size < span 4) (hq : q.size < span 4)
    (h : enclose p ++ a = enclose q ++ b) : p = q ∧ a = b := by
  simp only [enclose, ByteArray.append_assoc] at h
  obtain ⟨hsize, h⟩ := length_append_inj hp hq h
  rw [ByteArray.append_eq_append_iff_of_size_eq_left (by simp [(Digest.of _).size_bytes]),
    ByteArray.append_eq_append_iff_of_size_eq_left hsize] at h
  exact h.2

/-- What is cut from a frame is torn. -/
theorem torn_of_append {p t cut : ByteArray} (hp : p.size < span 4) (h : t ++ cut = enclose p)
    (hcut : cut ≠ ByteArray.empty) : Torn t := by
  rintro q rest hq rfl
  rw [ByteArray.append_assoc, ← ByteArray.append_empty (b := enclose p)] at h
  obtain ⟨-, hnone⟩ := enclose_append_inj hq hp h
  exact hcut (ByteArray.append_eq_empty_iff.mp hnone).2

/-- A frame whose digest alone was altered is torn, whatever follows. -/
theorem torn_of_digest_ne {p d rest : ByteArray} (hp : p.size < span 4) (hd : d.size = 32)
    (h : d ≠ (Digest.of p).bytes) : Torn (littleBytes 4 p.size ++ d ++ p ++ rest) := by
  intro q more hq he
  simp only [enclose, ByteArray.append_assoc] at he
  obtain ⟨hsize, he⟩ := length_append_inj hp hq he
  rw [ByteArray.append_eq_append_iff_of_size_eq_left (by simp [hd, (Digest.of _).size_bytes]),
    ByteArray.append_eq_append_iff_of_size_eq_left hsize] at he
  obtain ⟨hdigest, rfl, -⟩ := he
  exact h hdigest

/-- Where the length or the payload of a frame was altered, but not its digest, a frame counts only
with another payload of the same digest. -/
theorem collision_of_payload?_eq_some {p n q rest found : ByteArray} (hp : p.size < span 4)
    (hn : n.size = 4) (hq : q.size = p.size) (h : n ++ q ≠ littleBytes 4 p.size ++ p)
    (hfound : payload? (n ++ (Digest.of p).bytes ++ q ++ rest) 0 = some found) :
    found ≠ p ∧ Digest.of found = Digest.of p := by
  obtain ⟨-, a, more, ha, he⟩ := payload?_eq_some.mp hfound
  obtain rfl := ByteArray.size_eq_zero_iff.mp ha
  simp only [enclose, ByteArray.empty_append, ByteArray.append_assoc] at he
  rw [ByteArray.append_eq_append_iff_of_size_eq_left (by simp [hn])] at he
  obtain ⟨rfl, he⟩ := he
  rw [ByteArray.append_eq_append_iff_of_size_eq_left (by simp [(Digest.of _).size_bytes])] at he
  obtain ⟨hdigest, he⟩ := he
  refine ⟨?_, (Digest.ext hdigest).symm⟩
  rintro rfl
  rw [ByteArray.append_eq_append_iff_of_size_eq_left hq] at he
  exact h (by rw [he.1])

/-! ## Replaying -/

/-- Frames one after another. -/
def frames : List (List Record) → ByteArray
  | [] => ByteArray.empty
  | rs :: fs => (frame rs).1 ++ frames fs

/-- The index after frames of which the first stands at position `i`. -/
def indexFrom (i : Nat) (index : Index) : List (List Record) → Index
  | [] => index
  | rs :: fs => indexFrom (i + (frame rs).1.size) (applyLocations index i (frame rs).2) fs

theorem frames_append (fs gs : List (List Record)) : frames (fs ++ gs) = frames fs ++ frames gs := by
  induction fs with
  | nil => simp [frames]
  | cons rs fs ih => simp [frames, ih, ByteArray.append_assoc]

theorem indexFrom_append (i : Nat) (index : Index) (fs gs : List (List Record)) :
    indexFrom i index (fs ++ gs) = indexFrom (i + (frames fs).size) (indexFrom i index fs) gs := by
  induction fs generalizing i index with
  | nil => simp [frames, indexFrom]
  | cons rs fs ih => simp [frames, indexFrom, ih, Nat.add_assoc]

theorem Indexes.frames {file : ByteArray} {index : Index} {held : Contents}
    (h : Indexes file index held) (fs : List (List Record)) :
    Indexes (file ++ FrameLog.frames fs) (indexFrom file.size index fs)
      (WriteBatch.apply (fs.flatten.map indexed) held) := by
  induction fs generalizing file index held with
  | nil => simpa [FrameLog.frames, indexFrom] using h
  | cons rs fs ih =>
    have hrest := ih (h.frame rs)
    simpa [FrameLog.frames, indexFrom, WriteBatch.apply_append, ByteArray.append_assoc] using hrest

theorem replayFrom_frame {file a rest : ByteArray} {rs : List Record}
    (hfile : file = a ++ (frame rs).1 ++ rest) (hrs : Fits rs) (fuel : Nat) (index : Index) :
    replayFrom file (fuel + 1) a.size index =
      replayFrom file fuel (a ++ (frame rs).1).size
        (applyLocations index a.size (frame rs).2) := by
  rw [frame_eq] at hfile ⊢
  simp only [replayFrom, payload?_of_eq hfile hrs, readPayload_payload hrs, ByteArray.size_append,
    size_enclose, Nat.add_assoc]

theorem replayFrom_frames {file a t : ByteArray} {fs : List (List Record)}
    (hfile : file = a ++ frames fs ++ t) (ht : Torn t) (hfs : ∀ rs ∈ fs, Fits rs) {fuel : Nat}
    (hfuel : fs.length ≤ fuel) (index : Index) :
    replayFrom file fuel a.size index =
      .ok (indexFrom a.size index fs, (a ++ frames fs).size) := by
  induction fs generalizing a index fuel with
  | nil =>
    have hstop : payload? file a.size = none := by
      rw [hfile, frames, ByteArray.append_empty]
      exact payload?_append_eq_none.mpr ht
    cases fuel <;> simp [replayFrom, hstop, frames, indexFrom]
  | cons rs fs ih =>
    obtain ⟨fuel, rfl⟩ : ∃ n, fuel = n + 1 := ⟨fuel - 1, by simp at hfuel; omega⟩
    have hfirst : file = a ++ (frame rs).1 ++ (frames fs ++ t) := by
      simpa only [frames, ByteArray.append_assoc] using hfile
    rw [replayFrom_frame hfirst (hfs rs List.mem_cons_self),
      ih (by simpa only [frames, ByteArray.append_assoc] using hfile)
        (fun r hr => hfs r (List.mem_cons_of_mem rs hr)) (by simpa using hfuel)]
    simp [indexFrom, frames, ByteArray.append_assoc]

theorem length_le_size_frames (fs : List (List Record)) : fs.length ≤ (frames fs).size := by
  induction fs with
  | nil => simp
  | cons rs fs ih =>
    simp only [frames, frame_eq, List.length_cons, ByteArray.size_append, size_enclose,
      frameHeaderSize]
    omega

theorem replay_frames {h t : ByteArray} {fs : List (List Record)} (hh : h.size = headerSize)
    (hfs : ∀ rs ∈ fs, Fits rs) (ht : Torn t) :
    replay (h ++ frames fs ++ t) = .ok (indexFrom headerSize ∅ fs, (h ++ frames fs).size) := by
  have hfuel : fs.length ≤ (h ++ frames fs ++ t).size := by
    have := length_le_size_frames fs
    simp only [ByteArray.size_append]
    omega
  rw [replay, ← hh]
  exact replayFrom_frames rfl ht hfs hfuel ∅

/-- Replay stops within the file, at a place where no frame counts: the fuel never runs out
before. -/
theorem payload?_of_replayFrom {file : ByteArray} {fuel i tail : Nat} {index found : Index}
    (hi : i ≤ file.size) (hfuel : file.size < i + frameHeaderSize * (fuel + 1))
    (h : replayFrom file fuel i index = .ok (found, tail)) :
    i ≤ tail ∧ tail ≤ file.size ∧ payload? file tail = none := by
  induction fuel generalizing i index with
  | zero =>
    simp only [replayFrom, Except.ok.injEq, Prod.mk.injEq] at h
    obtain ⟨-, rfl⟩ := h
    refine ⟨Nat.le_refl i, hi, ?_⟩
    rw [payload?, if_neg (by omega)]
  | succ fuel ih =>
    unfold replayFrom at h
    split at h
    case h_1 hstop =>
      simp only [Except.ok.injEq, Prod.mk.injEq] at h
      obtain ⟨-, rfl⟩ := h
      exact ⟨Nat.le_refl i, hi, hstop⟩
    case h_2 p hp =>
      obtain ⟨-, a, rest, ha, hfile⟩ := payload?_eq_some.mp hp
      have hsize : file.size = i + frameHeaderSize + p.size + rest.size := by
        rw [hfile]
        simp [ha, Nat.add_assoc]
      rw [Nat.mul_succ] at hfuel
      split at h
      · cases h
      · obtain ⟨hle, hrest⟩ := ih (by omega) (by omega) h
        exact ⟨by omega, hrest⟩

end VersionedTrie.FrameLog
