import Mathlib.Data.List.TakeWhile
import VersionedTrie.Proofs.FrameLog.Replay

/-! # Lengths

A length is written in four bytes, and no size is refused: what is read back is its remainder. The
lengths in a frame are those of its payload, keys and values exactly if the payload fits
(`trueLengths_iff`). A frame that does not fit names only a first part of its payload, with the digest
of the whole of it, and so it does not count; replaying finds the frames before the first such one
again (`exists_torn_of_recovered`). Only where the two have the same digest it might count
(`collision_of_not_clear`).
-/

set_option autoImplicit false

namespace VersionedTrie.FrameLog

open Bytes

/-! ## The lengths in a frame -/

/-- A reader of the frame finds the sizes of the payload and of all keys and values. -/
structure TrueLengths (rs : List Record) : Prop where
  payload : number? (frame rs).1 0 = some (payload rs).size
  key : ∀ (before after : List Record) (r : Record), rs = before ++ r :: after →
    number? (FrameLog.payload rs) ((FrameLog.payload before).size + 1) = some r.1.size
  value : ∀ (before after : List Record) (key value : ByteArray),
    rs = before ++ (key, some value) :: after →
    number? (FrameLog.payload rs) ((FrameLog.payload before).size + 5 + key.size) = some value.size

theorem number?_frame (rs : List Record) :
    number? (frame rs).1 0 = some ((payload rs).size % span 4) := by
  rw [frame_eq]
  refine number?_of_eq_mod (a := ByteArray.empty)
    (c := (Digest.of (payload rs)).bytes ++ payload rs) ?_ rfl
  simp [enclose, ByteArray.append_assoc]

theorem number?_key (before after : List Record) (r : Record) :
    number? (payload (before ++ r :: after)) ((payload before).size + 1) =
      some (r.1.size % span 4) := by
  obtain ⟨key, _ | value⟩ := r
  · refine number?_of_eq_mod (a := payload before ++ [2].toByteArray) (c := key ++ payload after) ?_
      (by simp)
    simp only [payload_append, payload, recordBytes, ByteArray.append_assoc]
  · refine number?_of_eq_mod (a := payload before ++ [1].toByteArray)
      (c := key ++ littleBytes 4 value.size ++ value ++ payload after) ?_ (by simp)
    simp only [payload_append, payload, recordBytes, ByteArray.append_assoc]

theorem number?_value (before after : List Record) (key value : ByteArray) :
    number? (payload (before ++ (key, some value) :: after))
      ((payload before).size + 5 + key.size) = some (value.size % span 4) := by
  refine number?_of_eq_mod
    (a := payload before ++ [1].toByteArray ++ littleBytes 4 key.size ++ key)
    (c := value ++ payload after) ?_ (by simp)
  simp only [payload_append, payload, recordBytes, ByteArray.append_assoc]

theorem trueLengths_iff (rs : List Record) : TrueLengths rs ↔ Fits rs := by
  constructor
  · intro h
    have hsize := Option.some.inj ((number?_frame rs).symm.trans h.payload)
    rw [Fits, ← hsize]
    exact Nat.mod_lt _ (by decide)
  · intro h
    refine ⟨?_, ?_, ?_⟩
    · rw [number?_frame, Nat.mod_eq_of_lt h]
    · rintro before after r rfl
      rw [number?_key, Nat.mod_eq_of_lt (h.records r (by simp)).1]
    · rintro before after key value rfl
      rw [number?_value, Nat.mod_eq_of_lt ((h.records (key, some value) (by simp)).2 value rfl)]

/-! ## Frames that do not count -/

/-- The part of a payload that its length speaks of. -/
def named (rs : List Record) : ByteArray := (payload rs).extract 0 ((payload rs).size % span 4)

/-- If the payload does not fit, the part that its length speaks of has another digest. -/
def Clear (rs : List Record) : Prop :=
  ¬Fits rs → Digest.of (named rs) ≠ Digest.of (payload rs)

theorem Fits.clear {rs : List Record} (h : Fits rs) : Clear rs := fun hlong => absurd h hlong

/-- Where a frame is not clear, two payloads have one digest. -/
theorem collision_of_not_clear {rs : List Record} (h : ¬Clear rs) :
    named rs ≠ payload rs ∧ Digest.of (named rs) = Digest.of (payload rs) := by
  obtain ⟨hlong, hdigest⟩ := Classical.not_imp.mp h
  refine ⟨fun heq => hlong ?_, not_not.mp hdigest⟩
  have hsize := congrArg ByteArray.size heq
  have := Nat.mod_lt (payload rs).size (by decide : 0 < span 4)
  rw [named, ByteArray.size_extract] at hsize
  unfold Fits
  omega

/-- A frame that does not fit does not count, whatever follows. -/
theorem torn_of_not_fits {rs : List Record} (h : ¬Fits rs) (hclear : Clear rs)
    (rest : ByteArray) : Torn ((frame rs).1 ++ rest) := by
  intro q more hq he
  rw [frame_eq] at he
  simp only [enclose, ByteArray.append_assoc] at he
  rw [ByteArray.append_eq_append_iff_of_size_eq_left (by simp)] at he
  obtain ⟨hlength, he⟩ := he
  rw [ByteArray.append_eq_append_iff_of_size_eq_left (by simp [(Digest.of _).size_bytes])] at he
  obtain ⟨hdigest, he⟩ := he
  have hsize : (payload rs).size % span 4 = q.size := by
    rw [← ofLittleBytes_littleBytes_mod, hlength, ofLittleBytes_littleBytes hq]
  have hle : q.size ≤ (payload rs).size := hsize ▸ Nat.mod_le _ _
  have hnamed : named rs = q := by
    rw [named, hsize, ← extract_append_of_le (c := rest) hle, he,
      extract_append_of_le (Nat.le_refl _), ByteArray.extract_zero_size]
  refine hclear h ?_
  rw [hnamed]
  exact (Digest.ext hdigest).symm

/-! ## What is found again -/

/-- The frames before the first one that does not fit. -/
def recovered (fs : List (List Record)) : List (List Record) := fs.takeWhile fun rs => Fits rs

theorem fits_of_mem_recovered {fs : List (List Record)} : ∀ rs ∈ recovered fs, Fits rs := by
  intro rs hrs
  rw [recovered] at hrs
  simpa using List.mem_takeWhile_imp hrs

theorem recovered_eq_self {fs : List (List Record)} (h : ∀ rs ∈ fs, Fits rs) :
    recovered fs = fs :=
  List.takeWhile_eq_self_iff.mpr fun rs hrs => decide_eq_true (h rs hrs)

theorem recovered_concat {fs : List (List Record)} {rs : List Record} (h : ¬Fits rs) :
    recovered (fs ++ [rs]) = recovered fs := by
  induction fs with
  | nil => simp [recovered, h]
  | cons f fs ih =>
    by_cases hf : Fits f
    · simpa [recovered, hf] using ih
    · simp [recovered, hf]

/-- Frames that are found again in full all fit. -/
theorem fits_of_size_recovered {fs : List (List Record)}
    (h : (frames (recovered fs)).size = (frames fs).size) : ∀ rs ∈ fs, Fits rs := by
  have hsplit : recovered fs ++ fs.dropWhile (fun rs => Fits rs) = fs :=
    List.takeWhile_append_dropWhile
  have hnone : fs.dropWhile (fun rs => Fits rs) = [] := by
    have hsize := congrArg (fun gs => (frames gs).size) hsplit
    have hshort := length_le_size_frames (fs.dropWhile fun rs => Fits rs)
    simp only [frames_append, ByteArray.size_append] at hsize
    exact List.length_eq_zero_iff.mp (by omega)
  rw [hnone, List.append_nil] at hsplit
  rw [← hsplit]
  exact fits_of_mem_recovered

/-- Behind the frames that are found again is a torn end. -/
theorem exists_torn_of_recovered {fs : List (List Record)} (hclear : ∀ rs ∈ fs, Clear rs) :
    ∃ t, frames fs = frames (recovered fs) ++ t ∧ Torn t := by
  induction fs with
  | nil => exact ⟨ByteArray.empty, by simp [recovered, frames], torn_empty⟩
  | cons rs fs ih =>
    by_cases hrs : Fits rs
    · obtain ⟨t, hsplit, ht⟩ := ih fun r hr => hclear r (List.mem_cons_of_mem rs hr)
      refine ⟨t, ?_, ht⟩
      have hmore : recovered (rs :: fs) = rs :: recovered fs := by simp [recovered, hrs]
      rw [hmore, frames, frames, hsplit, ByteArray.append_assoc]
    · refine ⟨frames (rs :: fs), ?_, ?_⟩
      · have hnone : recovered (rs :: fs) = [] := by simp [recovered, hrs]
        rw [hnone, frames, frames, ByteArray.empty_append]
      · exact torn_of_not_fits hrs (hclear rs List.mem_cons_self) (frames fs)

end VersionedTrie.FrameLog
