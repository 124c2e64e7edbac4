import VersionedTrie.Proofs.LogStore.Basic
import VersionedTrie.Proofs.Zstandard

/-! # Recovery

Opening a file gives what the whole frames at its front have written and cuts off the rest, whatever
the rest is, as long as no complete frame begins there. A file that is cut anywhere behind its header
consists of whole frames and such a rest (`exists_torn_of_cut`). On any other bytes opening stops
where no frame counts, or it fails and leaves the file as it was (`openExisting_cases`).
-/

set_option autoImplicit false

namespace VersionedTrie.LogStore

open FrameLog

variable {c : Codec}

theorem log_cons (batch : WriteBatch) (batches : List WriteBatch) :
    c.log (batch :: batches) = enclose (payload (batch.map c.record)) ++ c.log batches := by
  simp [Codec.log, Codec.records, frames, frame_eq]

/-- The first bytes of some frames are whole frames and a torn rest. -/
theorem exists_torn_of_cut {batches : List WriteBatch} (hfits : ∀ batch ∈ batches, c.Fits batch)
    (n : Nat) :
    ∃ m t, m ≤ batches.length ∧ (c.log batches).extract 0 n = c.log (batches.take m) ++ t ∧ Torn t := by
  induction batches generalizing n with
  | nil =>
    exact ⟨0, ByteArray.empty, Nat.le_refl 0, by simp [Codec.log, Codec.records, frames], torn_empty⟩
  | cons batch batches ih =>
    have hbatch : (payload (batch.map c.record)).size < Bytes.span 4 :=
      hfits batch List.mem_cons_self
    by_cases hn : n < (enclose (payload (batch.map c.record))).size
    · -- the cut goes through the first frame
      refine ⟨0, (enclose (payload (batch.map c.record))).extract 0 n, Nat.zero_le _, ?_, ?_⟩
      · rw [log_cons, Bytes.extract_append_of_le (Nat.le_of_lt hn)]
        simp [Codec.log, Codec.records, frames]
      · have hsplit := ByteArray.extract_eq_extract_append_extract
          (a := enclose (payload (batch.map c.record))) n (Nat.zero_le n) (Nat.le_of_lt hn)
        rw [ByteArray.extract_zero_size] at hsplit
        refine torn_of_append hbatch hsplit.symm fun hnone => ?_
        have := ByteArray.extract_eq_empty_iff.mp hnone
        omega
    · obtain ⟨m, t, hm, hcut, ht⟩ := ih (fun b hb => hfits b (List.mem_cons_of_mem batch hb))
        (n - (enclose (payload (batch.map c.record))).size)
      refine ⟨m + 1, t, Nat.succ_le_succ hm, ?_, ht⟩
      rw [log_cons, Bytes.extract_append_of_ge (Nat.le_of_not_lt hn), hcut, List.take_succ_cons,
        log_cons, ByteArray.append_assoc]

theorem Written.write_lasts {s : LogStore} {v : Volume} {h : ByteArray}
    {batches : List WriteBatch} (hs : s.Written c v h batches) {batch : WriteBatch}
    (hb : c.Fits batch) :
    (∀ key, (s.write batch v).1.read (s.write batch v).2 key =
      .ok (batch.apply (WriteBatch.held batches))[key]?) ∧
    openExisting c s.path (s.write batch v).2 = (.ok (s.write batch v).1, (s.write batch v).2) := by
  cases hempty : batch.isEmpty with
  | true =>
    obtain rfl := List.isEmpty_iff.mp hempty
    exact ⟨hs.read, hs.reopen⟩
  | false =>
    have hw := hs.write hb hempty
    have hpath : (s.write batch v).1.path = s.path := by simp [LogStore.write, hempty]
    rw [← hpath, ← WriteBatch.held_concat]
    exact ⟨hw.read, hw.reopen⟩

/-! ## Any file -/

/-- Opening ends where no frame counts, and all that it does to the file is to cut it there; or it
fails and does nothing. -/
theorem openExisting_cases (c : Codec) (path : String) (v : Volume) :
    (∃ s n, openExisting c path v = (.ok s, v.setContent n ((v.content n).extract 0 s.tail)) ∧
      v.openFile path = .ok n ∧ s.tail ≤ (v.content n).size ∧
      payload? (v.content n) s.tail = none) ∨
    ∃ e, openExisting c path v = (.error e, v) := by
  rw [openExisting_eq]
  cases hopen : v.openFile path with
  | error fault => exact .inr ⟨_, rfl⟩
  | ok n =>
    dsimp only
    cases hcheck : checkHeader (v.content n) with
    | error e => exact .inr ⟨_, rfl⟩
    | ok _ =>
      cases hreplay : replay (v.content n) with
      | error defect => exact .inr ⟨_, rfl⟩
      | ok r =>
        obtain ⟨index, tail⟩ := r
        have hlong : headerSize ≤ (v.content n).size := by
          rw [checkHeader] at hcheck
          split at hcheck
          · cases hcheck
          · omega
        have hfuel : (v.content n).size <
            headerSize + frameHeaderSize * ((v.content n).size + 1) := by
          rw [frameHeaderSize]
          omega
        obtain ⟨-, htail, hstop⟩ := payload?_of_replayFrom hlong hfuel hreplay
        refine .inl ⟨⟨c, path, n, tail, index⟩, n, ?_, rfl, htail, hstop⟩
        dsimp only
        split
        · rfl
        · have hwhole : tail = (v.content n).size := by omega
          have hfull : 0 < (v.content n).size := Nat.lt_of_lt_of_le (by decide) hlong
          rw [hwhole, ByteArray.extract_zero_size, Volume.setContent_content hfull]

/-! ## Whole frames and a torn rest -/

/-- Whatever the codec, the entries of a store file with a torn end are those that its whole frames
make; the end is cut off; and from then on the file is as good as any, so that opening it again
changes nothing, and what is written next is read at once and after another opening. Torn is what was
cut from a frame, a frame with another digest, and, unless a payload with the same digest turns up, a
frame with its digest whose length or payload were altered, whatever follows. Any other file is opened
up to a place where no frame counts, or refused and left alone. -/
theorem recovers_history (c : Codec) :
    (∀ (path : String) (v : Volume) (n : FileNumber) (h t : ByteArray) (batches : List WriteBatch),
      IsHeader h → (∀ batch ∈ batches, c.Fits batch) → v.openFile path = .ok n →
      v.content n = h ++ c.log batches ++ t → Torn t →
      ∃ s, openExisting c path v = (.ok s, v.setContent n (h ++ c.log batches)) ∧
        (∀ key, s.read (v.setContent n (h ++ c.log batches)) key =
          .ok (WriteBatch.held batches)[key]?) ∧
        s.size = (WriteBatch.held batches).size ∧
        openExisting c path (v.setContent n (h ++ c.log batches)) =
          (.ok s, v.setContent n (h ++ c.log batches)) ∧
        ∀ batch, c.Fits batch →
          ∃ s' w, s.write batch (v.setContent n (h ++ c.log batches)) = (s', w) ∧
            (∀ key, s'.read w key = .ok (batch.apply (WriteBatch.held batches))[key]?) ∧
            openExisting c path w = (.ok s', w)) ∧
    (∀ p t cut : ByteArray, p.size < Bytes.span 4 → t ++ cut = enclose p →
      cut ≠ ByteArray.empty → Torn t) ∧
    (∀ p d rest : ByteArray, p.size < Bytes.span 4 → d.size = 32 → d ≠ (Digest.of p).bytes →
      Torn (Bytes.littleBytes 4 p.size ++ d ++ p ++ rest)) ∧
    (∀ p l q rest : ByteArray, p.size < Bytes.span 4 → l.size = 4 → q.size = p.size →
      l ++ q ≠ Bytes.littleBytes 4 p.size ++ p →
      Torn (l ++ (Digest.of p).bytes ++ q ++ rest) ∨
        ∃ p', payload? (l ++ (Digest.of p).bytes ++ q ++ rest) 0 = some p' ∧ p' ≠ p ∧
          Digest.of p' = Digest.of p) ∧
    ∀ (path : String) (v : Volume),
      (∃ s n, openExisting c path v = (.ok s, v.setContent n ((v.content n).extract 0 s.tail)) ∧
        v.openFile path = .ok n ∧ s.tail ≤ (v.content n).size ∧
        payload? (v.content n) s.tail = none) ∨
      ∃ e, openExisting c path v = (.error e, v) := by
  refine ⟨fun path v n h t batches hh hfits hopen hcontent ht => ?_,
    fun p t cut hp hcut hmore => torn_of_append hp hcut hmore,
    fun p d rest hp hd hne => torn_of_digest_ne hp hd hne,
    fun p l q rest hp hl hq hne => ?_, openExisting_cases c⟩
  · obtain ⟨s, hrun, hpath, -, hs⟩ := openExisting_torn hh hfits hopen hcontent ht
    obtain rfl := hpath
    refine ⟨s, hrun, hs.read, hs.size_eq, hs.reopen, fun batch hbatch => ?_⟩
    exact ⟨(s.write batch _).1, (s.write batch _).2, rfl, hs.write_lasts hbatch⟩
  · cases hfound : payload? (l ++ (Digest.of p).bytes ++ q ++ rest) 0 with
    | none =>
      refine .inl (payload?_append_eq_none (a := ByteArray.empty).mp ?_)
      rw [ByteArray.empty_append]
      exact hfound
    | some p' =>
      exact .inr ⟨p', rfl, collision_of_payload?_eq_some hp hl hq hne hfound⟩

/-- A batch whose frame a crash has cut short, behind the frame of another one. -/
def interrupted : WriteBatch := [.put "a".toUTF8 "y".toUTF8]

def wholeFrame : ByteArray := enclose (payload (interrupted.map Codec.zstandard.record))

def remains : ByteArray := wholeFrame.extract 0 40

def crashed : Volume :=
  ⟨Std.ExtTreeMap.ofList [("s", 0)],
    Std.ExtTreeMap.ofList
      [(0, header ++ Codec.zstandard.log [[.put "a".toUTF8 "x".toUTF8]] ++ remains)], [], 1⟩

theorem recovers_history_crashed :
    (Codec.zstandard.Fits [.put "a".toUTF8 "x".toUTF8] ∧ Torn remains) ∧
    ∃ s w, openExisting .zstandard "s" crashed = (.ok s, w) ∧
      s.read w "a".toUTF8 = .ok (some "x".toUTF8) ∧ openExisting .zstandard "s" w = (.ok s, w) := by
  have hfits : Codec.zstandard.Fits [.put "a".toUTF8 "x".toUTF8] := by decide +kernel
  have hinterrupted : Codec.zstandard.Fits interrupted := by decide +kernel
  have hlong : 40 < wholeFrame.size := by decide +kernel
  have htorn : Torn remains := by
    refine (recovers_history .zstandard).2.1 (payload (interrupted.map Codec.zstandard.record))
      remains (wholeFrame.extract 40 wholeFrame.size) hinterrupted ?_ fun hnone => ?_
    · change _ = wholeFrame
      rw [remains, ← ByteArray.extract_eq_extract_append_extract 40 (Nat.zero_le 40)
        (Nat.le_of_lt hlong), ByteArray.extract_zero_size]
    · have := ByteArray.extract_eq_empty_iff.mp hnone
      omega
  have hopen : crashed.openFile "s" = .ok 0 :=
    Volume.openFile_eq_ok.mpr ⟨"s", by decide +kernel, by decide +kernel⟩
  have hcontent : crashed.content 0 =
      header ++ Codec.zstandard.log [[.put "a".toUTF8 "x".toUTF8]] ++ remains := by
    simp [crashed, Volume.content]
  obtain ⟨s, hrun, hread, -, hagain, -⟩ := (recovers_history .zstandard).1 "s" crashed 0 header
    remains _ isHeader_header (by simpa using hfits) hopen hcontent htorn
  refine ⟨⟨hfits, htorn⟩, s, _, hrun, ?_, hagain⟩
  rw [hread]
  simp [WriteBatch.held, WriteOp.apply]

end VersionedTrie.LogStore
