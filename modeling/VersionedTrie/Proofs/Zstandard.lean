import VersionedTrie.Store.LogStore
import VersionedTrie.Store.Zstandard

/-! # Decoding what was encoded

A written Zstandard frame is a header, the same for every content, and raw blocks that hold the
content piece by piece. The reader takes it as one streamed frame, without a size given for its
content, and puts the pieces together again (`decode?_encode`). So writing and reading make a codec.
-/

set_option autoImplicit false

namespace VersionedTrie

namespace Zstandard

open Bytes

theorem range?_of_eq {b a x c : ByteArray} {i j : Nat} (h : b = a ++ x ++ c) (hi : a.size = i)
    (hj : i + x.size = j) : range? b i j = some x := by
  have hb : i ≤ j ∧ j ≤ b.size := by
    rw [h]
    simp only [ByteArray.size_append]
    omega
  rw [range?, if_pos hb, extract_of_eq h hi hj]

/-! ## Blocks -/

/-- The raw blocks of what is left of `b` from position `i`, at most `n + 1` of them. -/
def blocks (b : ByteArray) : Nat → Nat → ByteArray
  | 0, i => rawBlock (b.size - i) true ++ b.extract i b.size
  | n + 1, i =>
    if b.size - i ≤ maxBlock then rawBlock (b.size - i) true ++ b.extract i b.size
    else rawBlock maxBlock false ++ b.extract i (i + maxBlock) ++ blocks b n (i + maxBlock)

theorem writeBlocks_eq (b : ByteArray) (n i : Nat) (out : ByteArray) :
    writeBlocks b n i out = out ++ blocks b n i := by
  induction n generalizing i out with
  | zero => simp only [writeBlocks, blocks, ByteArray.append_assoc]
  | succ n ih =>
    rw [writeBlocks, blocks]
    split
    · rw [ByteArray.append_assoc]
    · rw [ih]
      simp only [ByteArray.append_assoc]

@[simp] theorem size_rawBlock (size : Nat) (last : Bool) : (rawBlock size last).size = 3 := by
  simp [rawBlock]

theorem le_size_blocks (b : ByteArray) (n i : Nat) : b.size - i ≤ (blocks b n i).size := by
  induction n generalizing i with
  | zero => simp [blocks]
  | succ n ih =>
    rw [blocks]
    split
    · simp
    · have := ih (i + maxBlock)
      simp only [ByteArray.size_append, ByteArray.size_extract]
      omega

theorem read?_rawBlock {b a c : ByteArray} {size : Nat} {last : Bool}
    (h : b = a ++ rawBlock size last ++ c) (hs : size ≤ maxBlock) :
    BlockHeader.read? b a.size = some ⟨last, 0, size⟩ := by
  have hn : (8 * size + if last then 1 else 0) < span 3 := by
    have hspan : span 3 = 16777216 := rfl
    have hmax : maxBlock = 131072 := rfl
    split <;> omega
  rw [BlockHeader.read?, range?_of_eq h rfl (by simp)]
  simp only [rawBlock, ofLittleBytes_littleBytes hn, Option.bind_eq_bind, Option.bind_some,
    Option.some.injEq, BlockHeader.mk.injEq]
  cases last <;> simp <;> omega

/-- The header of every written frame. -/
def written : FrameHeader := ⟨1 <<< 21, none, false, 6⟩

theorem blockLimit_written : written.blockLimit = maxBlock := rfl

theorem content?_raw {b a piece c : ByteArray} (h : b = a ++ piece ++ c)
    (hs : piece.size ≤ maxBlock) (last : Bool) (room before : Nat) :
    BlockHeader.content? ⟨last, 0, piece.size⟩ written (.streamed room) b a.size before =
      some (piece, a.size + piece.size) := by
  by_cases hblank : piece.size = 0
  · obtain rfl := ByteArray.size_eq_zero_iff.mp hblank
    simp [BlockHeader.content?, BlockHeader.isBlank]
  · have hadmits : Reading.admitsBlock written before piece.size (.streamed room) = true := by
      have hopen : written.contentSize = none := rfl
      simp [Reading.admitsBlock, blockLimit_written, hopen, hs]
    simp [BlockHeader.content?, BlockHeader.isBlank, hblank, hadmits, range?_of_eq h rfl rfl]

theorem admitsEnd_written (blank : Bool) (size : Nat) (r : Reading) :
    r.admitsEnd written blank size = true := by
  simp [Reading.admitsEnd, written]

/-- A raw block gives its piece; after the last one the reader stops. -/
theorem readBlocks?_raw {b a piece rest : ByteArray} {last : Bool}
    (h : b = a ++ (rawBlock piece.size last ++ piece) ++ rest) (hs : piece.size ≤ maxBlock)
    (room fuel : Nat) (out : ByteArray) :
    readBlocks? b written (.streamed room) (fuel + 1) a.size out =
      if last then some (out ++ piece, (a ++ (rawBlock piece.size last ++ piece)).size)
      else
        readBlocks? b written (.streamed room) fuel
          (a ++ (rawBlock piece.size last ++ piece)).size (out ++ piece) := by
  have hread : BlockHeader.read? b a.size = some ⟨last, 0, piece.size⟩ :=
    read?_rawBlock (c := piece ++ rest) (by simpa only [ByteArray.append_assoc] using h) hs
  have hpiece : b = a ++ rawBlock piece.size last ++ piece ++ rest := by
    simpa only [ByteArray.append_assoc] using h
  have hcontent := content?_raw hpiece hs last room out.size
  rw [ByteArray.size_append, size_rawBlock] at hcontent
  cases last <;> simp [readBlocks?, hread, hcontent, admitsEnd_written, Nat.add_assoc]

theorem readBlocks?_last {b c a rest : ByteArray} {i room : Nat} (hi : i ≤ b.size)
    (hle : b.size - i ≤ maxBlock)
    (h : c = a ++ (rawBlock (b.size - i) true ++ b.extract i b.size) ++ rest) (fuel : Nat) :
    readBlocks? c written (.streamed room) (fuel + 1) a.size (b.extract 0 i) =
      some (b, (a ++ (rawBlock (b.size - i) true ++ b.extract i b.size)).size) := by
  have hsize : (b.extract i b.size).size = b.size - i := by
    rw [ByteArray.size_extract, Nat.min_self]
  rw [← hsize] at h hle ⊢
  rw [readBlocks?_raw h hle room fuel, if_pos rfl,
    ← ByteArray.extract_eq_extract_append_extract i (Nat.zero_le i) hi, ByteArray.extract_zero_size]

theorem readBlocks?_blocks {b c a rest : ByteArray} {n i fuel : Nat} (hi : i ≤ b.size)
    (hn : b.size - i ≤ maxBlock * (n + 1)) (hfuel : n < fuel) (h : c = a ++ blocks b n i ++ rest)
    (room : Nat) :
    readBlocks? c written (.streamed room) fuel a.size (b.extract 0 i) =
      some (b, (a ++ blocks b n i).size) := by
  induction n generalizing a i fuel with
  | zero =>
    obtain ⟨fuel, rfl⟩ : ∃ m, fuel = m + 1 := ⟨fuel - 1, by omega⟩
    exact readBlocks?_last hi (by omega) h fuel
  | succ n ih =>
    obtain ⟨fuel, rfl⟩ : ∃ m, fuel = m + 1 := ⟨fuel - 1, by omega⟩
    rw [blocks] at h ⊢
    split at h
    case isTrue hle =>
      rw [if_pos hle]
      exact readBlocks?_last hi hle h fuel
    case isFalse hmore =>
      rw [if_neg hmore]
      have hsize : (b.extract i (i + maxBlock)).size = maxBlock := by
        rw [ByteArray.size_extract]
        omega
      have hpiece : c = a ++ (rawBlock (b.extract i (i + maxBlock)).size false ++
          b.extract i (i + maxBlock)) ++ (blocks b n (i + maxBlock) ++ rest) := by
        simpa only [hsize, ByteArray.append_assoc] using h
      have hraw := readBlocks?_raw hpiece (Nat.le_of_eq hsize) room fuel (b.extract 0 i)
      rw [hsize, if_neg Bool.false_ne_true,
        ← ByteArray.extract_eq_extract_append_extract i (Nat.zero_le i) (by omega)] at hraw
      have hrest := ih (a := a ++ (rawBlock maxBlock false ++ b.extract i (i + maxBlock)))
        (i := i + maxBlock) (by omega) (by rw [Nat.mul_succ] at hn; omega)
        (by omega : n < fuel) (by simpa only [ByteArray.append_assoc] using h)
      rw [hraw, hrest]
      simp only [ByteArray.append_assoc]

/-! ## Frames -/

theorem header_eq :
    header.toByteArray = magic.toByteArray ++ [0x00].toByteArray ++ [0x58].toByteArray := by
  decide

theorem frameHeader?_header (rest : ByteArray) :
    frameHeader? (header.toByteArray ++ rest) 4 = some written := by
  have hflags : range? (header.toByteArray ++ rest) 4 5 = some [0x00].toByteArray :=
    range?_of_eq (a := magic.toByteArray) (c := [0x58].toByteArray ++ rest)
      (by simp only [header_eq, ByteArray.append_assoc]) (by decide) (by decide)
  have hwindow : range? (header.toByteArray ++ rest) 5 6 = some [0x58].toByteArray :=
    range?_of_eq (by rw [header_eq]) (by decide) (by decide)
  have hnone : range? (header.toByteArray ++ rest) 6 6 = some ByteArray.empty :=
    range?_of_eq (a := header.toByteArray) (c := rest) (by rw [ByteArray.append_empty])
      (by decide) (by decide)
  have h0 : ofLittleBytes [0x00].toByteArray = 0 := by decide
  have h88 : ofLittleBytes [0x58].toByteArray = 88 := by decide
  have hempty : ofLittleBytes ByteArray.empty = 0 := by decide
  simp [frameHeader?, hflags, hwindow, hnone, h0, h88, hempty, dictionaryWidth, contentSizeWidth,
    contentSize?, windowSize?, written]

theorem encode_eq (b : ByteArray) :
    encode b = header.toByteArray ++ blocks b (b.size / maxBlock) 0 :=
  writeBlocks_eq b (b.size / maxBlock) 0 header.toByteArray

theorem readContent?_encode (b : ByteArray) (room : Nat) :
    readContent? (encode b) written (.streamed room) = some (b, (encode b).size) := by
  have hblocks : b.size - 0 ≤ maxBlock * (b.size / maxBlock + 1) := by
    have := Nat.div_add_mod b.size maxBlock
    have := Nat.mod_lt b.size (by decide : 0 < maxBlock)
    rw [Nat.mul_succ]
    omega
  have hfuel : b.size / maxBlock < (encode b).size + 1 := by
    have := Nat.div_le_self b.size maxBlock
    have := le_size_blocks b (b.size / maxBlock) 0
    rw [encode_eq, ByteArray.size_append]
    omega
  have hwhole : encode b =
      header.toByteArray ++ blocks b (b.size / maxBlock) 0 ++ ByteArray.empty := by
    rw [ByteArray.append_empty, encode_eq]
  have hread := readBlocks?_blocks (Nat.zero_le b.size) hblocks hfuel hwhole room
  rw [ByteArray.extract_same, ← encode_eq] at hread
  have hstart : written.start = header.toByteArray.size := rfl
  have hchecksum : written.checksum = false := rfl
  rw [readContent?, hstart, hread]
  simp [hchecksum]

theorem decode?_encode (b : ByteArray) : decode? (encode b) = some b := by
  have hmagic : range? (encode b) 0 4 = some magic.toByteArray :=
    range?_of_eq (a := ByteArray.empty)
      (c := [0x00].toByteArray ++ [0x58].toByteArray ++ blocks b (b.size / maxBlock) 0)
      (by simp only [encode_eq, header_eq, ByteArray.append_assoc, ByteArray.empty_append])
      rfl rfl
  have hheader : frameHeader? (encode b) 4 = some written := by
    rw [encode_eq]
    exact frameHeader?_header _
  have hframe (space : Space) : readFrame? (encode b) 0 space =
      some (b, (encode b).size, space.fitTo written) := by
    have hshort : written.isShort = false := rfl
    have hwindow : ¬FrameHeader.maxWindow < written.window := by decide
    simp [readFrame?, hheader, hshort, hwindow, readContent?_encode]
  simp [decode?, readFrames?, hmagic, hframe]

end Zstandard

def Codec.zstandard : Codec := ⟨Zstandard.encode, Zstandard.decode?, Zstandard.decode?_encode⟩

end VersionedTrie
