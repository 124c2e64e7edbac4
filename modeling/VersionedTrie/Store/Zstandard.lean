import VersionedTrie.Digest.Xxh64

/-! # Zstandard frames

A codec that the program can run with, in place of one that compresses: stores take whatever codec
they are given. A value is wrapped in a Zstandard frame with raw blocks of at most 128 KiB; read are
frames of raw and run-length blocks, with any frame header that names no dictionary, one frame after
another until the input ends. Compressed blocks are refused.

A frame is held to what its header says. If it says that the content is short, and the frame lies in
one portion of the input, it is read whole: the blocks may have any size, but together they make up
that content. Any other frame is streamed, block by block within its window: a window of more than
128 MiB is refused, and so is a block that exceeds it. A given size of the content is then checked at
the end of the last block, unless that block is empty; until then the content may grow as far as the
space that streaming has taken, which passes from frame to frame.
-/

set_option autoImplicit false

namespace VersionedTrie.Zstandard

def maxBlock : Nat := 128 * 1024

def magic : List UInt8 := [0x28, 0xB5, 0x2F, 0xFD]

/-- The header of a written frame: no content size, no checksum, a window of 2 MiB. -/
def header : List UInt8 := magic ++ [0x00, 0x58]

/-- The three bytes in front of a raw block. -/
def rawBlock (size : Nat) (last : Bool) : ByteArray :=
  Bytes.littleBytes 3 (8 * size + if last then 1 else 0)

/-- Writes what is left of `b` from position `i` as raw blocks, at most `n + 1` of them. -/
def writeBlocks (b : ByteArray) : Nat → Nat → ByteArray → ByteArray
  | 0, i, out => out ++ rawBlock (b.size - i) true ++ b.extract i b.size
  | n + 1, i, out =>
    if b.size - i ≤ maxBlock then out ++ rawBlock (b.size - i) true ++ b.extract i b.size
    else
      writeBlocks b n (i + maxBlock)
        (out ++ rawBlock maxBlock false ++ b.extract i (i + maxBlock))

def encode (b : ByteArray) : ByteArray :=
  writeBlocks b (b.size / maxBlock) 0 header.toByteArray

/-! ## Frame headers -/

/-- The part of `b` from position `i` to before `j`, if `b` reaches that far. -/
def range? (b : ByteArray) (i j : Nat) : Option ByteArray :=
  if i ≤ j ∧ j ≤ b.size then some (b.extract i j) else none

/-- What a frame header says: how far back the content may be needed, the size of the content if
given, whether a checksum follows the blocks, and where the blocks begin. -/
structure FrameHeader where
  window : Nat
  contentSize : Option Nat
  checksum : Bool
  start : Nat

def contentSizeWidth (flag : Nat) (single : Bool) : Nat :=
  if flag = 0 then if single then 1 else 0
  else 1 <<< flag

/-- The size that a field of the given width stands for; a field of eight bytes with all bits set
stands for none. -/
def contentSize? (width field : Nat) : Option Nat :=
  if width = 0 ∨ field = UInt64.size - 1 then none
  else if width = 2 then some (field + 256)
  else some field

def dictionaryWidth (flag : Nat) : Nat :=
  if flag = 3 then 4 else flag

/-- The size of the window that a window byte stands for: at most 31 bits and three more. -/
def windowSize? (byte : Nat) : Option Nat :=
  let log := 10 + byte / 8
  if 31 < log then none else some ((1 <<< log) + (1 <<< log) / 8 * (byte % 8))

/-- Reads the header of a frame whose magic number ends before position `i`. -/
def frameHeader? (b : ByteArray) (i : Nat) : Option FrameHeader := do
  let d := Bytes.ofLittleBytes (← range? b i (i + 1))
  let single := d / 32 % 2 = 1
  if d / 8 % 2 = 1 then none
  let windowEnd := if single then i + 1 else i + 2
  let window := Bytes.ofLittleBytes (← range? b (i + 1) windowEnd)
  let dictionaryEnd := windowEnd + dictionaryWidth (d % 4)
  let dictionary := Bytes.ofLittleBytes (← range? b windowEnd dictionaryEnd)
  let width := contentSizeWidth (d / 64) single
  let start := dictionaryEnd + width
  let field := Bytes.ofLittleBytes (← range? b dictionaryEnd start)
  let content := contentSize? width field
  let window ← if single then some (content.getD field) else windowSize? window
  if dictionary ≠ 0 then none
  some ⟨window, content, d / 4 % 2 = 1, start⟩

namespace FrameHeader

/-- The most content that makes a frame short. -/
def shortSize : Nat := 8192

def isShort (h : FrameHeader) : Bool := h.contentSize.any (· ≤ shortSize)

def maxWindow : Nat := (1 <<< 27) + 1

def blockLimit (h : FrameHeader) : Nat := min h.window maxBlock

/-- The most content that streaming keeps: the window, two blocks, and two times 32 bytes of
slack. -/
def keptSize (h : FrameHeader) : Nat := max h.window 1024 + 2 * h.blockLimit + 64

end FrameHeader

/-- The space that streaming holds: for a block of input and for content. It is kept for the frames
that follow; `spare` counts the last frames in a row that needed no more than a third of it. -/
structure Space where
  input : Nat
  content : Nat
  spare : Nat

namespace Space

def empty : Space := ⟨0, 0, 0⟩

/-- After so many frames in a row that needed little of the space it is given back. -/
def patience : Nat := 128

/-- The space with which a frame is streamed. -/
def fitTo (s : Space) (h : FrameHeader) : Space :=
  let input := max h.blockLimit 4
  let content := h.contentSize.elim h.keptSize (min h.keptSize)
  let spare := if 3 * (input + content) ≤ s.input + s.content then s.spare + 1 else 0
  if s.input < input ∨ s.content < content ∨ patience ≤ spare then ⟨input, content, spare⟩
  else { s with spare }

end Space

/-- How a frame is read: at once, or block by block with the given space for content. -/
inductive Reading where
  | whole
  | streamed (room : Nat)

namespace Reading

def isWhole : Reading → Bool
  | whole => true
  | streamed _ => false

/-- Whether a block with `size` bytes of content may follow after `before` bytes of it. Streaming
uses its space again from the start only if the content does not fit into it. -/
def admitsBlock (h : FrameHeader) (before size : Nat) : Reading → Bool
  | whole => h.contentSize.all (before + size ≤ ·)
  | streamed room =>
    size ≤ h.blockLimit && (h.contentSize.all (room < ·) || before + size ≤ room)

/-- Whether a last block may end the content at a size. -/
def admitsEnd (h : FrameHeader) (blank : Bool) (size : Nat) (r : Reading) : Bool :=
  !r.isWhole && blank || h.contentSize.all (· = size)

end Reading

/-! ## Blocks and frames -/

def runOf (c : UInt8) (n : Nat) : ByteArray := (List.replicate n c).toByteArray

structure BlockHeader where
  last : Bool
  /-- Zero for a raw block, one for a run, two for a compressed block; three is reserved. -/
  kind : Nat
  size : Nat

namespace BlockHeader

def read? (b : ByteArray) (i : Nat) : Option BlockHeader := do
  let n := Bytes.ofLittleBytes (← range? b i (i + 3))
  some ⟨n % 2 = 1, n / 2 % 4, n / 8⟩

/-- A block without bytes: a raw one, or a compressed one where frames are streamed. -/
def isBlank (k : BlockHeader) (r : Reading) : Bool :=
  k.size = 0 && (k.kind = 0 || k.kind = 2 && !r.isWhole)

/-- The content of a block whose header ends before position `i`, and the position after it. -/
def content? (k : BlockHeader) (h : FrameHeader) (r : Reading) (b : ByteArray) (i before : Nat) :
    Option (ByteArray × Nat) := do
  if k.isBlank r then some (ByteArray.empty, i)
  else if !r.admitsBlock h before k.size then none
  else if k.kind = 0 then do
    let piece ← range? b i (i + k.size)
    some (piece, i + k.size)
  else if k.kind = 1 ∧ (r.isWhole ∨ 0 < h.blockLimit) then do
    let unit ← range? b i (i + 1)
    some (runOf (Bytes.at0 unit 0) k.size, i + 1)
  else none

/-- How many bytes follow the header of a block; the reserved kind has no form. -/
def storedSize? (k : BlockHeader) : Option Nat :=
  if k.kind = 3 then none else if k.kind = 1 then some 1 else some k.size

end BlockHeader

/-- The position after the blocks from position `i` on, by their headers alone. -/
def blocksEnd? (b : ByteArray) : Nat → Nat → Option Nat
  | 0, _ => none
  | fuel + 1, i => do
    let k ← BlockHeader.read? b i
    let next := i + 3 + (← k.storedSize?)
    if k.last then some next else blocksEnd? b fuel next

/-- Reads blocks from position `i` on; gives the content and the position after the last block. -/
def readBlocks? (b : ByteArray) (h : FrameHeader) (r : Reading) :
    Nat → Nat → ByteArray → Option (ByteArray × Nat)
  | 0, _, _ => none
  | fuel + 1, i, out => do
    let k ← BlockHeader.read? b i
    let (piece, next) ← k.content? h r b (i + 3) out.size
    let out := out ++ piece
    if !k.last then readBlocks? b h r fuel next out
    else if r.admitsEnd h (k.isBlank r) out.size then some (out, next)
    else none

/-- The checksum that may follow a content. -/
def checksumBytes (content : ByteArray) : ByteArray :=
  Bytes.littleBytes 4 (Xxh64.checksum content).toUInt32.toNat

/-- Reads the blocks and the checksum of a frame. -/
def readContent? (b : ByteArray) (h : FrameHeader) (r : Reading) : Option (ByteArray × Nat) := do
  let (content, next) ← readBlocks? b h r (b.size + 1) h.start ByteArray.empty
  if !h.checksum then some (content, next)
  else
    let given ← range? b next (next + 4)
    if given = checksumBytes content then some (content, next + 4) else none

/-- The input comes in portions that hold a block of the largest size with its header. -/
def portionSize : Nat := maxBlock + 3

/-- Whether the frame that starts at position `i` ends in the same portion of the input. -/
def liesInPortion (b : ByteArray) (h : FrameHeader) (i : Nat) : Bool :=
  (blocksEnd? b (b.size + 1) h.start).any fun last =>
    let next := if h.checksum then last + 4 else last
    next ≤ min b.size ((i / portionSize + 1) * portionSize)

/-- Reads the frame that starts at position `i`. -/
def readFrame? (b : ByteArray) (i : Nat) (space : Space) : Option (ByteArray × Nat × Space) := do
  let h ← frameHeader? b (i + 4)
  if h.isShort && liesInPortion b h i then
    let (content, next) ← readContent? b h .whole
    some (content, next, space)
  else if FrameHeader.maxWindow < h.window then none
  else
    let space := space.fitTo h
    let (content, next) ← readContent? b h (.streamed space.content)
    some (content, next, space)

/-- Passes over a frame of the skippable kind that starts at position `i`. It is streamed, without
content, as far as space is concerned. -/
def skipFrame? (b : ByteArray) (i : Nat) (space : Space) : Option (ByteArray × Nat × Space) := do
  let size := Bytes.ofLittleBytes (← range? b (i + 4) (i + 8))
  let next := i + 8 + size
  let _ ← range? b (i + 8) next
  some (ByteArray.empty, next, space.fitTo ⟨0, some size, false, i + 8⟩)

/-- Reads frames from position `i` to the end of the input. -/
def readFrames? (b : ByteArray) : Nat → Nat → Space → ByteArray → Option ByteArray
  | 0, _, _, _ => none
  | fuel + 1, i, space, out => do
    let m ← range? b i (i + 4)
    let (content, next, space) ←
      if m.data.toList = magic then readFrame? b i space
      else if Bytes.ofLittleBytes m / 16 = 0x184D2A5 then skipFrame? b i space
      else none
    let out := out ++ content
    if next = b.size then some out else readFrames? b fuel next space out

def decode? (b : ByteArray) : Option ByteArray :=
  readFrames? b (b.size + 1) 0 Space.empty ByteArray.empty

end VersionedTrie.Zstandard
