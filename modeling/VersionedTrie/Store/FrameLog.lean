import VersionedTrie.Error

/-! # Frame logs

A store file is a header of 64 bytes followed by frames, one for each batch. The header is a magic
number of eight bytes, a format version of four, and zeros. A frame is the length of its payload in
four bytes, the digest of the payload, and the payload: one record for each operation, a put with
its key and compressed value or a delete with its key, every length in four bytes. A frame counts
only if all of it is there and the digest is right; reading stops at the first one that does not,
and what it left out is cut off. Positions of values are kept, so that reading a value needs no
search.
-/

set_option autoImplicit false

namespace VersionedTrie

structure Extent where
  offset : Nat
  size : Nat
  deriving DecidableEq

/-- What a frame says of a key: where its value stands, counted from the start of the frame, or that
it is gone. -/
abbrev Location := ByteArray × Option Extent

abbrev Index := ByteMap Extent

/-- An operation as it is written: a value compressed, or `none` for a delete. -/
abbrev Record := ByteArray × Option ByteArray

namespace FrameLog

def headerSize : Nat := 64

def frameHeaderSize : Nat := 36

def magic : ByteArray := "JMT_KVDB".toUTF8

def formatVersion : Nat := 1

def header : ByteArray :=
  magic ++ Bytes.littleBytes 4 formatVersion ++ (List.replicate 52 (0 : UInt8)).toByteArray

/-! ## Writing -/

/-- Appends a record to a payload and says where its value stands, with the size as its four bytes
give it. -/
def addRecord (payload : ByteArray) : Record → ByteArray × Location
  | (key, some value) =>
    let front := payload ++ [1].toByteArray ++ Bytes.littleBytes 4 key.size ++ key ++
      Bytes.littleBytes 4 value.size
    (front ++ value, key, some ⟨frameHeaderSize + front.size, value.size % Bytes.span 4⟩)
  | (key, none) =>
    (payload ++ [2].toByteArray ++ Bytes.littleBytes 4 key.size ++ key, key, none)

def addRecords (payload : ByteArray) : List Record → ByteArray × List Location
  | [] => (payload, [])
  | r :: rs =>
    let (payload, l) := addRecord payload r
    let (payload, ls) := addRecords payload rs
    (payload, l :: ls)

def enclose (payload : ByteArray) : ByteArray :=
  Bytes.littleBytes 4 payload.size ++ (Digest.of payload).bytes ++ payload

/-- The frame of a list of records, with the positions of the values. -/
def frame (records : List Record) : ByteArray × List Location :=
  let (payload, locations) := addRecords ByteArray.empty records
  (enclose payload, locations)

/-- The index after a frame that stands at the given position. -/
def applyLocations (index : Index) (frameOffset : Nat) (locations : List Location) : Index :=
  locations.foldl
    (fun index (key, place) =>
      match place with
      | some e => index.insert key { e with offset := frameOffset + e.offset }
      | none => index.erase key)
    index

/-! ## Reading -/

def number? (b : ByteArray) (i : Nat) : Option Nat :=
  if i + 4 ≤ b.size then some (Bytes.ofLittleBytes (b.extract i (i + 4))) else none

/-- Reads the record at position `i` of a payload; gives what it says of its key, and the position
after it. -/
def readRecord (b : ByteArray) (i : Nat) : Except StoreDefect (Location × Nat) :=
  let tag := Bytes.at0 b i
  match number? b (i + 1) with
  | none => .error .recordOverrun
  | some keySize =>
    let j := i + 5 + keySize
    if b.size < j then .error .recordOverrun
    else
      let key := b.extract (i + 5) j
      if tag = 1 then
        match number? b j with
        | none => .error .recordOverrun
        | some size =>
          if b.size < j + 4 + size then .error .recordOverrun
          else .ok ((key, some ⟨frameHeaderSize + j + 4, size⟩), j + 4 + size)
      else if tag = 2 then .ok ((key, none), j)
      else .error (.unknownRecord tag)

def readRecords (b : ByteArray) : Nat → Nat → List Location → Except StoreDefect (List Location)
  | 0, _, done => .ok done.reverse
  | fuel + 1, i, done =>
    if b.size ≤ i then .ok done.reverse
    else
      match readRecord b i with
      | .error defect => .error defect
      | .ok (l, next) => readRecords b fuel next (l :: done)

/-- What a payload says of its keys, in order. -/
def readPayload (b : ByteArray) : Except StoreDefect (List Location) :=
  readRecords b b.size 0 []

/-- The payload of the frame at position `i`, if the frame is complete and its digest right. -/
def payload? (file : ByteArray) (i : Nat) : Option ByteArray :=
  if i + frameHeaderSize ≤ file.size then
    match number? file i with
    | none => none
    | some size =>
      let start := i + frameHeaderSize
      if start + size ≤ file.size then
        let payload := file.extract start (start + size)
        if (Digest.of payload).bytes = file.extract (i + 4) start then some payload else none
      else none
  else none

/-- Reads frames from position `i` on, as long as they count. -/
def replayFrom (file : ByteArray) : Nat → Nat → Index → Except StoreDefect (Index × Nat)
  | 0, i, index => .ok (index, i)
  | fuel + 1, i, index =>
    match payload? file i with
    | none => .ok (index, i)
    | some payload =>
      match readPayload payload with
      | .error defect => .error defect
      | .ok locations =>
        replayFrom file fuel (i + frameHeaderSize + payload.size)
          (applyLocations index i locations)

/-- The values of a store file, and the end of the last frame that counts. -/
def replay (file : ByteArray) : Except StoreDefect (Index × Nat) :=
  replayFrom file file.size headerSize ∅

def checkHeader (file : ByteArray) : Except Error Unit :=
  if file.size < headerSize then .error (.invalidFile .shortHeader)
  else if file.extract 0 8 ≠ magic then .error (.invalidFile .foreignMagic)
  else
    let found := Bytes.ofLittleBytes (file.extract 8 12)
    if found = formatVersion then .ok () else .error (.versionMismatch formatVersion found)

end FrameLog

end VersionedTrie
