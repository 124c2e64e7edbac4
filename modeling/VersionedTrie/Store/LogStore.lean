import VersionedTrie.Store.Batch
import VersionedTrie.Store.FrameLog
import VersionedTrie.Volume.Basic

/-! # Log stores

A log store keeps its contents in one file of frames. The store itself holds the number of the open
file, the end of the last frame, and the index of the values; a value is located in the index and
then read from the file and decompressed. A batch is appended as one frame and enters the index only
after that. Opening replays the file and cuts off what does not count. Compaction writes the live
values, ordered by key and compressed as they were, as one frame of a side file, which then takes
the place of the store file.

Compression is not the business of a store: it is given a codec, of which it knows only that decoding
undoes encoding.
-/

set_option autoImplicit false

namespace VersionedTrie

/-- A way to compress values and to get them back. -/
structure Codec where
  encode : ByteArray → ByteArray
  decode? : ByteArray → Option ByteArray
  decode?_encode : ∀ value, decode? (encode value) = some value

/-- An operation as it is written. -/
def Codec.record (c : Codec) : WriteOp → Record
  | .put key value => (key, some (c.encode value))
  | .delete key => (key, none)

structure LogStore where
  codec : Codec
  path : String
  file : FileNumber
  tail : Nat
  index : Index

/-- Actions on a volume that may fail; what an action did before it failed stays done. -/
abbrev VolumeM := ExceptT Error (StateM Volume)

namespace LogStore

private def lift {α : Type} (r : Except IoFault α) : VolumeM α :=
  match r with
  | .ok a => pure a
  | .error fault => throw (.io fault)

theorem run_lift_ok {α : Type} (a : α) (v : Volume) : lift (.ok a) v = (.ok a, v) := rfl

/-- A new store, in place of whatever the file holds. -/
def create (c : Codec) (path : String) : VolumeM LogStore := do
  let (n, v) ← lift ((← get).createFile path)
  set (v.setContent n FrameLog.header)
  pure ⟨c, path, n, FrameLog.headerSize, ∅⟩

def openExisting (c : Codec) (path : String) : VolumeM LogStore := do
  let v ← get
  let n ← lift (v.openFile path)
  let file := v.content n
  match FrameLog.checkHeader file with
  | .error e => throw e
  | .ok () =>
    match FrameLog.replay file with
    | .error defect => throw (.corruption defect)
    | .ok (index, tail) =>
      if tail < file.size then set (v.setContent n (file.extract 0 tail))
      pure ⟨c, path, n, tail, index⟩

/-- The store of a file, which is created if it is not there. -/
def openOrCreate (c : Codec) (path : String) : VolumeM LogStore := do
  if (← get).contains path then openExisting c path else create c path

def size (s : LogStore) : Nat := s.index.size

def isEmpty (s : LogStore) : Bool := s.index.isEmpty

def contains (s : LogStore) (key : ByteArray) : Bool := s.index.contains key

/-! ## Reading -/

def locate (s : LogStore) (key : ByteArray) : Option Extent := s.index[key]?

def readStored (s : LogStore) (v : Volume) (e : Extent) : Except Error ByteArray :=
  match v.readRange s.file e.offset e.size with
  | .ok b => .ok b
  | .error fault => .error (.io fault)

def readValue (s : LogStore) (v : Volume) (e : Extent) : Except Error ByteArray := do
  let stored ← s.readStored v e
  match s.codec.decode? stored with
  | some value => pure value
  | none => .error (.io .notCompressed)

def read (s : LogStore) (v : Volume) (key : ByteArray) : Except Error (Option ByteArray) :=
  match s.locate key with
  | none => .ok none
  | some e => (s.readValue v e).map some

/-! ## Writing -/

/-- The store and the volume after a batch; an empty batch leaves no trace. -/
def write (s : LogStore) (batch : WriteBatch) (v : Volume) : LogStore × Volume :=
  if batch.isEmpty then (s, v)
  else
    let (frame, locations) := FrameLog.frame (batch.map s.codec.record)
    ({ s with
        tail := s.tail + frame.size
        index := FrameLog.applyLocations s.index s.tail locations },
      v.overwrite s.file s.tail frame)

/-- The live values as records, ordered by key. -/
def liveRecords (s : LogStore) (v : Volume) : Except Error (List Record) :=
  s.index.toList.mapM fun (key, e) => do
    let stored ← s.readStored v e
    pure (key, some stored)

def compact (s : LogStore) : VolumeM LogStore := do
  let records ← liftExcept (s.liveRecords (← get))
  let (frame, locations) := FrameLog.frame records
  let side := PathText.compactionFile s.path
  let (n, v) ← lift ((← get).createFile side)
  let v := v.setContent n (FrameLog.header ++ frame)
  let v ← match v.rename side s.path with
    | .ok v => pure v
    | .error fault => do
      set v
      throw (.io fault)
  set v
  let n ← lift (v.openFile s.path)
  pure
    { s with
      file := n
      tail := FrameLog.headerSize + frame.size
      index := FrameLog.applyLocations ∅ FrameLog.headerSize locations }
where
  liftExcept {α : Type} (r : Except Error α) : VolumeM α :=
    match r with
    | .ok a => pure a
    | .error e => throw e

end LogStore

end VersionedTrie
