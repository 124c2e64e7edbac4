import VersionedTrie.Json.Record
import VersionedTrie.NodeCache
import VersionedTrie.Traversal.Basic
import VersionedTrie.Volume.Basic

/-! # Settings

The settings of a store stand in a JSON file beside it; whatever that file lacks, or a missing file,
means the defaults. Settings are checked whenever they are read and before they are written: a
traversal needs at least one place in its queue, and the prefix for new tries must be hexadecimal and
not too long.
-/

set_option autoImplicit false

namespace VersionedTrie

open Json (Value)

structure TraversalSettings where
  queueCapacity : UInt64
  /-- How long an item may wait for room in the queue, in milliseconds; `none` is forever. -/
  emitTimeout : Option UInt64
  leavesOnly : Bool
  deriving DecidableEq

structure Settings where
  /-- The prefix of new tries, in hexadecimal. -/
  treePrefix : String
  /-- The number of decoded nodes kept in a cache; without places there is no cache. -/
  cacheCapacity : UInt64
  syncWrites : Bool
  traversal : TraversalSettings
  deriving DecidableEq

namespace TraversalSettings

def default : TraversalSettings := ⟨256, some 30000, false⟩

def toJson (s : TraversalSettings) : Value :=
  .record
    [("queue_capacity", .natural s.queueCapacity.toNat),
     ("emit_timeout_ms", .ofOption (fun n => .natural n.toNat) s.emitTimeout),
     ("leaves_only", .bool s.leavesOnly)]

def ofJson? (v : Value) : Option TraversalSettings := do
  match ← v.givenFields? ["queue_capacity", "emit_timeout_ms", "leaves_only"] with
  | [queueCapacity, emitTimeout, leavesOnly] =>
    let queueCapacity ← Value.orDefault? default.queueCapacity Value.word? queueCapacity
    let emitTimeout ←
      Value.orDefault? default.emitTimeout (Value.nullable? Value.word?) emitTimeout
    let leavesOnly ← Value.orDefault? default.leavesOnly Value.bool? leavesOnly
    pure ⟨queueCapacity, emitTimeout, leavesOnly⟩
  | _ => none

def options (s : TraversalSettings) : TraversalOptions where
  capacity := s.queueCapacity.toNat
  timeout := s.emitTimeout.map (·.toNat)
  leavesOnly := s.leavesOnly

end TraversalSettings

namespace Settings

def default : Settings := ⟨"", 4096, true, .default⟩

instance : Inhabited Settings := ⟨default⟩

def toJson (s : Settings) : Value :=
  .record
    [("tree_prefix", .ofText s.treePrefix),
     ("node_cache_capacity", .natural s.cacheCapacity.toNat),
     ("sync_writes", .bool s.syncWrites),
     ("iterator", s.traversal.toJson)]

def ofJson? (v : Value) : Option Settings := do
  match ← v.givenFields? ["tree_prefix", "node_cache_capacity", "sync_writes", "iterator"] with
  | [treePrefix, cacheCapacity, syncWrites, traversal] =>
    let treePrefix ← Value.orDefault? default.treePrefix Value.text? treePrefix
    let cacheCapacity ← Value.orDefault? default.cacheCapacity Value.word? cacheCapacity
    let syncWrites ← Value.orDefault? default.syncWrites Value.bool? syncWrites
    let traversal ← Value.orDefault? default.traversal TraversalSettings.ofJson? traversal
    pure ⟨treePrefix, cacheCapacity, syncWrites, traversal⟩
  | _ => none

/-! ## Checks -/

def tree (s : Settings) : Except SettingsDefect TreePrefix :=
  match Hex.decode s.treePrefix with
  | .error e => .error (.prefixNotHex e)
  | .ok b =>
    match TreePrefix.ofBytes? b with
    | some tree => .ok tree
    | none => .error (.prefixTooLong b.size)

def check (s : Settings) : Except SettingsDefect Unit :=
  if s.traversal.queueCapacity = 0 then .error .emptyQueue else s.tree.map fun _ => ()

def nodeCache (s : Settings) : Option NodeCache :=
  if s.cacheCapacity = 0 then none else some (.ofCapacity s.cacheCapacity.toNat)

/-! ## The file -/

def checked (s : Settings) : Except Error Settings :=
  match s.check with
  | .ok () => .ok s
  | .error defect => .error (.settings defect)

def load (v : Volume) (store : String) : Except Error Settings :=
  let file := PathText.settingsFile store
  if v.contains file then
    match v.loadText file with
    | .error fault => .error (.io fault)
    | .ok text =>
      match Value.ofText? text >>= ofJson? with
      | none => .error .json
      | some s => s.checked
  else default.checked

def save (s : Settings) (v : Volume) (store : String) : Except Error Volume := do
  let s ← s.checked
  match v.save (PathText.settingsFile store) (s.toJson.render .indented).toUTF8 with
  | .ok v => pure v
  | .error fault => .error (.io fault)

end Settings

end VersionedTrie
