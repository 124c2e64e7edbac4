import VersionedTrie.Bytes.Text
import VersionedTrie.CommandLine.Arguments
import VersionedTrie.Documents
import VersionedTrie.Replication
import VersionedTrie.Settings

/-! # Commands

Each request opens the store file, performs one command and answers with one JSON value. The
settings of the store are read first, whatever the command; a command that needs the store creates a
missing one before it looks at its other values. A failed command keeps what it has written before.
The stores of a run have one codec, which the program is given.
-/

set_option autoImplicit false

namespace VersionedTrie.CommandLine

open Json (Value)

inductive Failure where
  | error (e : Error)
  | proofNotHex (e : HexError)
  | badRoot (text : String)
  | reading (path : String)
  | writing (path : String)

def Failure.message : Failure → String
  | .error e => e.message
  | .proofNotHex e => e.message
  | .badRoot text => "Invalid root hash: " ++ text
  | .reading path => "reading " ++ path
  | .writing path => "writing " ++ path

/-- What a command prints, and whether it found what was asked for. -/
structure Answer where
  value : Value
  positive : Bool

abbrev ProgramM := ExceptT Failure (StateM Volume)

abbrev StoreM := ExceptT Failure (StateM Access)

namespace ProgramM

def ofExcept {α : Type} : Except Error α → ProgramM α
  | .ok a => pure a
  | .error e => throw (.error e)

def volume {α : Type} (act : VolumeM α) : ProgramM α := do
  let (r, v) := act.run (← get)
  set v
  ofExcept r

/-- Runs an action on a store and puts the volume back. -/
def access {α : Type} (store : LogStore) (cache : Option NodeCache) (act : StoreM α) :
    ProgramM α := do
  let (r, a) := act.run ⟨← get, .ofMedium (.log store), cache⟩
  set a.volume
  match r with
  | .ok x => pure x
  | .error e => throw e

def loadText (path : String) : ProgramM String := do
  match (← get).loadText path with
  | .ok text => pure text
  | .error _ => throw (.reading path)

end ProgramM

def StoreM.of {α : Type} (act : AccessM α) : StoreM α := fun a =>
  match act a with
  | (.ok x, a) => (.ok x, a)
  | (.error e, a) => (.error (.error e), a)

section

variable (c : Codec)

/-! ## Roots and tries -/

def root? (text : String) : Except Failure Digest :=
  if text = "empty" then .ok .placeholder
  else
    match Digest.ofHex text with
    | .ok d => .ok d
    | .error _ => .error (.badRoot text)

def openTrie (s : Settings) (root : String) : StoreM Trie := do
  match root? root with
  | .error e => throw e
  | .ok root =>
    if root = Digest.placeholder then
      match s.tree with
      | .ok tree => pure { Trie.empty with tree }
      | .error defect => throw (.error (.settings defect))
    else .of (Trie.load root)

/-- Opens the store and, on it, the trie of a root. -/
def onTrie {α : Type} (s : Settings) (store root : String) (act : Trie → StoreM α) :
    ProgramM α := do
  let log ← .volume (LogStore.openOrCreate c store)
  .access log s.nodeCache do
    let t ← openTrie s root
    act t

/-! ## The commands -/

def text (s : String) : Value := .ofText s

def create (store : String) : ProgramM Answer := do
  let _ ← .volume (LogStore.create c store)
  pure
    ⟨.record
      [("message", text ("Created store at " ++ store)),
       ("root", text Digest.placeholder.hex),
       ("status", text "ok")], true⟩

def saveJournal (j : Journal) (path : String) : StoreM Unit := do
  let a ← get
  match a.volume.save path (j.toJson.render .indented).toUTF8 with
  | .ok volume => set { a with volume }
  | .error _ => throw (.writing path)

/-- Makes one update and commits it. -/
def write (version : Version) (key value : String) (journal : Option String) (t : Trie) :
    StoreM Answer := do
  let (r, t) ← liftM (t.update version key.toUTF8 value.toUTF8)
  match r with
  | .error e => throw (.error e)
  | .ok () =>
    let (dirty, superseded) := t.pending
    let (j, _) ← .of t.commit
    if let some path := journal then saveJournal j path
    pure
      ⟨.record
        [("dirty", .natural dirty),
         ("prune", .natural superseded),
         ("root", text j.root.hex),
         ("status", text "ok"),
         ("version", .natural version.toNat)], true⟩

def find (key : String) (t : Trie) : StoreM Answer := do
  match ← .of (t.get key.toUTF8) with
  | some value =>
    pure ⟨.record [("key", text key), ("value", text (Bytes.showText value))], true⟩
  | none =>
    pure
      ⟨.record [("message", text ("Key not found: " ++ key)), ("status", text "error")], false⟩

def proofRecord (root : Digest) (p : Inclusion) : Value :=
  let shown := ProofText.ofInclusion p
  .record
    [("conclusive", .bool p.isConclusive),
     ("key", .ofOption text shown.key),
     ("nodes", .array (shown.nodes.map text)),
     ("root", text root.hex),
     ("value", .ofOption text shown.value)]

def prove (key : String) (t : Trie) : StoreM Answer := do
  let p ← .of (t.prove key.toUTF8)
  let root ← .of t.rootDigest
  pure ⟨proofRecord root p, true⟩

def verify (root proof : String) : ProgramM Answer := do
  match root? root with
  | .error e => throw e
  | .ok root =>
    let content ← .loadText proof
    match Value.ofText? content >>= ProofText.ofJson? with
    | none => throw (.error .json)
    | some shown =>
      match shown.inclusion with
      | .error e => throw (.proofNotHex e)
      | .ok p =>
        let verified ← .ofExcept (Inclusion.verify root (some p))
        pure ⟨.record [("root", text root.hex), ("verified", .bool verified)], verified⟩

def replicate (s : Settings) (store root dest : String) : ProgramM Answer := do
  match root? root with
  | .error e => throw e
  | .ok root =>
    let source ← .volume (LogStore.openOrCreate c store)
    let target ← .volume (LogStore.openOrCreate c dest)
    let (r, v, _, _) := Replication.replicate root s.traversal.options (← get)
      (.ofMedium (.log source)) (.ofMedium (.log target))
    set v
    let nodes ← .ofExcept r
    pure
      ⟨.record
        [("dest", text dest),
         ("nodes", .natural nodes),
         ("root", text root.hex),
         ("status", text "ok")], true⟩

def prune (s : Settings) (store journal : String) : ProgramM Answer := do
  let log ← .volume (LogStore.openOrCreate c store)
  let content ← .loadText journal
  match Value.ofText? content >>= Journal.ofJson? with
  | none => throw (.error .json)
  | some j =>
    let pruned ← .access log s.nodeCache (.of j.prune)
    pure
      ⟨.record
        [("pruned", .natural pruned),
         ("root", text j.root.hex),
         ("status", text "ok")], true⟩

def compact (store : String) : ProgramM Answer := do
  let log ← .volume (LogStore.openExisting c store)
  let before := ((← get).content log.file).size
  let log ← .volume log.compact
  let after := ((← get).content log.file).size
  pure
    ⟨.record
      [("bytes_after", .natural after),
       ("bytes_before", .natural before),
       ("entries", .natural log.size),
       ("status", text "ok")], true⟩

def Command.perform (s : Settings) (store : String) : Command → ProgramM Answer
  | .create => CommandLine.create c store
  | .put version root key value journal =>
    onTrie c s store root (write version key value journal)
  | .delete version root key journal => onTrie c s store root (write version key "" journal)
  | .get root key => onTrie c s store root (find key)
  | .prove root key => onTrie c s store root (CommandLine.prove key)
  | .verify root proof => CommandLine.verify root proof
  | .replicate root dest => CommandLine.replicate c s store root dest
  | .prune journal => CommandLine.prune c s store journal
  | .compact => CommandLine.compact c store

def Request.perform (r : Request) : ProgramM Answer := do
  let s ← .ofExcept (Settings.load (← get) r.store)
  r.command.perform c s r.store

/-- The files that a request may read or write. -/
def Request.paths (r : Request) : List String :=
  let own :=
    match r.command with
    | .put _ _ _ _ journal | .delete _ _ _ journal => journal.toList
    | .verify _ path | .replicate _ path | .prune path => [path]
    | .create | .get _ _ | .prove _ _ | .compact => []
  [r.store, PathText.settingsFile r.store, PathText.compactionFile r.store] ++ own

/-! ## What a run shows -/

structure Report where
  code : UInt32
  output : String
  failure : Option Failure

def Format.layout : Format → Json.Layout
  | .json => .compact
  | .text => .indented

def Report.ofAnswer (f : Format) (a : Answer) : Report where
  code := if a.positive then 0 else 1
  output := a.value.render f.layout ++ "\n"
  failure := none

def usage : String :=
  "\n".intercalate
    ["Usage: jmt [-s STORE] [-f json|text] COMMAND [VALUES]",
     "  init",
     "  put VERSION ROOT KEY VALUE [-j JOURNAL]",
     "  delete VERSION ROOT KEY [-j JOURNAL]",
     "  get ROOT KEY",
     "  prove ROOT KEY",
     "  verify ROOT PROOF",
     "  export ROOT DEST",
     "  prune JOURNAL",
     "  compact",
     ""]

/-- Runs the program on its arguments; without a report they break a rule. -/
def run (arguments : List String) : StateM Volume (Option Report) := do
  match Reading.ofArguments? arguments with
  | none => pure none
  | some .version => pure (some ⟨0, "jmt 0.1.0\n", none⟩)
  | some .help => pure (some ⟨0, usage, none⟩)
  | some (.request r) =>
    match ← (r.perform c).run with
    | .ok a => pure (some (.ofAnswer r.format a))
    | .error e => pure (some ⟨1, "", some e⟩)

end

end VersionedTrie.CommandLine
