import VersionedTrie.Error
import VersionedTrie.Volume.PathText

/-! # Volumes

A volume is a directory tree as far as this library needs one: file names lead to numbered files,
and a file that is open stays reachable by its number when its name is moved to another file. Names
are taken relative to one folder; the names of the folders that exist besides it, and all paths to
parent folders, are given. A path with a name over 255 bytes, or over 4095 bytes in all, leads
nowhere. Writing through one number leaves the contents of every other file as they were
(`content_overwrite_ne`).
-/

set_option autoImplicit false

namespace VersionedTrie

abbrev FileNumber := Nat

structure Volume where
  names : Std.ExtTreeMap String FileNumber
  files : Std.ExtTreeMap FileNumber ByteArray
  folders : List String
  next : FileNumber

/-- What a path leads to, whether or not there is a file of the name. -/
inductive Place where
  | file (name : String)
  | folder
  | nowhere (fault : IoFault)
  deriving DecidableEq

namespace Volume

def empty : Volume := ⟨∅, ∅, [], 0⟩

instance : Inhabited Volume := ⟨empty⟩

/-! ## Paths -/

private def upward : List Char := ['.', '.']

def isFolder (v : Volume) (pieces : List (List Char)) : Bool :=
  pieces.all (· = upward) || pieces = [[]] || v.folders.contains (String.ofList (PathText.join pieces))

/-- The folder above the one that the pieces lead to. -/
def above (pieces : List (List Char)) : List (List Char) :=
  if pieces.all (· = upward) then pieces ++ [upward]
  else if pieces = [[]] then pieces
  else pieces.dropLast

/-- The most bytes in one name. -/
def maxNameSize : Nat := 255

/-- The most bytes in one path. -/
def maxPathSize : Nat := 4095

/-- Follows the pieces of a path from the folder reached so far. -/
def walk (v : Volume) : List (List Char) → List (List Char) → Place
  | _, [] => .folder
  | at_, s :: r =>
    if PathText.idle s then walk v at_ r
    else if s = upward then walk v (above at_) r
    else if maxNameSize < (String.ofList s).utf8ByteSize then .nowhere .nameTooLong
    else if v.isFolder (at_ ++ [s]) then walk v (at_ ++ [s]) r
    else if r.isEmpty then .file (String.ofList (PathText.join (at_ ++ [s])))
    else .nowhere .noSuchFile

def place (v : Volume) (path : String) : Place :=
  if path.toList.contains '\x00' then .nowhere .nullInPath
  else if maxPathSize < path.utf8ByteSize then .nowhere .nameTooLong
  else
    match PathText.segments path.toList with
    | [] :: [] => .nowhere .noSuchFile
    | [] :: r => walk v [[]] r
    | ss => walk v [] ss

/-- The pieces of every place that a path passes, if all of them are there. -/
def passed : List (List Char) → List (List Char) → List (List (List Char))
  | _, [] => []
  | at_, s :: r =>
    let next :=
      if PathText.idle s then at_ else if s = upward then above at_ else at_ ++ [s]
    next :: passed next r

/-- The names of the places that a path passes, its own among them. -/
def namesOnPath (path : String) : List String :=
  let places :=
    match PathText.segments path.toList with
    | [] :: r => passed [[]] r
    | ss => passed [] ss
  (places.map fun pieces => String.ofList (PathText.join pieces)).filter (!·.isEmpty)

/-! ## Files by number -/

def content (v : Volume) (n : FileNumber) : ByteArray := (v.files[n]?).getD ByteArray.empty

def setContent (v : Volume) (n : FileNumber) (b : ByteArray) : Volume :=
  { v with files := v.files.insert n b }

/-- `old` with `b` written over it from position `i` on; a gap before `i` is filled with zeros. -/
def splice (old : ByteArray) (i : Nat) (b : ByteArray) : ByteArray :=
  if i = old.size then old ++ b
  else if old.size < i then old ++ (List.replicate (i - old.size) (0 : UInt8)).toByteArray ++ b
  else old.extract 0 i ++ b ++ old.extract (i + b.size) old.size

def overwrite (v : Volume) (n : FileNumber) (i : Nat) (b : ByteArray) : Volume :=
  { v with files := v.files.alter n fun old => some (splice (old.getD ByteArray.empty) i b) }

/-- The `size` bytes of a file from position `i` on. -/
def readRange (v : Volume) (n : FileNumber) (i size : Nat) : Except IoFault ByteArray :=
  let b := v.content n
  if size = 0 then .ok ByteArray.empty
  else if i + size ≤ b.size then .ok (b.extract i (i + size))
  else .error .endOfFile

theorem content_setContent (v : Volume) (n m : FileNumber) (b : ByteArray) :
    (v.setContent n b).content m = if n = m then b else v.content m := by
  by_cases h : n = m <;> simp [content, setContent, Std.ExtTreeMap.getElem?_insert, h]

theorem content_overwrite_self (v : Volume) (n : FileNumber) (i : Nat) (b : ByteArray) :
    (v.overwrite n i b).content n = splice (v.content n) i b := by
  simp [content, overwrite]

theorem content_overwrite_ne (v : Volume) {n m : FileNumber} (i : Nat) (b : ByteArray)
    (h : n ≠ m) : (v.overwrite n i b).content m = v.content m := by
  simp [content, overwrite, Std.ExtTreeMap.getElem?_alter, h]

/-! ## Files by path -/

def contains (v : Volume) (path : String) : Bool :=
  match v.place path with
  | .file name => v.names.contains name
  | .folder => true
  | .nowhere _ => false

def openFile (v : Volume) (path : String) : Except IoFault FileNumber :=
  match v.place path with
  | .file name =>
    match v.names[name]? with
    | some n => .ok n
    | none => .error .noSuchFile
  | .folder => .error .isDirectory
  | .nowhere fault => .error fault

/-- An empty file under the path: the one that is there, emptied, or a new one. -/
def createFile (v : Volume) (path : String) : Except IoFault (FileNumber × Volume) :=
  match v.place path with
  | .file name =>
    match v.names[name]? with
    | some n => .ok (n, v.setContent n ByteArray.empty)
    | none =>
      let n := v.next
      let v := { v with names := v.names.insert name n, next := n + 1 }
      .ok (n, v.setContent n ByteArray.empty)
  | .folder => .error .isDirectory
  | .nowhere fault => .error fault

/-- Moves a name: the path `target` then leads to the file that `source` led to. -/
def rename (v : Volume) (source target : String) : Except IoFault Volume :=
  match v.place source, v.place target with
  | .file s, .file t =>
    match v.names[s]? with
    | some n => .ok { v with names := (v.names.erase s).insert t n }
    | none => .error .noSuchFile
  | .nowhere fault, _ => .error fault
  | _, .nowhere fault => .error fault
  | _, _ => .error .isDirectory

def load (v : Volume) (path : String) : Except IoFault ByteArray := do
  let n ← v.openFile path
  pure (v.content n)

def loadText (v : Volume) (path : String) : Except IoFault String := do
  let b ← v.load path
  match String.fromUTF8? b with
  | some text => pure text
  | none => .error .notText

/-- Makes a file hold exactly the given bytes. -/
def save (v : Volume) (path : String) (b : ByteArray) : Except IoFault Volume := do
  let (n, v) ← v.createFile path
  pure (v.setContent n b)

end Volume

end VersionedTrie
