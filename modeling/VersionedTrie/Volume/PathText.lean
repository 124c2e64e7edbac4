/-! # File paths as text

A path is cut at its slashes. Its file name is the last component, trailing slashes and trailing
single dots aside; a path that ends in two dots, or has no component at all, has none. The file
name's stem is what precedes its last dot, and its extension what follows it, unless that dot comes
first. From these follow the two names that the library derives: the settings file beside a store
and the side file of a compaction.
-/

set_option autoImplicit false

namespace VersionedTrie.PathText

/-- The pieces between the slashes; there is always at least one. -/
def segments : List Char → List (List Char)
  | [] => [[]]
  | c :: r =>
    if c = '/' then [] :: segments r
    else
      match segments r with
      | s :: ss => (c :: s) :: ss
      | [] => [[c]]

def join : List (List Char) → List Char
  | [] => []
  | [s] => s
  | s :: ss => s ++ '/' :: join ss

/-- An empty piece or a single dot. -/
def idle (s : List Char) : Bool := s = [] || s = ['.']

def trimmed (ss : List (List Char)) : List (List Char) :=
  (ss.reverse.dropWhile idle).reverse

def splitName? (path : List Char) : Option (List (List Char) × List Char) :=
  match (trimmed (segments path)).reverse with
  | [] => none
  | name :: front => if name = ['.', '.'] then none else some (front.reverse, name)

def fileName? (path : List Char) : Option (List Char) :=
  (splitName? path).map (·.2)

/-- The text of the folder that the given pieces lead to: idle pieces at the end are dropped, but
the first piece stays, for it tells an absolute path or one that begins with a dot. -/
def folder : List (List Char) → List Char
  | [] => []
  | s :: ss =>
    match trimmed ss with
    | [] => if s = [] then ['/'] else s
    | front => join (s :: front)

def within (folder name : List Char) : List Char :=
  if folder = [] then name
  else if folder.getLast? = some '/' then folder ++ name
  else folder ++ '/' :: name

/-- The path with its file name replaced, or extended if it has none. -/
def withFileName (path name : List Char) : List Char :=
  match splitName? path with
  | some (front, _) => within (folder front) name
  | none => within path name

/-- A file name up to its last dot, and what follows the dot. -/
def splitExtension (name : List Char) : List Char × List Char :=
  match name.reverse.dropWhile (· ≠ '.') with
  | [] => (name, [])
  | [_] => (name, [])
  | _ :: front => (front.reverse, (name.reverse.takeWhile (· ≠ '.')).reverse)

/-- The path less as many characters as its file name's extension has. -/
def shortened (path : List Char) : List Char :=
  match splitName? path with
  | some (_, name) => path.take (path.length - (splitExtension name).2.length)
  | none => path

/-- The path with another extension, which is given to what is left of the path without its own one:
a path that is left without a file name gets none. -/
def withExtension (path extension : List Char) : List Char :=
  let path := shortened path
  match splitName? path with
  | some (front, name) => join (front ++ [(splitExtension name).1 ++ '.' :: extension])
  | none => path

/-- The file that holds the settings of the store at a path. -/
def settingsFile (path : String) : String :=
  let cs := path.toList
  let name := (fileName? cs).getD "state.jmt".toList
  String.ofList (withFileName cs (name ++ ".config.json".toList))

/-- The file in which the compaction of the store at a path is prepared. -/
def compactionFile (path : String) : String :=
  String.ofList (withExtension path.toList "compact".toList)

end VersionedTrie.PathText
