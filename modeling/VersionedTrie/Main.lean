import VersionedTrie.CommandLine.Program
import VersionedTrie.Proofs.Zstandard

/-! # The program

Loads the files that a request may touch into a volume, performs the request there, and writes back
what has changed.
-/

set_option autoImplicit false

namespace VersionedTrie.CommandLine

inductive Found where
  | file (b : ByteArray)
  | folder
  | nothing

def look (path : String) : IO Found := do
  try
    let b ← IO.FS.readBinFile path
    pure (.file b)
  catch e =>
    match e with
    | .inappropriateType .. => pure .folder
    | _ => pure .nothing

def mount (paths : List String) : IO Volume := do
  let mut v := Volume.empty
  for path in paths do
    for name in Volume.namesOnPath path do
      if let .folder ← look name then
        v := { v with folders := name :: v.folders }
  for path in paths do
    if let .file name := v.place path then
      if let .file b ← look name then
        if let .ok w := v.save name b then
          v := w
  pure v

def writeBack (before after : Volume) : IO Unit := do
  for (name, n) in after.names.toList do
    let b := after.content n
    let old := before.names[name]?.map before.content
    if old != some b then
      IO.FS.writeBinFile name b
  for name in before.names.keys do
    if !after.names.contains name then
      IO.FS.removeFile name

end VersionedTrie.CommandLine

open VersionedTrie.CommandLine in
def main (arguments : List String) : IO UInt32 := do
  let paths :=
    match Reading.ofArguments? arguments with
    | some (.request r) => r.paths
    | _ => []
  let before ← mount paths
  let (report, after) := (run .zstandard arguments).run before
  writeBack before after
  match report with
  | none =>
    IO.eprint usage
    pure 2
  | some r =>
    IO.print r.output
    if let some e := r.failure then
      IO.eprintln ("Error: " ++ e.message)
    pure r.code
