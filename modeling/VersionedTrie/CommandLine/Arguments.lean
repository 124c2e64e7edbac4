import VersionedTrie.NodeKey.Basic

/-! # Arguments of the command line

A request names the store and the format of the output before the command, and the command's own
values after it. An option's value stands in the next argument, or behind an equals sign, or right
behind a one-letter name. Two dashes end the options of a command. No option may be given twice, no
value may be missing or left over, and no path may be empty.

Arguments are read in order, and the first one that breaks a rule decides, as does the first switch
that asks for help or for the version. A value that is an argument of its own is looked at only when
the next value or switch comes, and the one in front of a command only when the whole command has
been read.
-/

set_option autoImplicit false

namespace VersionedTrie.CommandLine

inductive Format where
  | json
  | text
  deriving DecidableEq, Repr

inductive Command where
  | create
  | put (version : Version) (root key value : String) (journal : Option String)
  | delete (version : Version) (root key : String) (journal : Option String)
  | get (root key : String)
  | prove (root key : String)
  | verify (root proof : String)
  | replicate (root dest : String)
  | prune (journal : String)
  | compact
  deriving DecidableEq, Repr

structure Request where
  store : String
  format : Format
  command : Command
  deriving DecidableEq, Repr

inductive Reading where
  | request (r : Request)
  | version
  | help
  deriving DecidableEq, Repr

/-! ## Words -/

inductive Word where
  | plain (s : String)
  | endOfOptions
  | long (name : String) (value : Option String)
  | short (letters : List Char)

def Word.ofString (s : String) : Word :=
  match s.toList with
  | ['-', '-'] => .endOfOptions
  | '-' :: '-' :: r =>
    match r.dropWhile (· ≠ '=') with
    | [] => .long (String.ofList r) none
    | _ :: value => .long (String.ofList (r.takeWhile (· ≠ '='))) (some (String.ofList value))
  | ['-'] => .plain s
  | '-' :: r => .short r
  | _ => .plain s

/-- The value right behind a one-letter name. -/
def attached : List Char → Option String
  | [] => none
  | '=' :: r => some (String.ofList r)
  | r => some (String.ofList r)

/-! ## Values -/

/-- The kinds of values, each with its rule. -/
inductive ValueKind where
  | text
  | path
  | format
  | version

def path? (s : String) : Option String := if s.isEmpty then none else some s

def format? (s : String) : Option Format :=
  if s = "json" then some .json else if s = "text" then some .text else none

/-- Digits, with or without a plus sign before them. -/
def version? (s : String) : Option Version :=
  let digits :=
    match s.toList with
    | '+' :: r => r
    | r => r
  if !digits.isEmpty && digits.all Char.isDigit then
    let n := Nat.ofDigitChars 10 digits 0
    if n < UInt64.size then some n.toUInt64 else none
  else none

def ValueKind.admits : ValueKind → String → Bool
  | .text, _ => true
  | .path, s => (path? s).isSome
  | .format, s => (format? s).isSome
  | .version, s => (version? s).isSome

/-- A value that an option or a place of a command asks for. -/
structure Slot where
  name : String
  kind : ValueKind

/-- How far reading has come: the values found to be right, the value not looked at yet, and the
places of the command that are still open. -/
structure Progress where
  given : List (String × String)
  waiting : Option (Slot × String)
  places : List Slot

namespace Progress

def start (places : List Slot) : Progress := ⟨[], none, places⟩

/-- Looks at the value that waits: it must follow the rule of its kind and be the first of its
slot. -/
def settle (p : Progress) : Option Progress :=
  match p.waiting with
  | none => some p
  | some (slot, s) =>
    if slot.kind.admits s && (p.given.lookup slot.name).isNone then
      some { p with given := (slot.name, s) :: p.given, waiting := none }
    else none

/-- Takes in a value for a slot, to be looked at later. -/
def take (p : Progress) (slot : Slot) (s : String) : Option Progress := do
  let p ← p.settle
  some { p with waiting := some (slot, s) }

/-- Takes in a value for the next open place. -/
def fill (p : Progress) (s : String) : Option Progress :=
  match p.places with
  | [] => none
  | slot :: places => ({ p with places }).take slot s

end Progress

/-! ## Words in order -/

/-- What is known at one place of the command line: options that take a value and switches that take
none, each under a letter and a name, and whether a command is to come. -/
structure Known where
  valued : List (Char × Slot)
  switches : List (Char × String)
  beforeCommand : Bool

/-- What a word that begins with a dash asks for. -/
inductive Mark where
  | option (slot : Slot) (attached : Option String)
  | switch (name : String)

def Known.mark? (k : Known) : Word → Option Mark
  | .plain _ | .endOfOptions | .short [] => none
  | .long name value =>
    if k.switches.any (·.2 = name) then if value.isNone then some (.switch name) else none
    else (k.valued.find? (·.2.name = name)).map fun (_, slot) => .option slot value
  | .short (c :: letters) =>
    match k.switches.lookup c with
    | some name => some (.switch name)
    | none => (k.valued.lookup c).map fun slot => .option slot (attached letters)

def plain? (s : String) : Option String :=
  match Word.ofString s with
  | .plain s => some s
  | _ => none

/-- Why reading stopped. -/
inductive Stop where
  | finished
  | switch (name : String)
  | command (name : String) (rest : List String)

/-- Reads arguments in order. A switch ends the reading, if all is right up to there; so does the
first plain argument where a command is to come. -/
def Known.read (k : Known) (p : Progress) : List String → Option (Progress × Stop)
  | [] => some (p, .finished)
  | s :: r =>
    match Word.ofString s with
    | .plain s =>
      if k.beforeCommand then some (p, .command s r)
      else do
        let p ← p.fill s
        read k p r
    | .endOfOptions =>
      if k.beforeCommand then none
      else do
        let p ← r.foldlM Progress.fill p
        some (p, .finished)
    | w =>
      match k.mark? w, r with
      | none, _ => none
      | some (.switch name), _ => do
        let p ← p.settle
        some (p, .switch name)
      | some (.option slot (some s)), r => do
        let p ← p.take slot s
        let p ← p.settle
        read k p r
      | some (.option slot none), s :: r => do
        let s ← plain? s
        let p ← p.take slot s
        read k p r
      | some (.option _ none), [] => none

/-! ## Requests -/

def beforeCommand : Known where
  valued := [('s', ⟨"store", .path⟩), ('f', ⟨"format", .format⟩)]
  switches := [('V', "version"), ('h', "help")]
  beforeCommand := true

def afterCommand (name : String) : Known where
  valued := if name = "put" ∨ name = "delete" then [('j', ⟨"journal", .path⟩)] else []
  switches := [('h', "help")]
  beforeCommand := false

/-- The values that a command takes, in their order. -/
def places? : String → Option (List Slot)
  | "init" | "compact" => some []
  | "put" => some [⟨"version", .version⟩, ⟨"root", .text⟩, ⟨"key", .text⟩, ⟨"value", .text⟩]
  | "delete" => some [⟨"version", .version⟩, ⟨"root", .text⟩, ⟨"key", .text⟩]
  | "get" | "prove" => some [⟨"root", .text⟩, ⟨"key", .text⟩]
  | "verify" => some [⟨"root", .text⟩, ⟨"proof", .path⟩]
  | "export" => some [⟨"root", .text⟩, ⟨"dest", .path⟩]
  | "prune" => some [⟨"journal", .path⟩]
  | _ => none

/-- The command of a name, if all of its values are given. -/
def Command.ofGiven? (name : String) (given : List (String × String)) : Option Command :=
  let value (name : String) : Option String := given.lookup name
  match name with
  | "init" => some .create
  | "put" => do
    let version ← version? (← value "version")
    pure (.put version (← value "root") (← value "key") (← value "value") (value "journal"))
  | "delete" => do
    let version ← version? (← value "version")
    pure (.delete version (← value "root") (← value "key") (value "journal"))
  | "get" => do pure (.get (← value "root") (← value "key"))
  | "prove" => do pure (.prove (← value "root") (← value "key"))
  | "verify" => do pure (.verify (← value "root") (← value "proof"))
  | "export" => do pure (.replicate (← value "root") (← value "dest"))
  | "prune" => do pure (.prune (← value "journal"))
  | "compact" => some .compact
  | _ => none

/-- Whether help may be asked for on these names: on all commands together, or on one of them. -/
def isHelpTopic : List String → Bool
  | [] => true
  | [name] => name = "help" || (places? name).isSome
  | _ => false

/-- What the arguments ask for; `none` if they break a rule. -/
def Reading.ofArguments? (arguments : List String) : Option Reading := do
  let (before, stop) ← beforeCommand.read (.start []) arguments
  match stop with
  | .finished => none
  | .switch name => pure (if name = "version" then .version else .help)
  | .command "help" r => if isHelpTopic r then pure .help else none
  | .command name r => do
    let places ← places? name
    let (after, stop) ← (afterCommand name).read (.start places) r
    match stop with
    | .switch _ | .command _ _ => pure .help
    | .finished => do
      let after ← after.settle
      let before ← before.settle
      let command ← Command.ofGiven? name after.given
      let format ← format? ((before.given.lookup "format").getD "json")
      pure (.request ⟨(before.given.lookup "store").getD "state.jmt", format, command⟩)

end VersionedTrie.CommandLine
