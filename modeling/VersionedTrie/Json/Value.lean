/-! # JSON values and how they are written

Values as the documents of this library need them: numbers with a sign, a fraction or an exponent
are not told apart, nor are texts that hold half a surrogate pair, since no document holds one. The
members of an object keep their order, and a name may stand more than once.

A value is written without any blanks, or with each item and member on a line of its own, indented
by two blanks per level.
-/

set_option autoImplicit false

namespace VersionedTrie.Json

/-- The content of a quoted text; `none` if half a surrogate pair stands alone in it. -/
abbrev Text := Option String

inductive Value where
  | null
  | bool (b : Bool)
  | natural (n : Nat)
  | otherNumber
  | text (t : Text)
  | array (items : List Value)
  | object (members : List (Text × Value))

instance : Inhabited Value := ⟨.null⟩

/-! ## Texts -/

def hexDigit (n : Nat) : Char := Nat.digitChar (n % 16)

def escape (c : Char) : List Char :=
  if c = '"' then ['\\', '"']
  else if c = '\\' then ['\\', '\\']
  else if c = '\x08' then ['\\', 'b']
  else if c = '\x0c' then ['\\', 'f']
  else if c = '\n' then ['\\', 'n']
  else if c = '\r' then ['\\', 'r']
  else if c = '\t' then ['\\', 't']
  else if c.toNat < 32 then ['\\', 'u', '0', '0', hexDigit (c.toNat / 16), hexDigit c.toNat]
  else [c]

def quote : Text → List Char → List Char
  | some s, r => '"' :: (s.toList.flatMap escape ++ '"' :: r)
  | none, r => "\"\\ud800\"".toList ++ r

/-! ## Values -/

inductive Layout where
  | compact
  | indented
  deriving DecidableEq, Repr

namespace Layout

/-- What stands before an item or a member, and before the bracket that closes a container. -/
def gap : Layout → Nat → List Char
  | .compact, _ => []
  | .indented, depth => '\n' :: List.replicate (2 * depth) ' '

def colon : Layout → List Char
  | .compact => [':']
  | .indented => [':', ' ']

end Layout

mutual

/-- The text of a value that stands at a depth, before the text `r`. -/
def Value.write (l : Layout) (depth : Nat) : Value → List Char → List Char
  | .null, r => "null".toList ++ r
  | .bool true, r => "true".toList ++ r
  | .bool false, r => "false".toList ++ r
  | .natural n, r => Nat.toDigits 10 n ++ r
  | .otherNumber, r => "-1".toList ++ r
  | .text t, r => quote t r
  | .array [], r => '[' :: ']' :: r
  | .array (v :: vs), r =>
    '[' :: (l.gap (depth + 1) ++
      Value.write l (depth + 1) v (writeItems l (depth + 1) vs (l.gap depth ++ ']' :: r)))
  | .object [], r => '\x7b' :: '\x7d' :: r
  | .object ((name, v) :: ms), r =>
    '\x7b' :: (l.gap (depth + 1) ++
      quote name (l.colon ++
        Value.write l (depth + 1) v (writeMembers l (depth + 1) ms (l.gap depth ++ '\x7d' :: r))))

def writeItems (l : Layout) (depth : Nat) : List Value → List Char → List Char
  | [], r => r
  | v :: vs, r =>
    ',' :: (l.gap depth ++ Value.write l depth v (writeItems l depth vs r))

def writeMembers (l : Layout) (depth : Nat) : List (Text × Value) → List Char → List Char
  | [], r => r
  | (name, v) :: ms, r =>
    ',' :: (l.gap depth ++
      quote name (l.colon ++ Value.write l depth v (writeMembers l depth ms r)))

end

def Value.render (l : Layout) (v : Value) : String := String.ofList (v.write l 0 [])

end VersionedTrie.Json
