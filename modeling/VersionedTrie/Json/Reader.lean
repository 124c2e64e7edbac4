import VersionedTrie.Json.Token

/-! # Reading JSON

A reader goes over the tokens once. It keeps what may come next and the containers that are still
open around it; when a value is complete it goes into the innermost of them. Nothing but blanks may
surround the one value of a text.
-/

set_option autoImplicit false

namespace VersionedTrie.Json

/-- A container that waits for the value being read; what it has so far, the latest first. -/
inductive Open where
  | item (items : List Value)
  | member (members : List (Text × Value)) (name : Text)

inductive Stage where
  | value
  /-- After the bracket that opens an array. -/
  | firstItem
  | afterItem (items : List Value)
  /-- After the brace that opens an object. -/
  | firstName
  | name (members : List (Text × Value))
  | colon (members : List (Text × Value)) (name : Text)
  | afterMember (members : List (Text × Value))
  | complete (v : Value)

structure Reader where
  stage : Stage
  around : List Open

namespace Reader

def start : Reader := ⟨.value, []⟩

/-- Puts a complete value where it belongs. -/
def put (v : Value) : List Open → Reader
  | [] => ⟨.complete v, []⟩
  | .item items :: around => ⟨.afterItem (v :: items), around⟩
  | .member members name :: around => ⟨.afterMember ((name, v) :: members), around⟩

def enter (around : List Open) : Token → Option Reader
  | .openArray => some ⟨.firstItem, around⟩
  | .openObject => some ⟨.firstName, around⟩
  | .scalar v => some (put v around)
  | .text t => some (put (.text t) around)
  | _ => none

def step (s : Reader) (t : Token) : Option Reader :=
  match s.stage, t with
  | .value, t => enter s.around t
  | .firstItem, .closeArray => some (put (.array []) s.around)
  | .firstItem, t => enter (.item [] :: s.around) t
  | .afterItem items, .comma => some ⟨.value, .item items :: s.around⟩
  | .afterItem items, .closeArray => some (put (.array items.reverse) s.around)
  | .firstName, .closeObject => some (put (.object []) s.around)
  | .firstName, .text name => some ⟨.colon [] name, s.around⟩
  | .name members, .text name => some ⟨.colon members name, s.around⟩
  | .colon members name, .colon => some ⟨.value, .member members name :: s.around⟩
  | .afterMember members, .comma => some ⟨.name members, s.around⟩
  | .afterMember members, .closeObject => some (put (.object members.reverse) s.around)
  | _, _ => none

def read (s : Reader) : List Char → Option Reader
  | [] => some s
  | c :: r =>
    if isBlank c then read s r
    else
      match h : Token.first? c r with
      | none => none
      | some (t, rest) =>
        match s.step t with
        | none => none
        | some s =>
          have := Token.length_of_first? h
          read s rest
termination_by cs => cs.length
decreasing_by all_goals simp only [List.length_cons]; omega

def value? (s : Reader) : Option Value :=
  match s.stage with
  | .complete v => some v
  | _ => none

end Reader

def Value.ofText? (text : String) : Option Value := do
  let s ← Reader.start.read text.toList
  s.value?

end VersionedTrie.Json
