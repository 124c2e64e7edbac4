import VersionedTrie.Json.Value

/-! # The tokens of JSON

A text is cut into brackets, commas, colons, literals, numbers and quoted texts; blanks between them
do not count. A number has no superfluous zero in front, and a quoted text no control character. Its
escapes stand for characters or for halves of surrogate pairs, and whether all halves pair up is
looked at only after the whole text has been read.
-/

set_option autoImplicit false

namespace VersionedTrie.Json

inductive Token where
  | openArray
  | closeArray
  | openObject
  | closeObject
  | comma
  | colon
  | scalar (v : Value)
  | text (t : Text)

def isBlank (c : Char) : Bool := c = ' ' || c = '\n' || c = '\r' || c = '\t'

/-! ## Numbers -/

def afterDigits? (cs : List Char) : Option (List Char) :=
  if (cs.takeWhile Char.isDigit).isEmpty then none else some (cs.dropWhile Char.isDigit)

/-- The part of a number before its fraction. -/
def whole? : List Char → Option (Nat × List Char)
  | '0' :: r => some (0, r)
  | cs =>
    match cs.takeWhile Char.isDigit with
    | [] => none
    | ds => some (Nat.ofDigitChars 10 ds 0, cs.dropWhile Char.isDigit)

/-- What follows a fraction, if there is one, and whether there is. -/
def fraction? : List Char → Option (Bool × List Char)
  | '.' :: r => (afterDigits? r).map (true, ·)
  | r => some (false, r)

def afterSign : List Char → List Char
  | '+' :: r => r
  | '-' :: r => r
  | r => r

/-- What follows an exponent, if there is one, and whether there is. -/
def exponent? : List Char → Option (Bool × List Char)
  | c :: r =>
    if c = 'e' || c = 'E' then (afterDigits? (afterSign r)).map (true, ·)
    else some (false, c :: r)
  | [] => some (false, [])

def unsigned? (cs : List Char) : Option (Value × List Char) := do
  let (n, cs) ← whole? cs
  let (f, cs) ← fraction? cs
  let (e, cs) ← exponent? cs
  pure (if f || e then .otherNumber else .natural n, cs)

def number? : List Char → Option (Value × List Char)
  | '-' :: r => (unsigned? r).map fun (_, r) => (.otherNumber, r)
  | cs => unsigned? cs

/-! ## Quoted texts -/

inductive Piece where
  | char (c : Char)
  | unit (n : Nat)

def hexValue? (c : Char) : Option Nat :=
  if c.isDigit then some (c.toNat - 48)
  else if 'a' ≤ c ∧ c ≤ 'f' then some (c.toNat - 87)
  else if 'A' ≤ c ∧ c ≤ 'F' then some (c.toNat - 55)
  else none

def unit? (a b c d : Char) : Option Nat := do
  let a ← hexValue? a
  let b ← hexValue? b
  let c ← hexValue? c
  let d ← hexValue? d
  pure (((a * 16 + b) * 16 + c) * 16 + d)

def escaped? (c : Char) : Option Char :=
  if c = '"' || c = '\\' || c = '/' then some c
  else if c = 'b' then some '\x08'
  else if c = 'f' then some '\x0c'
  else if c = 'n' then some '\n'
  else if c = 'r' then some '\r'
  else if c = 't' then some '\t'
  else none

/-- The pieces up to the closing quote, and what follows it. -/
def pieces? : List Char → Option (List Piece × List Char)
  | [] => none
  | c :: r =>
    if c = '"' then some ([], r)
    else if c = '\\' then
      match r with
      | [] => none
      | e :: r =>
        if e = 'u' then
          match r with
          | a :: b :: c :: d :: r => do
            let n ← unit? a b c d
            let (ps, r) ← pieces? r
            pure (.unit n :: ps, r)
          | _ => none
        else do
          let c ← escaped? e
          let (ps, r) ← pieces? r
          pure (.char c :: ps, r)
    else if c.toNat < 32 then none
    else do
      let (ps, r) ← pieces? r
      pure (.char c :: ps, r)

def isHighHalf (n : Nat) : Bool := 0xd800 ≤ n && n < 0xdc00

def isLowHalf (n : Nat) : Bool := 0xdc00 ≤ n && n < 0xe000

def pair (high low : Nat) : Char :=
  Char.ofNat (0x10000 + (high - 0xd800) * 0x400 + (low - 0xdc00))

def characters? : List Piece → Option (List Char)
  | [] => some []
  | .char c :: ps => (characters? ps).map (c :: ·)
  | .unit n :: ps =>
    if isHighHalf n then
      match ps with
      | .unit m :: ps => if isLowHalf m then (characters? ps).map (pair n m :: ·) else none
      | _ => none
    else if isLowHalf n then none
    else (characters? ps).map (Char.ofNat n :: ·)

def quoted? (cs : List Char) : Option (Token × List Char) :=
  (pieces? cs).map fun (ps, r) => (.text ((characters? ps).map String.ofList), r)

/-! ## Tokens -/

def literal? (rest : String) (v : Value) (cs : List Char) : Option (Token × List Char) :=
  if rest.toList.isPrefixOf cs then some (.scalar v, cs.drop rest.toList.length) else none

/-- The token that begins with `c`, and what follows it. -/
def Token.first? (c : Char) (r : List Char) : Option (Token × List Char) :=
  if c = '[' then some (.openArray, r)
  else if c = ']' then some (.closeArray, r)
  else if c = '\x7b' then some (.openObject, r)
  else if c = '\x7d' then some (.closeObject, r)
  else if c = ',' then some (.comma, r)
  else if c = ':' then some (.colon, r)
  else if c = '"' then quoted? r
  else if c = 'n' then literal? "ull" .null r
  else if c = 't' then literal? "rue" (.bool true) r
  else if c = 'f' then literal? "alse" (.bool false) r
  else (number? (c :: r)).map fun (v, r) => (.scalar v, r)

/-! ## Every token takes at least one character -/

theorem length_dropWhile_le (p : Char → Bool) (cs : List Char) :
    (cs.dropWhile p).length ≤ cs.length :=
  (List.dropWhile_sublist p).length_le

theorem length_of_afterDigits? {cs r : List Char} (h : afterDigits? cs = some r) :
    r.length ≤ cs.length := by
  unfold afterDigits? at h
  split at h
  · simp at h
  · cases h
    exact length_dropWhile_le _ _

theorem length_of_whole? {cs r : List Char} {n : Nat} (h : whole? cs = some (n, r)) :
    r.length < cs.length := by
  unfold whole? at h
  split at h
  · cases h
    simp
  · split at h
    · simp at h
    · next hd =>
      cases h
      have hs := congrArg List.length (@List.takeWhile_append_dropWhile _ Char.isDigit cs)
      have hp := List.length_pos_iff.mpr hd
      simp only [List.length_append] at hs
      omega

theorem length_of_fraction? {cs r : List Char} {b : Bool} (h : fraction? cs = some (b, r)) :
    r.length ≤ cs.length := by
  unfold fraction? at h
  split at h
  · obtain ⟨r, hr, h⟩ := Option.map_eq_some_iff.mp h
    cases h
    have := length_of_afterDigits? hr
    simp only [List.length_cons]
    omega
  · cases h
    exact Nat.le_refl _

theorem length_afterSign_le (cs : List Char) : (afterSign cs).length ≤ cs.length := by
  unfold afterSign
  split <;> simp

theorem length_of_exponent? {cs r : List Char} {b : Bool} (h : exponent? cs = some (b, r)) :
    r.length ≤ cs.length := by
  unfold exponent? at h
  split at h
  · next c cs =>
    split at h
    · obtain ⟨r, hr, h⟩ := Option.map_eq_some_iff.mp h
      cases h
      have := length_of_afterDigits? hr
      have := length_afterSign_le cs
      simp only [List.length_cons]
      omega
    · cases h
      exact Nat.le_refl _
  · cases h
    exact Nat.le_refl _

theorem length_of_unsigned? {cs r : List Char} {v : Value} (h : unsigned? cs = some (v, r)) :
    r.length < cs.length := by
  obtain ⟨⟨n, a⟩, ha, h⟩ := Option.bind_eq_some_iff.mp h
  obtain ⟨⟨f, b⟩, hb, h⟩ := Option.bind_eq_some_iff.mp h
  obtain ⟨⟨e, c⟩, hc, h⟩ := Option.bind_eq_some_iff.mp h
  cases h
  have := length_of_whole? ha
  have := length_of_fraction? hb
  have := length_of_exponent? hc
  omega

theorem length_of_number? {cs r : List Char} {v : Value} (h : number? cs = some (v, r)) :
    r.length < cs.length := by
  unfold number? at h
  split at h
  · obtain ⟨⟨v, r⟩, hr, h⟩ := Option.map_eq_some_iff.mp h
    cases h
    have := length_of_unsigned? hr
    simp only [List.length_cons]
    omega
  · exact length_of_unsigned? h

theorem length_of_pieces? {cs r : List Char} {ps : List Piece} (h : pieces? cs = some (ps, r)) :
    r.length ≤ cs.length := by
  fun_induction pieces? cs generalizing ps r with
  | case1 => simp at h
  | case2 =>
    cases h
    simp
  | case3 => simp at h
  | case4 _ _ _ _ _ _ ih =>
    obtain ⟨n, _, h⟩ := Option.bind_eq_some_iff.mp h
    obtain ⟨⟨ps, r⟩, hr, h⟩ := Option.bind_eq_some_iff.mp h
    cases h
    have := ih hr
    simp only [List.length_cons]
    omega
  | case5 => simp at h
  | case6 _ _ _ _ ih =>
    obtain ⟨c, _, h⟩ := Option.bind_eq_some_iff.mp h
    obtain ⟨⟨ps, r⟩, hr, h⟩ := Option.bind_eq_some_iff.mp h
    cases h
    have := ih hr
    simp only [List.length_cons]
    omega
  | case7 => simp at h
  | case8 c s _ _ _ ih =>
    obtain ⟨⟨ps, r⟩, hr, h⟩ := Option.bind_eq_some_iff.mp h
    cases h
    have := ih hr
    simp only [List.length_cons]
    omega

theorem length_of_quoted? {cs r : List Char} {t : Token} (h : quoted? cs = some (t, r)) :
    r.length ≤ cs.length := by
  obtain ⟨⟨ps, r⟩, hr, h⟩ := Option.map_eq_some_iff.mp h
  cases h
  exact length_of_pieces? hr

theorem length_of_literal? {rest : String} {v : Value} {cs r : List Char} {t : Token}
    (h : literal? rest v cs = some (t, r)) : r.length ≤ cs.length := by
  unfold literal? at h
  split at h
  · cases h
    simp
  · simp at h

theorem Token.length_of_first? {c : Char} {cs r : List Char} {t : Token}
    (h : Token.first? c cs = some (t, r)) : r.length ≤ cs.length := by
  unfold Token.first? at h
  repeat' split at h
  all_goals first
    | exact length_of_quoted? h
    | exact length_of_literal? h
    | (cases h; exact Nat.le_refl _)
    | skip
  obtain ⟨⟨v, r⟩, hr, h⟩ := Option.map_eq_some_iff.mp h
  cases h
  exact Nat.lt_succ_iff.mp (length_of_number? hr)

end VersionedTrie.Json
