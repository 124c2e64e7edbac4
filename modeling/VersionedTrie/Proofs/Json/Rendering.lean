import VersionedTrie.Json.Reader

/-! # Reading what was written

Every JSON value is read back from its text, in either layout (`Value.ofText?_render`). A value is
read as far as it goes whatever comes after it (`Reader.read_write`), save that a number must not be
followed by what could belong to it.
-/

set_option autoImplicit false

namespace VersionedTrie.Json

/-! ## Numbers -/

/-- A number does not go on with the character. -/
def delimits (c : Char) : Bool := !(c.isDigit || c = '.' || c = 'e' || c = 'E')

/-- The text does not begin with a character that could belong to a number. -/
def Delimited : List Char → Prop
  | [] => True
  | c :: _ => delimits c = true

theorem delimits_eq {c : Char} (h : delimits c = true) :
    c.isDigit = false ∧ c ≠ '.' ∧ c ≠ 'e' ∧ c ≠ 'E' := by
  simpa [delimits, and_assoc] using h

theorem takeWhile_isDigit_append {ds r : List Char} (hds : ∀ c ∈ ds, c.isDigit = true)
    (hr : Delimited r) :
    (ds ++ r).takeWhile Char.isDigit = ds ∧ (ds ++ r).dropWhile Char.isDigit = r := by
  rw [List.takeWhile_append_of_pos hds, List.dropWhile_append_of_pos hds]
  cases r with
  | nil => simp
  | cons c r => simp [(delimits_eq hr).1]

theorem fraction?_of_delimited {r : List Char} (hr : Delimited r) : fraction? r = some (false, r) := by
  cases r with
  | nil => rfl
  | cons c r =>
    rw [fraction?]
    rintro s ⟨⟩
    exact (delimits_eq hr).2.1 rfl

theorem exponent?_of_delimited {r : List Char} (hr : Delimited r) :
    exponent? r = some (false, r) := by
  cases r with
  | nil => rfl
  | cons c r => simp [exponent?, (delimits_eq hr).2.2.1, (delimits_eq hr).2.2.2]

theorem exists_toDigits_eq_cons (n : Nat) :
    ∃ c ds, Nat.toDigits 10 n = c :: ds ∧ c.isDigit = true ∧ (0 < n → c ≠ '0') := by
  induction n using Nat.strongRecOn with
  | ind n ih =>
    rw [Nat.toDigits_eq_if (by decide)]
    by_cases hlt : n < 10
    · have hdigits : ∀ m : Fin 10, (Nat.digitChar m).isDigit = true ∧
          (0 < m.val → Nat.digitChar m ≠ '0') := by decide
      rw [if_pos hlt]
      exact ⟨_, [], rfl, hdigits ⟨n, hlt⟩⟩
    · -- The first digit is that of the number without its last digit.
      obtain ⟨c, ds, hds, hc, hne⟩ := ih (n / 10) (by omega)
      rw [if_neg hlt, hds]
      exact ⟨c, _, rfl, hc, fun _ => hne (by omega)⟩

theorem whole?_toDigits (n : Nat) {r : List Char} (hr : Delimited r) :
    whole? (Nat.toDigits 10 n ++ r) = some (n, r) := by
  by_cases hn : n = 0
  · subst hn
    rfl
  · obtain ⟨c, ds, hds, -, hc⟩ := exists_toDigits_eq_cons n
    have hdigits : ∀ c ∈ Nat.toDigits 10 n, c.isDigit = true := fun c hc =>
      Nat.isDigit_of_mem_toDigits (by decide) (by decide) hc
    obtain ⟨htake, hdrop⟩ := takeWhile_isDigit_append hdigits hr
    rw [hds, List.cons_append] at htake hdrop
    rw [hds, List.cons_append, whole?.eq_def]
    split
    · rename_i heq
      exact absurd (List.cons.inj heq).1 (hc (by omega))
    · simp only [htake, hdrop]
      rw [← hds, Nat.ofDigitChars_toDigits (by decide) (by decide)]

theorem unsigned?_toDigits (n : Nat) {r : List Char} (hr : Delimited r) :
    unsigned? (Nat.toDigits 10 n ++ r) = some (.natural n, r) := by
  simp [unsigned?, whole?_toDigits n hr, fraction?_of_delimited hr, exponent?_of_delimited hr]

theorem ne_of_isDigit {c d : Char} (hc : c.isDigit = true) (hd : d.isDigit = false) : c ≠ d := by
  rintro rfl
  rw [hc] at hd
  cases hd

theorem first?_of_isDigit {c : Char} (hc : c.isDigit = true) (cs : List Char) :
    Token.first? c cs = (unsigned? (c :: cs)).map fun (v, r) => (.scalar v, r) := by
  have hnumber : number? (c :: cs) = unsigned? (c :: cs) := by
    rw [number?]
    rintro r h
    exact ne_of_isDigit hc (by decide) (List.cons.inj h).1
  have hne (d : Char) (hd : d.isDigit = false) : ¬c = d := ne_of_isDigit hc hd
  rw [Token.first?, if_neg (hne _ (by decide)), if_neg (hne _ (by decide)),
    if_neg (hne _ (by decide)), if_neg (hne _ (by decide)), if_neg (hne _ (by decide)),
    if_neg (hne _ (by decide)), if_neg (hne _ (by decide)), if_neg (hne _ (by decide)),
    if_neg (hne _ (by decide)), if_neg (hne _ (by decide)), hnumber]

/-! ## Quoted texts -/

/-- How a character of a quoted text is read. -/
def piece (c : Char) : Piece :=
  if c ∈ ['"', '\\', '\x08', '\x0c', '\n', '\r', '\t'] ∨ 32 ≤ c.toNat then .char c
  else .unit c.toNat

theorem unit?_hexDigit {n : Nat} (hn : n < 32) :
    unit? '0' '0' (hexDigit (n / 16)) (hexDigit n) = some n := by
  have hall : ∀ n : Fin 32, unit? '0' '0' (hexDigit (n.val / 16)) (hexDigit n.val) = some n.val := by
    decide
  exact hall ⟨n, hn⟩

theorem pieces?_escape (c : Char) {ps : List Piece} {cs r : List Char}
    (h : pieces? cs = some (ps, r)) :
    pieces? (escape c ++ cs) = some (piece c :: ps, r) := by
  by_cases hshort : c ∈ ['"', '\\', '\x08', '\x0c', '\n', '\r', '\t']
  · simp only [List.mem_cons, List.not_mem_nil, or_false] at hshort
    obtain rfl | rfl | rfl | rfl | rfl | rfl | rfl := hshort <;>
      simp [escape, pieces?.eq_def ('\\' :: _), escaped?, h, piece]
  · have hne := hshort
    simp only [List.mem_cons, List.not_mem_nil, or_false, not_or] at hne
    obtain ⟨h1, h2, h3, h4, h5, h6, h7⟩ := hne
    by_cases hlt : c.toNat < 32
    · have hescape : escape c =
          ['\\', 'u', '0', '0', hexDigit (c.toNat / 16), hexDigit c.toNat] := by
        simp [escape, h1, h2, h3, h4, h5, h6, h7, hlt]
      have hpiece : piece c = .unit c.toNat := by simp [piece, h1, h2, h3, h4, h5, h6, h7]; omega
      rw [hescape, hpiece, List.cons_append, pieces?.eq_def]
      simp [unit?_hexDigit hlt, h]
    · have hescape : escape c = [c] := by simp [escape, h1, h2, h3, h4, h5, h6, h7, hlt]
      have hpiece : piece c = .char c := by simp [piece, Nat.le_of_not_lt hlt]
      rw [hescape, hpiece, List.singleton_append, pieces?.eq_def]
      simp [h1, h2, hlt, h]

theorem characters?_piece (c : Char) (ps : List Piece) :
    characters? (piece c :: ps) = (characters? ps).map (c :: ·) := by
  rw [piece]
  split
  · rfl
  · rename_i h
    have hlt : c.toNat < 32 := by omega
    have hhigh : isHighHalf c.toNat = false := by simp [isHighHalf]; omega
    have hlow : isLowHalf c.toNat = false := by simp [isLowHalf]; omega
    rw [characters?.eq_def]
    simp [hhigh, hlow]

theorem pieces?_quoted (cs r : List Char) :
    pieces? (cs.flatMap escape ++ '"' :: r) = some (cs.map piece, r) := by
  induction cs with
  | nil => rw [List.flatMap_nil, List.nil_append, pieces?.eq_def]; rfl
  | cons c cs ih =>
    rw [List.flatMap_cons, List.append_assoc]
    exact pieces?_escape c ih

theorem characters?_map_piece (cs : List Char) : characters? (cs.map piece) = some cs := by
  induction cs with
  | nil => rfl
  | cons c cs ih => rw [List.map_cons, characters?_piece, ih, Option.map_some]

/-- A text that holds half a surrogate pair is written as one that is read so. -/
theorem quote_none (r : List Char) :
    quote none r = '"' :: '\\' :: 'u' :: 'd' :: '8' :: '0' :: '0' :: '"' :: r := by
  have hchars : "\"\\ud800\"".toList = ['"', '\\', 'u', 'd', '8', '0', '0', '"'] := by decide
  have hquote : quote none r = "\"\\ud800\"".toList ++ r := rfl
  rw [hquote, hchars]
  rfl

theorem quoted?_none (r : List Char) :
    quoted? ('\\' :: 'u' :: 'd' :: '8' :: '0' :: '0' :: '"' :: r) = some (.text none, r) := by
  have hunit : unit? 'd' '8' '0' '0' = some 0xd800 := by decide
  have hend : pieces? ('"' :: r) = some ([], r) := pieces?_quoted [] r
  have hpieces : pieces? ('\\' :: 'u' :: 'd' :: '8' :: '0' :: '0' :: '"' :: r) =
      some ([.unit 0xd800], r) := by
    rw [pieces?.eq_def]
    simp [hunit, hend]
  have hhalf : characters? [.unit 0xd800] = none := by
    rw [characters?.eq_def]
    simp [isHighHalf]
  rw [quoted?, hpieces, Option.map_some]
  dsimp only
  rw [hhalf, Option.map_none]

theorem first?_quote (t : Text) (r : List Char) :
    ∃ cs, quote t r = '"' :: cs ∧ Token.first? '"' cs = some (.text t, r) := by
  have hfirst (cs : List Char) : Token.first? '"' cs = quoted? cs := rfl
  cases t with
  | none => exact ⟨_, quote_none r, (hfirst _).trans (quoted?_none r)⟩
  | some s =>
    refine ⟨_, rfl, (hfirst _).trans ?_⟩
    rw [quoted?, pieces?_quoted, Option.map_some]
    dsimp only
    rw [characters?_map_piece, Option.map_some, String.ofList_toList]

/-! ## Tokens -/

theorem literal?_append (rest : String) (v : Value) (r : List Char) :
    literal? rest v (rest.toList ++ r) = some (.scalar v, r) := by
  rw [literal?, if_pos (by simp), List.drop_left]

namespace Reader

theorem read_blank {s : Reader} {c : Char} (h : isBlank c = true) (r : List Char) :
    s.read (c :: r) = s.read r := by
  rw [read, if_pos h]

theorem read_gap (s : Reader) (l : Layout) (depth : Nat) (r : List Char) :
    s.read (l.gap depth ++ r) = s.read r := by
  have hspaces (n : Nat) : s.read (List.replicate n ' ' ++ r) = s.read r := by
    induction n with
    | zero => rfl
    | succ n ih =>
      rw [List.replicate_succ, List.cons_append, read_blank rfl, ih]
  cases l with
  | compact => rfl
  | indented =>
    rw [Layout.gap, List.cons_append, read_blank rfl]
    exact hspaces _

/-- Reads one token. -/
theorem read_token {s s' : Reader} {c : Char} {cs r : List Char} {t : Token}
    (hblank : isBlank c = false) (htoken : Token.first? c cs = some (t, r))
    (hstep : s.step t = some s') : s.read (c :: cs) = s'.read r := by
  rw [read, hblank, if_neg Bool.false_ne_true]
  split
  · rename_i h
    rw [htoken] at h
    cases h
  · rename_i t' rest h
    obtain ⟨rfl, rfl⟩ := Prod.mk.inj (Option.some.inj (htoken.symm.trans h))
    rw [hstep]

theorem read_quote {s s' : Reader} {t : Text} (hstep : s.step (.text t) = some s') (r : List Char) :
    s.read (quote t r) = s'.read r := by
  obtain ⟨cs, hquote, hfirst⟩ := first?_quote t r
  rw [hquote]
  exact read_token rfl hfirst hstep

/-! ## Values -/

/-- The token that the text of a value begins with. -/
def opening : Value → Token
  | .text t => .text t
  | .array _ => .openArray
  | .object _ => .openObject
  | v => .scalar v

/-- A value may come next, and belongs among the given containers. -/
def Expects (s : Reader) (around : List Open) : Prop :=
  ∀ v, s.step (opening v) = enter around (opening v)

theorem expects_value (around : List Open) : Expects ⟨.value, around⟩ around := fun _ => rfl

theorem expects_firstItem (around : List Open) :
    Expects ⟨.firstItem, around⟩ (.item [] :: around) := fun v => by
  cases v <;> rfl

theorem read_natural {s : Reader} {around : List Open} (hs : s.Expects around) (n : Nat)
    {r : List Char} (hr : Delimited r) :
    s.read (Nat.toDigits 10 n ++ r) = (put (.natural n) around).read r := by
  obtain ⟨c, ds, hds, hc, -⟩ := exists_toDigits_eq_cons n
  have htoken : Token.first? c (ds ++ r) = some (.scalar (.natural n), r) := by
    rw [first?_of_isDigit hc, ← List.cons_append, ← hds, unsigned?_toDigits n hr, Option.map_some]
  have hblank : isBlank c = false := by
    have hne (d : Char) (hd : d.isDigit = false) : ¬c = d := ne_of_isDigit hc hd
    simp [isBlank, hne ' ' (by decide), hne '\n' (by decide), hne '\r' (by decide),
      hne '\t' (by decide)]
  rw [hds, List.cons_append]
  exact read_token hblank htoken (hs (.natural n))

theorem read_otherNumber {s : Reader} {around : List Open} (hs : s.Expects around) {r : List Char}
    (hr : Delimited r) : s.read ('-' :: '1' :: r) = (put .otherNumber around).read r := by
  have htoken : Token.first? '-' ('1' :: r) = some (.scalar .otherNumber, r) := by
    have hunsigned := unsigned?_toDigits 1 hr
    have hone : Nat.toDigits 10 1 ++ r = '1' :: r := rfl
    rw [hone] at hunsigned
    change (number? ('-' :: '1' :: r)).map _ = _
    rw [number?, hunsigned]
    rfl
  exact read_token rfl htoken (hs .otherNumber)

theorem read_literal {s : Reader} {around : List Open} (hs : s.Expects around) {v : Value}
    {c : Char} (rest : String) (hblank : isBlank c = false)
    (hfirst : ∀ cs, Token.first? c cs = literal? rest v cs) (hv : opening v = .scalar v)
    (r : List Char) : s.read (c :: (rest.toList ++ r)) = (put v around).read r := by
  have hstep : s.step (.scalar v) = some (put v around) := by
    have := hs v
    rw [hv] at this
    exact this
  exact read_token hblank ((hfirst _).trans (literal?_append rest v r)) hstep

theorem read_colon (l : Layout) (members : List (Text × Value)) (name : Text) (around : List Open)
    (r : List Char) :
    (⟨.colon members name, around⟩ : Reader).read (l.colon ++ r) =
      (⟨.value, .member members name :: around⟩ : Reader).read r := by
  cases l with
  | compact => exact read_token rfl rfl rfl
  | indented =>
    rw [Layout.colon, List.cons_append, read_token rfl rfl rfl]
    exact read_blank rfl r

theorem step_closeArray (items : List Value) (around : List Open) :
    (⟨.afterItem items, around⟩ : Reader).step .closeArray =
      some (put (.array items.reverse) around) := rfl

theorem step_closeObject (members : List (Text × Value)) (around : List Open) :
    (⟨.afterMember members, around⟩ : Reader).step .closeObject =
      some (put (.object members.reverse) around) := rfl

theorem delimited_gap (l : Layout) (depth : Nat) {c : Char} (r : List Char)
    (hc : Delimited (c :: r)) : Delimited (l.gap depth ++ c :: r) := by
  cases l with
  | compact => exact hc
  | indented => rfl

theorem delimited_writeItems (l : Layout) (depth : Nat) (vs : List Value) {r : List Char}
    (hr : Delimited r) : Delimited (writeItems l depth vs r) := by
  cases vs with
  | nil => exact hr
  | cons v vs => rfl

theorem delimited_writeMembers (l : Layout) (depth : Nat) (ms : List (Text × Value)) {r : List Char}
    (hr : Delimited r) : Delimited (writeMembers l depth ms r) := by
  cases ms with
  | nil => exact hr
  | cons m ms => rfl

-- The recursion is that of the writer. Inside a container the reader is where the container begins,
-- with the items or members so far, the latest first, which is why the reading of those that follow
-- is said of any that came before.
mutual

/-- A value that is expected is read, whatever delimited text comes after it. -/
theorem read_write (l : Layout) (depth : Nat) : (v : Value) → {s : Reader} → {around : List Open} →
    s.Expects around → {r : List Char} → Delimited r →
    s.read (v.write l depth r) = (put v around).read r
  | .null, _, _, hs, r, _ => read_literal hs "ull" rfl (fun _ => rfl) rfl r
  | .bool true, _, _, hs, r, _ => read_literal hs "rue" rfl (fun _ => rfl) rfl r
  | .bool false, _, _, hs, r, _ => read_literal hs "alse" rfl (fun _ => rfl) rfl r
  | .natural n, _, _, hs, _, hr => read_natural hs n hr
  | .otherNumber, _, _, hs, _, hr => read_otherNumber hs hr
  | .text t, _, _, hs, r, _ => read_quote (hs (.text t)) r
  | .array [], _, _, hs, r, _ => by
    rw [Value.write, read_token rfl rfl (hs (.array []))]
    exact read_token rfl rfl rfl
  | .array (v :: vs), _, around, hs, r, _ => by
    have hclose : Delimited (l.gap depth ++ ']' :: r) := delimited_gap l depth r rfl
    rw [Value.write, read_token rfl rfl (hs (.array [])), read_gap,
      read_write l (depth + 1) v (expects_firstItem around)
        (delimited_writeItems l (depth + 1) vs hclose),
      put, read_writeItems l (depth + 1) vs [v] around hclose, read_gap,
      read_token rfl rfl (step_closeArray (vs.reverse ++ [v]) around), List.reverse_append,
      List.reverse_reverse, List.reverse_singleton, List.singleton_append]
  | .object [], _, _, hs, r, _ => by
    rw [Value.write, read_token rfl rfl (hs (.object []))]
    exact read_token rfl rfl rfl
  | .object ((name, v) :: ms), _, around, hs, r, _ => by
    have hclose : Delimited (l.gap depth ++ '\x7d' :: r) := delimited_gap l depth r rfl
    rw [Value.write, read_token rfl rfl (hs (.object [])), read_gap, read_quote rfl, read_colon,
      read_write l (depth + 1) v (expects_value (.member [] name :: around))
        (delimited_writeMembers l (depth + 1) ms hclose),
      put, read_writeMembers l (depth + 1) ms [(name, v)] around hclose, read_gap,
      read_token rfl rfl (step_closeObject (ms.reverse ++ [(name, v)]) around), List.reverse_append,
      List.reverse_reverse, List.reverse_singleton, List.singleton_append]

theorem read_writeItems (l : Layout) (depth : Nat) : (vs : List Value) → (items : List Value) →
    (around : List Open) → {r : List Char} → Delimited r →
    (⟨.afterItem items, around⟩ : Reader).read (writeItems l depth vs r) =
      (⟨.afterItem (vs.reverse ++ items), around⟩ : Reader).read r
  | [], _, _, _, _ => rfl
  | v :: vs, items, around, r, hr => by
    rw [writeItems, read_token rfl rfl rfl, read_gap,
      read_write l depth v (expects_value (.item items :: around))
        (delimited_writeItems l depth vs hr),
      put, read_writeItems l depth vs (v :: items) around hr, List.reverse_cons,
      List.append_assoc, List.singleton_append]

theorem read_writeMembers (l : Layout) (depth : Nat) : (ms : List (Text × Value)) →
    (members : List (Text × Value)) → (around : List Open) → {r : List Char} → Delimited r →
    (⟨.afterMember members, around⟩ : Reader).read (writeMembers l depth ms r) =
      (⟨.afterMember (ms.reverse ++ members), around⟩ : Reader).read r
  | [], _, _, _, _ => rfl
  | (name, v) :: ms, members, around, r, hr => by
    rw [writeMembers, read_token rfl rfl rfl, read_gap, read_quote rfl, read_colon,
      read_write l depth v (expects_value (.member members name :: around))
        (delimited_writeMembers l depth ms hr),
      put, read_writeMembers l depth ms ((name, v) :: members) around hr, List.reverse_cons,
      List.append_assoc, List.singleton_append]

end

end Reader

/-- A value is read back from its text. -/
theorem Value.ofText?_render (l : Layout) (v : Value) : Value.ofText? (v.render l) = some v := by
  have hread := Reader.read_write l 0 v (Reader.expects_value []) (r := []) trivial
  have hstart : (⟨.value, []⟩ : Reader) = Reader.start := rfl
  rw [hstart, Reader.put, Reader.read] at hread
  rw [Value.ofText?, Value.render, String.toList_ofList, hread]
  rfl

end VersionedTrie.Json
