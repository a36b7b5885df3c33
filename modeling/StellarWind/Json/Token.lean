import StellarWind.Json.Numeral

/-!
# Tokens of a document

A document is a row of tokens with blanks between them. A text in quotes may
have escapes that do not spell characters, such as one half of a surrogate pair;
it is a token all the same, without a value. Whether that matters is decided
where the text is used.

Main statement: reading a token takes at least one character (`lexeme?_length`),
so `Token.scan` reads every document to its end.
-/

namespace StellarWind

inductive Token where
  | openBrace
  | closeBrace
  | openBracket
  | closeBracket
  | colon
  | comma
  | null
  | bool (value : Bool)
  | number (value : Numeral)
  /-- A text in quotes; `none` if its escapes do not spell characters. -/
  | text (value : Option String)
deriving DecidableEq, Repr

namespace Token

/-! ### Texts in quotes -/

/-- A part of a text: a character, or a 16-bit unit that an escape names. -/
inductive Piece where
  | char (c : Char)
  | unit (u : Nat)
deriving DecidableEq, Repr

/-- The characters that pieces spell. Two halves of a surrogate pair are one
character, and a half alone is none. -/
def spell? : List Piece → Option (List Char)
  | [] => some []
  | .char c :: rest => (spell? rest).map (c :: ·)
  | .unit u :: rest =>
    if u < 0xd800 || 0xdfff < u then (spell? rest).map (Char.ofNat u :: ·)
    else if 0xdbff < u then none
    else match rest with
      | .unit v :: rest' =>
        if 0xdc00 ≤ v && v ≤ 0xdfff then
          (spell? rest').map (Char.ofNat (0x10000 + (u - 0xd800) * 0x400 + (v - 0xdc00)) :: ·)
        else none
      | _ => none

def hexValue? (c : Char) : Option Nat :=
  if '0' ≤ c ∧ c ≤ '9' then some (c.toNat - '0'.toNat)
  else if 'a' ≤ c ∧ c ≤ 'f' then some (c.toNat - 'a'.toNat + 10)
  else if 'A' ≤ c ∧ c ≤ 'F' then some (c.toNat - 'A'.toNat + 10)
  else none

def unit? (a b c d : Char) : Option Nat := do
  return (((← hexValue? a) * 16 + (← hexValue? b)) * 16 + (← hexValue? c)) * 16 + (← hexValue? d)

/-- The character of an escape of one letter. -/
def escaped? : Char → Option Char
  | '"' => some '"'
  | '\\' => some '\\'
  | '/' => some '/'
  | 'b' => some (Char.ofNat 8)
  | 'f' => some (Char.ofNat 12)
  | 'n' => some (Char.ofNat 10)
  | 'r' => some (Char.ofNat 13)
  | 't' => some (Char.ofNat 9)
  | _ => none

/-- The pieces of a text up to its closing quote, and what follows it. Control
characters have to be escaped. -/
def pieces? : List Char → Option (List Piece × List Char)
  | [] => none
  | '"' :: rest => some ([], rest)
  | '\\' :: 'u' :: a :: b :: c :: d :: rest =>
    match unit? a b c d, pieces? rest with
    | some u, some (ps, rest') => some (.unit u :: ps, rest')
    | _, _ => none
  | '\\' :: e :: rest =>
    match escaped? e, pieces? rest with
    | some c, some (ps, rest') => some (.char c :: ps, rest')
    | _, _ => none
  | c :: rest =>
    if c.toNat < 0x20 || c == '\\' then none
    else match pieces? rest with
      | some (ps, rest') => some (.char c :: ps, rest')
      | none => none

theorem pieces?_length {cs rest : List Char} {ps : List Piece}
    (h : pieces? cs = some (ps, rest)) : rest.length < cs.length := by
  induction cs using pieces?.induct generalizing ps rest <;>
    simp_all [pieces?] <;> omega

/-! ### Numerals -/

def isDigit (c : Char) : Bool := '0' ≤ c && c ≤ '9'

/-- The digits at the front and what follows them; there has to be one. -/
def digits? (cs : List Char) : Option (List Char × List Char) :=
  if (cs.takeWhile isDigit).isEmpty then none
  else some (cs.takeWhile isDigit, cs.dropWhile isDigit)

/-- The digits before a point: a zero stands alone. -/
def whole? (cs : List Char) : Option (List Char × List Char) :=
  match digits? cs with
  | some ('0' :: _ :: _, _) => none
  | r => r

/-- The digits behind a point, if there is a point. -/
def fraction? : List Char → Option (List Char × List Char)
  | '.' :: rest => digits? rest
  | cs => some ([], cs)

/-- The exponent, if there is a mark for one. -/
def exponent? : List Char → Option (Option (Bool × List Char) × List Char)
  | c :: rest =>
    if c == 'e' || c == 'E' then
      let signed := match rest with
        | '+' :: r => (false, r)
        | '-' :: r => (true, r)
        | r => (false, r)
      (digits? signed.2).map fun (ds, rest') => (some (signed.1, ds), rest')
    else some (none, c :: rest)
  | [] => some (none, [])

/-- The numeral at the front, its sign apart. -/
def unsigned? (negative : Bool) (cs : List Char) : Option (Numeral × List Char) := do
  let (whole, r₁) ← whole? cs
  let (fraction, r₂) ← fraction? r₁
  let (exponent, r₃) ← exponent? r₂
  return (⟨negative, whole, fraction, exponent⟩, r₃)

def numeral? : List Char → Option (Numeral × List Char)
  | '-' :: rest => unsigned? true rest
  | cs => unsigned? false cs

theorem digits?_length {cs ds rest : List Char} (h : digits? cs = some (ds, rest)) :
    rest.length < cs.length := by
  unfold digits? at h
  split at h
  · simp at h
  · next hne =>
    obtain ⟨-, rfl⟩ : cs.takeWhile isDigit = ds ∧ cs.dropWhile isDigit = rest := by simpa using h
    have hlen := congrArg List.length (List.takeWhile_append_dropWhile (p := isDigit) (l := cs))
    have hpos : 0 < (cs.takeWhile isDigit).length := List.length_pos_iff.2 (by simpa using hne)
    simp only [List.length_append] at hlen
    omega

theorem whole?_length {cs ds rest : List Char} (h : whole? cs = some (ds, rest)) :
    rest.length < cs.length := by
  unfold whole? at h
  split at h
  · simp at h
  · exact digits?_length h

theorem fraction?_length {cs ds rest : List Char} (h : fraction? cs = some (ds, rest)) :
    rest.length ≤ cs.length := by
  unfold fraction? at h
  split at h
  · have := digits?_length h
    simp only [List.length_cons]
    omega
  · simp_all

theorem exponent?_length {cs rest : List Char} {e : Option (Bool × List Char)}
    (h : exponent? cs = some (e, rest)) : rest.length ≤ cs.length := by
  unfold exponent? at h
  split at h
  · split at h
    · simp only [Option.map_eq_some_iff, Prod.mk.injEq] at h
      obtain ⟨⟨ds, r⟩, hd, -, rfl⟩ := h
      have := digits?_length hd
      simp only [List.length_cons]
      split at this <;> simp_all <;> omega
    · simp_all
  · simp_all

theorem unsigned?_length {b : Bool} {cs rest : List Char} {n : Numeral}
    (h : unsigned? b cs = some (n, rest)) : rest.length < cs.length := by
  simp only [unsigned?, Option.bind_eq_bind, Option.bind_eq_some_iff, Option.pure_def,
    Option.some.injEq, Prod.mk.injEq] at h
  obtain ⟨⟨w, r₁⟩, h₁, ⟨f, r₂⟩, h₂, ⟨e, r₃⟩, h₃, -, rfl⟩ := h
  have := whole?_length h₁
  have := fraction?_length h₂
  have := exponent?_length h₃
  simp only at *
  omega

theorem numeral?_length {cs rest : List Char} {n : Numeral}
    (h : numeral? cs = some (n, rest)) : rest.length < cs.length := by
  unfold numeral? at h
  split at h
  · have := unsigned?_length h
    simp only [List.length_cons]
    omega
  · exact unsigned?_length h

/-! ### All tokens -/

def isBlank (c : Char) : Bool := c == ' ' || c == '\t' || c == '\n' || c == '\r'

/-- The token at the front, and what follows it. -/
def lexeme? : List Char → Option (Token × List Char)
  | '\x7b' :: rest => some (.openBrace, rest)
  | '\x7d' :: rest => some (.closeBrace, rest)
  | '[' :: rest => some (.openBracket, rest)
  | ']' :: rest => some (.closeBracket, rest)
  | ':' :: rest => some (.colon, rest)
  | ',' :: rest => some (.comma, rest)
  | 'n' :: 'u' :: 'l' :: 'l' :: rest => some (.null, rest)
  | 't' :: 'r' :: 'u' :: 'e' :: rest => some (.bool true, rest)
  | 'f' :: 'a' :: 'l' :: 's' :: 'e' :: rest => some (.bool false, rest)
  | '"' :: rest => (pieces? rest).map fun (ps, rest') =>
    (.text ((spell? ps).map String.ofList), rest')
  | cs => (numeral? cs).map fun (n, rest) => (.number n, rest)

theorem lexeme?_length {cs rest : List Char} {t : Token}
    (h : lexeme? cs = some (t, rest)) : rest.length < cs.length := by
  unfold lexeme? at h
  split at h
  case h_10 =>
    simp only [Option.map_eq_some_iff, Prod.mk.injEq] at h
    obtain ⟨⟨ps, r⟩, hp, -, rfl⟩ := h
    have := pieces?_length hp
    simp only [List.length_cons]
    omega
  case h_11 =>
    simp only [Option.map_eq_some_iff, Prod.mk.injEq] at h
    obtain ⟨⟨n, r⟩, hn, -, rfl⟩ := h
    exact numeral?_length hn
  all_goals
    simp only [Option.some.injEq, Prod.mk.injEq] at h
    obtain ⟨-, rfl⟩ := h
    simp only [List.length_cons]
    omega

/-- Read tokens to the end, onto those read before, the last one first. -/
def scanOnto (seen : List Token) (cs : List Char) : Option (List Token) :=
  match cs with
  | [] => some seen.reverse
  | c :: rest =>
    if isBlank c then scanOnto seen rest
    else match h : lexeme? (c :: rest) with
      | none => none
      | some (t, rest') =>
        have : rest'.length < rest.length + 1 := lexeme?_length h
        scanOnto (t :: seen) rest'
termination_by cs.length

def scan (cs : List Char) : Option (List Token) := scanOnto [] cs

end Token

end StellarWind
