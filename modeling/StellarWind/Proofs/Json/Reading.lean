import Mathlib.Data.List.Forall2
import StellarWind.Json.Value
import StellarWind.Proofs.Json.Numeral

/-!
# Reading what was written

A text of a value has its tokens in a row, each in one of its spellings, with blanks among
them (`Token.Row`). Reading goes back in the same two steps: the characters give the tokens
(`Token.scan_of_row`), and the tokens give the value (`Json.ofTokens?_tokens`). What is written
for a value is such a text, so that a value whose texts and numerals have a spelling is read
back from it (`Json.parse?_render`), whatever the layout.
-/

namespace StellarWind

namespace Token

/-! ## Texts in quotes

Between quotes there are pieces, each spelled plainly, with a letter behind a backslash, or with
four hexadecimal digits. What is written escapes quotes, backslashes and control characters, and
the pieces that are read back from it spell the text again.
-/

theorem unit?_escape {n : Nat} (h : n < 0x20) :
    unit? '0' '0' (Nat.digitChar (n / 16)) (Nat.digitChar (n % 16)) = some n := by
  have hall : ∀ n < 0x20,
      unit? '0' '0' (Nat.digitChar (n / 16)) (Nat.digitChar (n % 16)) = some n := by decide
  exact hall n h

/-- The spellings of a piece. A control character has to be escaped. -/
inductive Piece.Spelled : Piece → List Char → Prop
  | plain {c : Char} (hcontrol : ¬ c.toNat < 0x20) (hquote : c ≠ '"') (hslash : c ≠ '\\') :
      Spelled (.char c) [c]
  | letter {e c : Char} (h : escaped? e = some c) : Spelled (.char c) ['\\', e]
  | hex {a b c d : Char} {u : Nat} (h : unit? a b c d = some u) :
      Spelled (.unit u) ['\\', 'u', a, b, c, d]

theorem pieces?_spelled {p : Piece} {cs : List Char} (h : p.Spelled cs) (rest : List Char) :
    pieces? (cs ++ rest) = (pieces? rest).map fun q => (p :: q.1, q.2) := by
  cases h with
  | plain hcontrol hquote hslash =>
      rcases h : pieces? rest with - | ⟨ps, r⟩ <;> simp [pieces?, hslash, hcontrol, h]
  | @letter e c hletter =>
      have hother : e ≠ 'u' := by
        rintro rfl
        cases hletter
      rcases h : pieces? rest with - | ⟨ps, r⟩ <;> simp [pieces?, hletter, hother, h]
  | hex hunit => rcases h : pieces? rest with - | ⟨ps, r⟩ <;> simp [pieces?, hunit, h]

/-- Pieces are read back from their spellings. -/
theorem pieces?_flatten {ps : List Piece} {css : List (List Char)}
    (h : List.Forall₂ Piece.Spelled ps css) (rest : List Char) :
    pieces? (css.flatten ++ '"' :: rest) = some (ps, rest) := by
  induction h with
  | nil => simp [pieces?]
  | cons hp _ ih =>
      rw [List.flatten_cons, List.append_assoc, pieces?_spelled hp, ih]
      rfl

/-- The piece that a character is read back as. -/
def pieceOf (c : Char) : Piece := if c.toNat < 0x20 then .unit c.toNat else .char c

theorem spelled_escape (c : Char) : (pieceOf c).Spelled (Json.escape c) := by
  unfold Json.escape
  by_cases hquote : c = '"'
  · subst hquote
    exact .letter rfl
  by_cases hslash : c = '\\'
  · subst hslash
    exact .letter rfl
  rw [if_neg (by simpa using hquote), if_neg (by simpa using hslash), pieceOf]
  by_cases hcontrol : c.toNat < 0x20
  · rw [if_pos hcontrol, if_pos hcontrol]
    exact .hex (unit?_escape hcontrol)
  · rw [if_neg hcontrol, if_neg hcontrol]
    exact .plain hcontrol hquote hslash

theorem spell?_map_pieceOf (cs : List Char) : spell? (cs.map pieceOf) = some cs := by
  induction cs with
  | nil => rfl
  | cons c cs ih =>
      rw [List.map_cons, pieceOf]
      -- A control character comes back as a unit, and one that is no half of a pair.
      by_cases hcontrol : c.toNat < 0x20
      · have hsmall : (c.toNat < 0xd800 || 0xdfff < c.toNat) = true := by
          simp only [Bool.or_eq_true, decide_eq_true_eq]
          omega
        rw [if_pos hcontrol]
        unfold spell?
        rw [if_pos hsmall, ih, Char.ofNat_toNat]
        rfl
      · rw [if_neg hcontrol, spell?, ih]
        rfl

/-! ## One token

A token is known by its first character, and all but numerals end by themselves. A numeral is read
as long as it goes on, so that something has to stand behind it that cannot go on with it
(`Parted`).
-/

/-- The token has a spelling. -/
def Written : Token → Prop
  | number n => n.Written
  | text s => s.isSome
  | _ => True

/-- The characters of a token. -/
def chars : Token → List Char
  | openBrace => ['\x7b']
  | closeBrace => ['\x7d']
  | openBracket => ['[']
  | closeBracket => [']']
  | colon => [':']
  | comma => [',']
  | null => ['n', 'u', 'l', 'l']
  | bool true => ['t', 'r', 'u', 'e']
  | bool false => ['f', 'a', 'l', 's', 'e']
  | number n => n.chars
  | text s => Json.quoted s

/-- The spellings of a token. Only texts and numerals have more than one. -/
def Spelled : Token → List Char → Prop
  | number n, cs => n.Spelled cs
  | text s, cs => ∃ ps css, s = (spell? ps).map String.ofList ∧
      List.Forall₂ Piece.Spelled ps css ∧ cs = '"' :: (css.flatten ++ ['"'])
  | t, cs => cs = t.chars

theorem spelled_chars {t : Token} (h : t.Written) : t.Spelled t.chars := by
  match t, h with
  | number n, h => exact Numeral.spelled_chars h
  | text (some s), _ =>
      refine ⟨s.toList.map pieceOf, s.toList.map Json.escape, ?_, ?_, rfl⟩
      · rw [spell?_map_pieceOf]
        simp
      · rw [List.forall₂_map_left_iff, List.forall₂_map_right_iff, List.forall₂_same]
        exact fun c _ => spelled_escape c
  | openBrace, _ | closeBrace, _ | openBracket, _ | closeBracket, _ | colon, _ | comma, _
  | null, _ | bool true, _ | bool false, _ => rfl

/-- Only behind a numeral it matters what comes next. -/
def Parted (t : Token) (rest : List Char) : Prop :=
  match t with
  | number _ => Breaks rest
  | _ => True

theorem breaks_append {cs ds : List Char} (h : Breaks cs) (h' : Breaks ds) : Breaks (cs ++ ds) := by
  cases cs with
  | nil => exact h'
  | cons c cs => exact h

theorem Parted.of_breaks {rest : List Char} (h : Breaks rest) (t : Token) : t.Parted rest := by
  cases t with
  | number n => exact h
  | _ => trivial

theorem Parted.append {t : Token} {cs ds : List Char} (h : t.Parted cs) (h' : Breaks ds) :
    t.Parted (cs ++ ds) := by
  cases t with
  | number n => exact breaks_append h h'
  | _ => trivial

/-! ### Reading a token

A token is found by its first character. Numerals are the only tokens whose end depends on what
follows.
-/

theorem spelled_numeral {n : Numeral} {cs : List Char} (h : n.Spelled cs) :
    ∃ c ds, cs = c :: ds ∧ (c = '-' ∨ isDigit c = true) := by
  obtain ⟨hwritten, es, -, rfl⟩ := h
  obtain ⟨c, ds, hwhole⟩ := List.exists_cons_of_ne_nil hwritten.whole.1
  have hc : isDigit c = true := hwritten.whole.2 c (by rw [hwhole]; exact List.mem_cons_self)
  cases n.negative with
  | true => exact ⟨_, _, rfl, .inl rfl⟩
  | false =>
      rw [hwhole]
      exact ⟨_, _, rfl, .inr hc⟩

theorem lexeme?_number {n : Numeral} {cs : List Char} (h : n.Spelled cs) {rest : List Char}
    (hrest : Breaks rest) : lexeme? (cs ++ rest) = some (.number n, rest) := by
  have hread := Numeral.numeral?_spelled h hrest
  obtain ⟨c, ds, rfl, hc⟩ := spelled_numeral h
  unfold lexeme?
  -- No other token starts with a sign or a digit.
  split
  case h_11 =>
      rw [hread]
      rfl
  all_goals
    next heq =>
      simp only [List.cons_append, List.cons.injEq] at heq
      rw [heq.1] at hc
      exact absurd hc (by decide)

theorem lexeme?_spelled {t : Token} {cs : List Char} (h : t.Spelled cs) {rest : List Char}
    (hrest : t.Parted rest) : lexeme? (cs ++ rest) = some (t, rest) := by
  match t, h with
  | number n, h => exact lexeme?_number h hrest
  | text s, h =>
      obtain ⟨ps, css, rfl, hpieces, rfl⟩ := h
      have hread := pieces?_flatten hpieces rest
      simp [lexeme?, hread]
  | openBrace, rfl | closeBrace, rfl | openBracket, rfl | closeBracket, rfl | colon, rfl
  | comma, rfl | null, rfl | bool true, rfl | bool false, rfl => rfl

theorem spelled_cons {t : Token} {cs : List Char} (h : t.Spelled cs) :
    ∃ c ds, cs = c :: ds ∧ isBlank c = false := by
  match t, h with
  | number n, h =>
      obtain ⟨c, ds, rfl, hc⟩ := spelled_numeral h
      refine ⟨c, ds, rfl, ?_⟩
      rcases hc with rfl | hc
      · decide
      · cases hblank : isBlank c with
        | false => rfl
        | true =>
            simp only [isBlank, Bool.or_eq_true, beq_iff_eq] at hblank
            rcases hblank with ((rfl | rfl) | rfl) | rfl <;> exact absurd hc (by decide)
  | text s, h =>
      obtain ⟨ps, css, -, -, rfl⟩ := h
      exact ⟨_, _, rfl, by decide⟩
  | openBrace, rfl | closeBrace, rfl | openBracket, rfl | closeBracket, rfl | colon, rfl
  | comma, rfl | null, rfl | bool true, rfl | bool false, rfl => exact ⟨_, _, rfl, by decide⟩

/-! ## Rows of tokens

The scanner skips blanks and takes one token after another. A row is built in the same order, so
the induction is on the row, with the tokens that were seen as the accumulator.
-/

theorem scanOnto_blanks {bs : List Char} (hbs : ∀ c ∈ bs, isBlank c = true) (seen : List Token)
    (rest : List Char) : scanOnto seen (bs ++ rest) = scanOnto seen rest := by
  induction bs with
  | nil => rfl
  | cons c bs ih =>
      rw [List.cons_append, scanOnto, if_pos (hbs c List.mem_cons_self)]
      exact ih fun d hd => hbs d (List.mem_cons_of_mem c hd)

theorem scanOnto_spelled {t : Token} {cs : List Char} (h : t.Spelled cs) (seen : List Token)
    {rest : List Char} (hrest : t.Parted rest) :
    scanOnto seen (cs ++ rest) = scanOnto (t :: seen) rest := by
  have hlex := lexeme?_spelled h hrest
  obtain ⟨c, ds, rfl, hblank⟩ := spelled_cons h
  rw [List.cons_append] at hlex ⊢
  rw [scanOnto, if_neg (by rw [hblank]; decide)]
  split
  · next hnone =>
      rw [hlex] at hnone
      cases hnone
  · next hsome =>
      rw [hlex] at hsome
      cases hsome
      rfl

/-- The texts of a row of tokens: each in one of its spellings, with any blanks before it, and a
numeral not in front of anything that would go on with it. -/
inductive Row : List Token → List Char → Prop
  | nil {bs : List Char} (hbs : ∀ c ∈ bs, isBlank c = true) : Row [] bs
  | cons {t : Token} {ts : List Token} {bs cs ds text : List Char}
      (hbs : ∀ c ∈ bs, isBlank c = true) (ht : t.Spelled cs) (hparted : t.Parted ds)
      (h : Row ts ds) (htext : text = bs ++ (cs ++ ds)) : Row (t :: ts) text

theorem scanOnto_row {ts : List Token} {cs : List Char} (h : Row ts cs) (seen : List Token) :
    scanOnto seen cs = some (seen.reverse ++ ts) := by
  induction h generalizing seen with
  | nil hbs =>
      have hread := scanOnto_blanks hbs seen []
      rw [List.append_nil] at hread
      rw [hread, scanOnto, List.append_nil]
  | cons hbs ht hparted _ htext ih =>
      rw [htext, scanOnto_blanks hbs, scanOnto_spelled ht seen hparted, ih, List.reverse_cons,
        List.append_assoc]
      rfl

/-- Tokens are read back from every text of their row. -/
theorem scan_of_row {ts : List Token} {cs : List Char} (h : Row ts cs) : scan cs = some ts :=
  scanOnto_row h []

theorem row_singleton {t : Token} (h : t.Written) : Row [t] t.chars :=
  .cons (List.forall_mem_nil _) (spelled_chars h) (.of_breaks breaks_nil t)
    (.nil (List.forall_mem_nil _)) (List.append_nil _).symm

namespace Row

variable {ts us : List Token} {cs ds : List Char}

theorem blanks {bs : List Char} (hbs : ∀ c ∈ bs, isBlank c = true) (h : Row ts cs) :
    Row ts (bs ++ cs) := by
  cases h with
  | nil hcs => exact .nil (List.forall_mem_append.mpr ⟨hbs, hcs⟩)
  | cons hbs' ht hparted h htext =>
      rw [htext, ← List.append_assoc]
      exact .cons (List.forall_mem_append.mpr ⟨hbs, hbs'⟩) ht hparted h rfl

theorem cons_chars {t : Token} (ht : t.Written) (hparted : t.Parted cs) (h : Row ts cs) :
    Row (t :: ts) (t.chars ++ cs) :=
  .cons (List.forall_mem_nil _) (spelled_chars ht) hparted h rfl

theorem append (h : Row ts cs) (hds : Breaks ds) (h' : Row us ds) : Row (ts ++ us) (cs ++ ds) := by
  induction h with
  | nil hbs => exact h'.blanks hbs
  | cons hbs ht hparted _ htext ih =>
      rw [htext, List.append_assoc, List.append_assoc]
      exact .cons hbs ht (hparted.append hds) ih rfl

end Row

end Token

/-! ## Values as tokens

What is written for a value is a row of its tokens. The proof follows the three functions that
write, for a value, for the other items of an array and for the other members of an object. A
numeral may be the last token of an item or a member, and behind it comes a blank, a comma or a
closing bracket, which all part it from the rest.
-/

namespace Json

open Token (Row Breaks)

mutual

/-- The tokens of a value. -/
def tokens : Json → List Token
  | .null => [.null]
  | .bool b => [.bool b]
  | .number n => [.number n]
  | .text s => [.text s]
  | .array [] => [.openBracket, .closeBracket]
  | .array (v :: vs) => .openBracket :: (tokens v ++ itemTokens vs)
  | .object [] => [.openBrace, .closeBrace]
  | .object ((k, v) :: ms) => .openBrace :: .text k :: .colon :: (tokens v ++ memberTokens ms)

/-- The tokens of the other items of an array and of its end. -/
def itemTokens : List Json → List Token
  | [] => [.closeBracket]
  | v :: vs => .comma :: (tokens v ++ itemTokens vs)

/-- The tokens of the other members of an object and of its end. -/
def memberTokens : List (Option String × Json) → List Token
  | [] => [.closeBrace]
  | (k, v) :: ms => .comma :: .text k :: .colon :: (tokens v ++ memberTokens ms)

end

/-- All texts and numerals of the value have a spelling. -/
def Written (v : Json) : Prop := ∀ t ∈ v.tokens, t.Written

/-- The layout has nothing but blanks. -/
structure Spacing.IsBlank (sp : Spacing) : Prop where
  before : ∀ depth, ∀ c ∈ sp.before depth, Token.isBlank c = true
  ending : ∀ depth, ∀ c ∈ sp.ending depth, Token.isBlank c = true
  colon : ∀ c ∈ sp.colon, Token.isBlank c = true

theorem Spacing.isBlank_lines : Spacing.lines.IsBlank := by
  have hline (n : Nat) : ∀ c ∈ '\n' :: List.replicate n ' ', Token.isBlank c = true := by
    intro c hc
    rcases List.mem_cons.mp hc with rfl | h
    · decide
    · rw [List.eq_of_mem_replicate h]
      decide
  exact ⟨fun _ => hline _, fun _ => hline _, List.forall_mem_singleton.mpr rfl⟩

/-! ### Rendered values

Values, items and members are rendered by mutual recursion, and the proofs have the same shape. What
follows a value starts with a blank, a comma or a bracket, so that a numeral ends there.
-/

theorem breaks_blanks {bs cs : List Char} (hbs : ∀ c ∈ bs, Token.isBlank c = true)
    (hcs : Breaks cs) : Breaks (bs ++ cs) := by
  cases bs with
  | nil => exact hcs
  | cons c bs =>
      refine Token.breaks_cons ?_ _
      have hc := hbs c List.mem_cons_self
      simp only [Token.isBlank, Bool.or_eq_true, beq_iff_eq] at hc
      rcases hc with ((rfl | rfl) | rfl) | rfl <;> decide

/-- Behind an item comes a comma or the end of the array. -/
theorem breaks_renderItems {sp : Spacing} (hsp : sp.IsBlank) (depth : Nat) (vs : List Json) :
    Breaks (renderItems sp depth vs) := by
  cases vs with
  | nil =>
      rw [renderItems]
      exact breaks_blanks (hsp.ending depth) (Token.breaks_cons (by decide) _)
  | cons v vs =>
      rw [renderItems]
      exact Token.breaks_cons (by decide) _

/-- Behind a member comes a comma or the end of the object. -/
theorem breaks_renderMembers {sp : Spacing} (hsp : sp.IsBlank) (depth : Nat)
    (ms : List (Option String × Json)) : Breaks (renderMembers sp depth ms) := by
  cases ms with
  | nil =>
      rw [renderMembers]
      exact breaks_blanks (hsp.ending depth) (Token.breaks_cons (by decide) _)
  | cons m ms =>
      rw [renderMembers]
      exact Token.breaks_cons (by decide) _

/-- One member of an object with those behind it. -/
theorem row_member {sp : Spacing} (hsp : sp.IsBlank) {depth : Nat} {k : Option String}
    {v : Json} {ms : List (Option String × Json)} (hk : (Token.text k).Written)
    (hv : Row v.tokens (render sp (depth + 1) v))
    (hms : Row (memberTokens ms) (renderMembers sp depth ms)) :
    Row (.text k :: .colon :: (v.tokens ++ memberTokens ms))
      (sp.before depth ++ quoted k ++ ':' :: (sp.colon ++ render sp (depth + 1) v) ++
        renderMembers sp depth ms) := by
  have hvalue := hv.append (breaks_renderMembers hsp depth ms) hms
  have hcolon := (hvalue.blanks hsp.colon).cons_chars (t := .colon) trivial trivial
  have hkey := (hcolon.cons_chars hk trivial).blanks (hsp.before depth)
  simpa [Token.chars] using hkey

mutual

/-- What is written for a value spells its tokens. -/
theorem row_render {sp : Spacing} (hsp : sp.IsBlank) (depth : Nat) :
    ∀ v : Json, (∀ t ∈ v.tokens, t.Written) → Row v.tokens (render sp depth v)
  | .null, _ => Token.row_singleton (t := .null) trivial
  | .bool true, _ => Token.row_singleton (t := .bool true) trivial
  | .bool false, _ => Token.row_singleton (t := .bool false) trivial
  | .number n, h => Token.row_singleton (t := .number n) (h _ List.mem_cons_self)
  | .text s, h => Token.row_singleton (t := .text s) (h _ List.mem_cons_self)
  | .array [], _ => (Token.row_singleton (t := .closeBracket) trivial).cons_chars
      (t := .openBracket) trivial trivial
  | .array (v :: vs), h => by
      simp only [tokens, List.forall_mem_cons, List.forall_mem_append] at h
      have hv := (row_render hsp (depth + 1) v h.2.1).append
        (breaks_renderItems hsp depth vs) (row_renderItems hsp depth vs h.2.2)
      rw [tokens, render, List.append_assoc]
      exact (hv.blanks (hsp.before depth)).cons_chars (t := .openBracket) trivial trivial
  | .object [], _ => (Token.row_singleton (t := .closeBrace) trivial).cons_chars
      (t := .openBrace) trivial trivial
  | .object ((k, v) :: ms), h => by
      simp only [tokens, List.forall_mem_cons, List.forall_mem_append] at h
      have hm := row_member hsp h.2.1 (row_render hsp (depth + 1) v h.2.2.2.1)
        (row_renderMembers hsp depth ms h.2.2.2.2)
      rw [tokens, render]
      exact hm.cons_chars (t := .openBrace) trivial trivial

theorem row_renderItems {sp : Spacing} (hsp : sp.IsBlank) (depth : Nat) :
    ∀ vs : List Json, (∀ t ∈ itemTokens vs, t.Written) →
      Row (itemTokens vs) (renderItems sp depth vs)
  | [], _ => by
      rw [itemTokens, renderItems]
      exact (Token.row_singleton (t := .closeBracket) trivial).blanks (hsp.ending depth)
  | v :: vs, h => by
      simp only [itemTokens, List.forall_mem_cons, List.forall_mem_append] at h
      have hv := (row_render hsp (depth + 1) v h.2.1).append
        (breaks_renderItems hsp depth vs) (row_renderItems hsp depth vs h.2.2)
      rw [itemTokens, renderItems, List.append_assoc]
      exact (hv.blanks (hsp.before depth)).cons_chars (t := .comma) trivial trivial

theorem row_renderMembers {sp : Spacing} (hsp : sp.IsBlank) (depth : Nat) :
    ∀ ms : List (Option String × Json), (∀ t ∈ memberTokens ms, t.Written) →
      Row (memberTokens ms) (renderMembers sp depth ms)
  | [], _ => by
      rw [memberTokens, renderMembers]
      exact (Token.row_singleton (t := .closeBrace) trivial).blanks (hsp.ending depth)
  | (k, v) :: ms, h => by
      simp only [memberTokens, List.forall_mem_cons, List.forall_mem_append] at h
      have hm := row_member hsp h.2.1 (row_render hsp (depth + 1) v h.2.2.2.1)
        (row_renderMembers hsp depth ms h.2.2.2.2)
      rw [memberTokens, renderMembers]
      exact hm.cons_chars (t := .comma) trivial trivial

end

/-! ## Values from tokens

The reader keeps a stack of the arrays and objects that are open. The tokens of a value bring it
from expecting a value to having read that one, with the stack as it was. For the other items or
members this is said about the open array or object on top of the stack, with what it has so far.
-/

theorem tokens_cons (v : Json) : ∃ t ts, v.tokens = t :: ts ∧ t ≠ .closeBracket := by
  match v with
  | .null | .bool _ | .number _ | .text _ | .array [] | .array (_ :: _) | .object []
  | .object ((_, _) :: _) => exact ⟨_, _, by rw [tokens], by simp⟩

/-- The first item of an array is read like any value. -/
theorem foldlM_firstItem (stack : List Frame) (v : Json) :
    v.tokens.foldlM Reader.step ⟨stack, .firstItem⟩ =
      v.tokens.foldlM Reader.step ⟨stack, .value⟩ := by
  obtain ⟨t, ts, htokens, hne⟩ := tokens_cons v
  have hstep : Reader.step ⟨stack, .firstItem⟩ t = Reader.step ⟨stack, .value⟩ t := by
    unfold Reader.step
    dsimp only
    split
    · exact absurd rfl hne
    · rfl
  rw [htokens, List.foldlM_cons, List.foldlM_cons, hstep]

mutual

/-- The tokens of a value are read as the value. -/
theorem foldlM_tokens (stack : List Frame) :
    ∀ v : Json, v.tokens.foldlM Reader.step ⟨stack, .value⟩ = some ⟨stack, .after v⟩
  | .null => rfl
  | .bool _ => rfl
  | .number _ => rfl
  | .text _ => rfl
  | .array [] => rfl
  | .array (v :: vs) => by
      rw [tokens, List.foldlM_cons]
      show (v.tokens ++ itemTokens vs).foldlM Reader.step ⟨.array [] :: stack, .firstItem⟩ = _
      rw [List.foldlM_append, foldlM_firstItem, foldlM_tokens _ v]
      exact foldlM_itemTokens stack [] v vs
  | .object [] => rfl
  | .object ((k, v) :: ms) => by
      rw [tokens]
      show (v.tokens ++ memberTokens ms).foldlM Reader.step ⟨.object [] k :: stack, .value⟩ = _
      rw [List.foldlM_append, foldlM_tokens _ v]
      exact foldlM_memberTokens stack [] k v ms

theorem foldlM_itemTokens (stack : List Frame) (items : List Json) (v : Json) :
    ∀ vs : List Json, (itemTokens vs).foldlM Reader.step ⟨.array items :: stack, .after v⟩ =
      some ⟨stack, .after (.array (items.reverse ++ v :: vs))⟩
  | [] => by
      rw [itemTokens]
      simp [Reader.step, Reader.after]
  | w :: vs => by
      rw [itemTokens]
      show (w.tokens ++ itemTokens vs).foldlM Reader.step ⟨.array (v :: items) :: stack, .value⟩ = _
      rw [List.foldlM_append, foldlM_tokens _ w]
      show (itemTokens vs).foldlM Reader.step _ = _
      rw [foldlM_itemTokens stack (v :: items) w vs, List.reverse_cons, List.append_assoc]
      rfl

theorem foldlM_memberTokens (stack : List Frame) (members : List (Option String × Json))
    (k : Option String) (v : Json) :
    ∀ ms : List (Option String × Json),
      (memberTokens ms).foldlM Reader.step ⟨.object members k :: stack, .after v⟩ =
        some ⟨stack, .after (.object (members.reverse ++ (k, v) :: ms))⟩
  | [] => by
      rw [memberTokens]
      simp [Reader.step, Reader.after]
  | (l, w) :: ms => by
      rw [memberTokens]
      show (w.tokens ++ memberTokens ms).foldlM Reader.step
        ⟨.object ((k, v) :: members) l :: stack, .value⟩ = _
      rw [List.foldlM_append, foldlM_tokens _ w]
      show (memberTokens ms).foldlM Reader.step _ = _
      rw [foldlM_memberTokens stack ((k, v) :: members) l w ms, List.reverse_cons,
        List.append_assoc]
      rfl

end

theorem ofTokens?_tokens (v : Json) : ofTokens? v.tokens = some v := by
  rw [ofTokens?, Reader.start, foldlM_tokens]
  rfl

/-- A value is read back from every text of its tokens. -/
theorem parse?_of_row {v : Json} {text : String} (h : Row v.tokens text.toList) :
    parse? text = some v := by
  rw [parse?, Token.scan_of_row h]
  exact ofTokens?_tokens v

/-- A value is read back from what is written for it, whatever the layout. -/
theorem parse?_render {sp : Spacing} (hsp : sp.IsBlank) {v : Json} (h : v.Written) (depth : Nat) :
    parse? (String.ofList (render sp depth v)) = some v := by
  apply parse?_of_row
  rw [String.toList_ofList]
  exact row_render hsp depth v h

end Json

end StellarWind
