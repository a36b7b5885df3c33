import Mathlib.Data.List.Basic
import StellarWind.Json.Token

/-!
# Numerals as text

`Numeral.Written` says which numerals have a spelling: digits before the point
with no zero in front of others, and no empty exponent. Every numeral that this
library writes is one of them, and each is read back from any of its spellings
(`numeral?_spelled`) in front of anything that cannot go on with it.
-/

namespace StellarWind

namespace Token

/-! ## Digits

Reading takes the longest run of digits, so that a run is read back as a whole in front of anything
that is not a digit.
-/

/-- At least one digit, and nothing else. -/
def IsDigits (ds : List Char) : Prop := ds ≠ [] ∧ ∀ c ∈ ds, isDigit c = true

/-- The characters cannot go on with a numeral. -/
def Breaks (rest : List Char) : Prop :=
  ∀ c ∈ rest.head?, isDigit c = false ∧ c ≠ '.' ∧ c ≠ 'e' ∧ c ≠ 'E'

theorem breaks_nil : Breaks [] := nofun

theorem breaks_cons {c : Char} (h : isDigit c = false ∧ c ≠ '.' ∧ c ≠ 'e' ∧ c ≠ 'E')
    (rest : List Char) : Breaks (c :: rest) := by
  intro d hd
  obtain rfl : c = d := by simpa using hd
  exact h

theorem digits?_append {ds rest : List Char} (hds : IsDigits ds)
    (hrest : ∀ c ∈ rest.head?, isDigit c = false) : digits? (ds ++ rest) = some (ds, rest) := by
  have htake : rest.takeWhile isDigit = [] ∧ rest.dropWhile isDigit = rest := by
    cases rest with
    | nil => exact ⟨rfl, rfl⟩
    | cons c r => simp [hrest c rfl]
  unfold digits?
  rw [List.takeWhile_append_of_pos hds.2, List.dropWhile_append_of_pos hds.2, htake.1, htake.2,
    List.append_nil, if_neg (by simpa using hds.1)]

/-- A zero in front stands alone. -/
def Leads (ds : List Char) : Prop := ds = ['0'] ∨ ds.head? ≠ some '0'

theorem whole?_append {ds rest : List Char} (hds : IsDigits ds) (hlead : Leads ds)
    (hrest : ∀ c ∈ rest.head?, isDigit c = false) : whole? (ds ++ rest) = some (ds, rest) := by
  unfold whole?
  rw [digits?_append hds hrest]
  split
  · next heq =>
      cases heq
      rcases hlead with h | h
      · cases h
      · exact absurd rfl h
  · rfl

theorem isDigit_ne {c : Char} (h : isDigit c = true) : c ≠ '-' ∧ c ≠ '+' ∧ c ≠ '.' := by
  refine ⟨?_, ?_, ?_⟩
  all_goals
    rintro rfl
    exact absurd h (by decide)

end Token

namespace Numeral

open Token

/-! ## Spellings of a numeral

A numeral has one spelling but for its exponent, whose mark may be of either case and whose plus
sign may be left out. It is read part by part, from the whole digits to the exponent, and each part
ends where the next one starts because of the character there.
-/

/-- The numeral has a spelling. -/
structure Written (n : Numeral) : Prop where
  whole : IsDigits n.whole
  leads : Leads n.whole
  fraction : ∀ c ∈ n.fraction, isDigit c = true
  exponent : ∀ p ∈ n.exponent, IsDigits p.2

/-- The characters behind the point, with the point. -/
def fractionChars (n : Numeral) : List Char := if n.fraction.isEmpty then [] else '.' :: n.fraction

/-- The characters of the exponent, with its mark and its sign. -/
def exponentChars (n : Numeral) : List Char :=
  match n.exponent with
  | none => []
  | some (negative, digits) => 'e' :: (if negative then '-' else '+') :: digits

theorem chars_eq (n : Numeral) :
    n.chars = (if n.negative then ['-'] else []) ++
      (n.whole ++ (n.fractionChars ++ n.exponentChars)) := by
  rw [chars, List.append_assoc, List.append_assoc]
  rfl

/-- The signs of an exponent. -/
def exponentSigns : Bool → List (List Char)
  | true => [['-']]
  | false => [[], ['+']]

/-- The spellings of an exponent. -/
inductive SpellsExponent : Option (Bool × List Char) → List Char → Prop
  | none : SpellsExponent none []
  | some {negative : Bool} {ds : List Char} (mark : Char) (sign : List Char)
      (hmark : mark = 'e' ∨ mark = 'E') (hsign : sign ∈ exponentSigns negative)
      (hds : IsDigits ds) : SpellsExponent (some (negative, ds)) (mark :: (sign ++ ds))

/-- The spellings of a numeral. -/
structure Spelled (n : Numeral) (cs : List Char) : Prop where
  written : n.Written
  chars : ∃ es, SpellsExponent n.exponent es ∧
    cs = (if n.negative then ['-'] else []) ++ (n.whole ++ (n.fractionChars ++ es))

theorem spelled_chars {n : Numeral} (h : n.Written) : n.Spelled n.chars := by
  refine ⟨h, n.exponentChars, ?_, n.chars_eq⟩
  unfold exponentChars
  cases hexp : n.exponent with
  | none => exact .none
  | some p =>
      obtain ⟨negative, ds⟩ := p
      have hds := h.exponent _ hexp
      cases negative with
      | true => exact .some 'e' ['-'] (.inl rfl) (by decide) hds
      | false => exact .some 'e' ['+'] (.inl rfl) (by decide) hds

/-! ### Reading a spelling

The reader takes the parts one by one, and each ends where the next one starts. So the lemmas go
from the last part to the first.
-/

theorem exponent?_spelled {e : Option (Bool × List Char)} {es : List Char}
    (h : SpellsExponent e es) {rest : List Char} (hrest : Breaks rest) :
    exponent? (es ++ rest) = some (e, rest) := by
  cases h with
  | none =>
      cases rest with
      | nil => rfl
      | cons c r =>
          obtain ⟨-, -, he, hE⟩ := hrest c rfl
          simp [exponent?, he, hE]
  | @some negative ds mark sign hmark hsign hds =>
      have hread := digits?_append hds fun c hc => (hrest c hc).1
      have hmarked : (mark == 'e' || mark == 'E') = true := by simpa using hmark
      cases negative with
      | true =>
          obtain rfl : sign = ['-'] := by simpa [exponentSigns] using hsign
          simp [exponent?, hmarked, hread]
      | false =>
          obtain rfl | rfl : sign = [] ∨ sign = ['+'] := by simpa [exponentSigns] using hsign
          · -- Without a sign there is a digit right behind the mark.
            obtain ⟨d, ds, rfl⟩ := List.exists_cons_of_ne_nil hds.1
            obtain ⟨hminus, hplus, -⟩ := isDigit_ne (hds.2 d List.mem_cons_self)
            simp_all [exponent?]
          · simp [exponent?, hmarked, hread]

theorem fraction?_chars {n : Numeral} (h : n.Written) {rest : List Char}
    (hdigit : ∀ c ∈ rest.head?, isDigit c = false) (hpoint : rest.head? ≠ some '.') :
    fraction? (n.fractionChars ++ rest) = some (n.fraction, rest) := by
  unfold fractionChars
  by_cases hempty : n.fraction = []
  · rw [hempty]
    show fraction? rest = some ([], rest)
    unfold fraction?
    split
    · exact absurd rfl hpoint
    · rfl
  · rw [if_neg (by simpa using hempty)]
    exact digits?_append ⟨hempty, h.fraction⟩ hdigit

theorem unsigned?_spelled {n : Numeral} (h : n.Written) {es : List Char}
    (hes : SpellsExponent n.exponent es) {rest : List Char} (hrest : Breaks rest) :
    unsigned? n.negative (n.whole ++ (n.fractionChars ++ (es ++ rest))) = some (n, rest) := by
  -- Neither the exponent nor what follows the numeral starts with a digit or a point.
  have hexp : ∀ c ∈ (es ++ rest).head?, isDigit c = false ∧ c ≠ '.' := by
    intro c hc
    generalize n.exponent = e at hes
    cases hes with
    | none => exact ⟨(hrest c hc).1, (hrest c hc).2.1⟩
    | some mark sign hmark hsign hds =>
        obtain rfl : mark = c := by simpa using hc
        obtain rfl | rfl := hmark <;> decide
  have hfraction : ∀ c ∈ (n.fractionChars ++ (es ++ rest)).head?, isDigit c = false := by
    unfold fractionChars
    split
    · exact fun c hc => (hexp c hc).1
    · intro c hc
      obtain rfl : '.' = c := by simpa using hc
      decide
  unfold unsigned?
  rw [whole?_append h.whole h.leads hfraction]
  show ((fraction? _).bind _) = _
  rw [fraction?_chars h (fun c hc => (hexp c hc).1) fun hc => (hexp _ hc).2 rfl]
  show ((exponent? _).bind _) = _
  rw [exponent?_spelled hes hrest]
  rfl

/-- A numeral is read back from any of its spellings. -/
theorem numeral?_spelled {n : Numeral} {cs : List Char} (h : n.Spelled cs) {rest : List Char}
    (hrest : Breaks rest) : numeral? (cs ++ rest) = some (n, rest) := by
  obtain ⟨hwritten, es, hes, rfl⟩ := h
  have hread := unsigned?_spelled hwritten hes hrest
  rw [List.append_assoc, List.append_assoc, List.append_assoc]
  cases hneg : n.negative with
  | true =>
      rw [hneg] at hread
      exact hread
  | false =>
      rw [hneg] at hread
      -- A numeral that is not negative starts with a digit and not with the sign.
      obtain ⟨c, ds, hwhole⟩ := List.exists_cons_of_ne_nil hwritten.whole.1
      have hc := isDigit_ne (hwritten.whole.2 c (by rw [hwhole]; exact List.mem_cons_self))
      rw [hwhole] at hread ⊢
      simpa [numeral?, hc] using hread

/-! ## Numerals that are written

A count is written with its digits. A double is written in one of three forms: as a whole number,
with digits on both sides of the point, or with an exponent. In each of them there is no zero in
front of the other digits.
-/

theorem isDigits_digits (n : Nat) : IsDigits (Decimal.digits n) := by
  refine ⟨Nat.toDigits_ne_nil, fun c hc => ?_⟩
  have h := Nat.isDigit_of_mem_toDigits (by decide) (by decide) hc
  simpa [Char.isDigit, isDigit, Char.le_def] using h

theorem value_digits (n : Nat) : value (Decimal.digits n) = n := by
  have h := Nat.ofDigitChars_toDigits (b := 10) (n := n) (by decide) (by decide)
  simpa [Nat.ofDigitChars, value, digitValue, Decimal.digits, Nat.mul_comm] using h

theorem head?_digits {n : Nat} (h : n ≠ 0) : (Decimal.digits n).head? ≠ some '0' := by
  unfold Decimal.digits
  -- The first digit is that of a tenth of the number, until the number is a digit itself.
  induction n using Nat.strongRecOn with
  | ind n ih =>
      rw [Nat.toDigits_eq_if (by decide)]
      by_cases hlt : n < 10
      · rw [if_pos hlt]
        have hall : ∀ k < 10, k ≠ 0 → [Nat.digitChar k].head? ≠ some '0' := by decide
        exact hall n hlt h
      · rw [if_neg hlt, List.head?_append_of_ne_nil _ Nat.toDigits_ne_nil]
        exact ih (n / 10) (by omega) (by omega)

theorem leads_digits (n : Nat) : Leads (Decimal.digits n) := by
  by_cases h : n = 0
  · subst h
    exact .inl rfl
  · exact .inr (head?_digits h)

theorem written_ofNat (n : Nat) : (ofNat n).Written where
  whole := isDigits_digits n
  leads := leads_digits n
  fraction := nofun
  exponent := nofun

theorem toNat?_ofNat {bound n : Nat} : (ofNat n).toNat? bound = some n ↔ n < bound := by
  simp [toNat?, ofNat, isWhole, value_digits]

/-! ### Numerals of doubles

The digits of a double are written with zeros up to the point, or with a point among them, or with
an exponent. In each case there is a digit before the point, and no zero leads another one.
-/

theorem isDigit_of_mem_padded {ds : List Char} (hds : IsDigits ds) (k : Nat) :
    ∀ c ∈ List.replicate k '0' ++ ds, isDigit c = true := by
  intro c hc
  rcases List.mem_append.mp hc with h | h
  · rw [List.eq_of_mem_replicate h]
    decide
  · exact hds.2 c h

/-- The digits before the point when there are too few of them for the places behind it, and
when there are not. -/
theorem leads_padded {places : Nat} {ds : List Char} (hlead : ds.head? ≠ some '0') :
    Leads ((List.replicate (places + 1 - ds.length) '0' ++ ds).take
      ((List.replicate (places + 1 - ds.length) '0' ++ ds).length - places)) := by
  rw [List.length_append, List.length_replicate]
  by_cases hfew : ds.length < places + 1
  · left
    have hpad : places + 1 - ds.length + ds.length - places = 1 := by omega
    obtain ⟨k, hk⟩ : ∃ k, places + 1 - ds.length = k + 1 := ⟨places - ds.length, by omega⟩
    rw [hpad, hk]
    rfl
  · right
    have hnone : places + 1 - ds.length = 0 := by omega
    rw [hnone]
    obtain ⟨k, hk⟩ : ∃ k, 0 + ds.length - places = k + 1 := ⟨ds.length - places - 1, by omega⟩
    rw [hk]
    cases ds with
    | nil => simp at hfew
    | cons c ds => exact hlead

theorem written_ofDecimal (negative : Bool) (d : Decimal) : (ofDecimal negative d).Written := by
  have hds := isDigits_digits d.coefficient
  have hzero : IsDigits ['0'] := ⟨nofun, List.forall_mem_singleton.mpr rfl⟩
  unfold ofDecimal
  by_cases hcoeff : d.coefficient = 0
  · rw [if_pos (by simpa using hcoeff)]
    exact ⟨hzero, .inl rfl, hzero.2, nofun⟩
  rw [if_neg (by simpa using hcoeff)]
  have hlead := head?_digits hcoeff
  split
  · split
    · -- A whole number, with zeros up to the point.
      refine ⟨⟨?_, ?_⟩, .inr ?_, hzero.2, nofun⟩
      · exact List.append_ne_nil_of_left_ne_nil hds.1 _
      · intro c hc
        rcases List.mem_append.mp hc with h | h
        · exact hds.2 c h
        · rw [List.eq_of_mem_replicate h]
          decide
      · rw [List.head?_append_of_ne_nil _ hds.1]
        exact hlead
    · -- Digits on both sides of the point.
      refine ⟨⟨?_, fun c hc => ?_⟩, leads_padded hlead, fun c hc => ?_, nofun⟩
      · rw [← List.length_pos_iff, List.length_take, List.length_append, List.length_replicate]
        omega
      · exact isDigit_of_mem_padded hds _ c (List.mem_of_mem_take hc)
      · exact isDigit_of_mem_padded hds _ c (List.mem_of_mem_drop hc)
  · -- One digit before the point and an exponent.
    obtain ⟨c, ds, heq⟩ := List.exists_cons_of_ne_nil hds.1
    rw [heq] at hds hlead ⊢
    refine ⟨⟨nofun, ?_⟩, .inr hlead, fun c hc => hds.2 c (List.mem_of_mem_drop hc), ?_⟩
    · exact fun c hc => hds.2 c (List.mem_of_mem_take hc)
    · rintro p ⟨⟩
      exact isDigits_digits _

theorem written_of_ofFloat? {x : Float} {n : Numeral} (h : ofFloat? x = some n) : n.Written := by
  unfold ofFloat? at h
  split at h
  · obtain rfl := Option.some.inj h
    exact written_ofDecimal _ _
  · cases h

end Numeral

end StellarWind
