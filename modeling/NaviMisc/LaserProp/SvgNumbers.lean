import Mathlib.Data.Rat.Defs
import NaviMisc.Lib.Scanner

/-!
The numbers in the attributes of SVG elements, as the regular expressions of client/SVGPath.py
match them.
-/

namespace NaviMisc.LaserProp.Svg

open NaviMisc.Lib

inductive Error
  | attributeError
  | keyError
  | indexError
  | typeError
  | notImplementedError
  | assertionError
  deriving DecidableEq

structure Exponent where
  letter : Char
  sign : Option Char
  digits : List Char
  deriving DecidableEq

structure Number where
  sign : Option Char := none
  whole : List Char
  fraction : Option (List Char) := none
  exponent : Option Exponent := none
  deriving DecidableEq

def blanks : List Char := [' ', '\t', '\r', '\n', ',']

def IsSign (c : Char) : Prop := c = '+' ∨ c = '-'

def IsExponentLetter (c : Char) : Prop := c = 'e' ∨ c = 'E'

instance : DecidablePred IsSign := fun _ => inferInstanceAs (Decidable (_ ∨ _))

instance : DecidablePred IsExponentLetter := fun _ => inferInstanceAs (Decidable (_ ∨ _))

section Match

/-- `[-+]?` -/
def matchSign : List Char → Option Char × List Char
  | c :: s => if IsSign c then (some c, s) else (none, c :: s)
  | [] => (none, [])

/-- `\.[0-9]+`, where it matches. -/
def matchFraction : List Char → Option (List Char) × List Char
  | '.' :: s =>
    let digits := s.takeWhile Char.isDigit
    if digits = [] then (none, '.' :: s) else (some digits, s.dropWhile Char.isDigit)
  | s => (none, s)

/-- `([eE][-+]?[0-9]+)?` -/
def matchExponent : List Char → Option Exponent × List Char
  | letter :: s =>
    if IsExponentLetter letter then
      let (sign, r) := matchSign s
      let digits := r.takeWhile Char.isDigit
      if digits = [] then (none, letter :: s)
      else (some ⟨letter, sign, digits⟩, r.dropWhile Char.isDigit)
    else
      (none, letter :: s)
  | [] => (none, [])

/-- `[-+]?[0-9]*\.?[0-9]+([eE][-+]?[0-9]+)?` -/
def matchNumber (s : List Char) : Option (Number × List Char) :=
  let (sign, s) := matchSign s
  let whole := s.takeWhile Char.isDigit
  let (fraction, s) := matchFraction (s.dropWhile Char.isDigit)
  if whole = [] ∧ fraction = none then
    none
  else
    let (exponent, s) := matchExponent s
    some (⟨sign, whole, fraction, exponent⟩, s)

end Match

section Value

def natural (digits : List Char) : ℕ := digits.foldl (fun n c => 10 * n + (c.toNat - '0'.toNat)) 0

def signed (sign : Option Char) (q : ℚ) : ℚ := if sign = some '-' then -q else q

def Exponent.value (e : Exponent) : ℚ :=
  if e.sign = some '-' then 1 / 10 ^ natural e.digits else 10 ^ natural e.digits

/-- `float` of the text of a number. -/
def Number.float (n : Number) : ℚ :=
  let fraction := n.fraction.getD []
  signed n.sign (natural (n.whole ++ fraction) / 10 ^ fraction.length *
    (n.exponent.map Exponent.value).getD 1)

end Value

section Text

def Exponent.text (e : Exponent) : List Char := e.letter :: (e.sign.toList ++ e.digits)

def Number.text (n : Number) : List Char :=
  n.sign.toList ++ (n.whole ++ ((n.fraction.elim [] fun f => '.' :: f) ++
    n.exponent.elim [] Exponent.text))

structure Exponent.WellFormed (e : Exponent) : Prop where
  letter : IsExponentLetter e.letter
  sign : ∀ c ∈ e.sign, IsSign c
  digits : ∀ c ∈ e.digits, c.isDigit
  digits_ne_nil : e.digits ≠ []

structure Number.WellFormed (n : Number) : Prop where
  sign : ∀ c ∈ n.sign, IsSign c
  whole : ∀ c ∈ n.whole, c.isDigit
  fraction : ∀ f ∈ n.fraction, f ≠ [] ∧ ∀ c ∈ f, c.isDigit
  mantissa : n.whole ≠ [] ∨ n.fraction ≠ none
  exponent : ∀ e ∈ n.exponent, e.WellFormed

structure Number.Ends (n : Number) (rest : List Char) : Prop where
  digit : ∀ c ∈ rest.head?, ¬c.isDigit
  point : n.fraction = none → n.exponent = none → rest.head? ≠ some '.'
  exponent : ∀ c ∈ rest.head?, ¬IsExponentLetter c

end Text

section Round

variable {n : Number} {rest s : List Char}

theorem not_isSign_of_isDigit {c : Char} (h : c.isDigit) : ¬IsSign c := by
  rintro (rfl | rfl)
  · exact absurd h (by decide)
  · exact absurd h (by decide)

theorem matchSign_of_not (h : ∀ c ∈ s.head?, ¬IsSign c) : matchSign s = (none, s) := by
  cases s with
  | nil => rfl
  | cons c s => exact if_neg (h c rfl)

theorem matchSign_append {sign : Option Char} (hsign : ∀ c ∈ sign, IsSign c)
    (hs : ∀ c ∈ s.head?, ¬IsSign c) : matchSign (sign.toList ++ s) = (sign, s) := by
  cases sign with
  | none => exact matchSign_of_not hs
  | some c => exact if_pos (hsign c rfl)

theorem head_of_digits {digits : List Char} (rest : List Char) (h : ∀ c ∈ digits, c.isDigit) (hne : digits ≠ []) :
    ∃ c, (digits ++ rest).head? = some c ∧ c.isDigit := by
  obtain ⟨c, digits, rfl⟩ := List.exists_cons_of_ne_nil hne
  exact ⟨c, rfl, h c List.mem_cons_self⟩

theorem matchExponent_text {exponent : Option Exponent} (h : ∀ e ∈ exponent, e.WellFormed)
    (hdigit : ∀ c ∈ rest.head?, ¬c.isDigit) (hrest : ∀ c ∈ rest.head?, ¬IsExponentLetter c) :
    matchExponent (exponent.elim [] Exponent.text ++ rest) = (exponent, rest) := by
  cases exponent with
  | none =>
    cases rest with
    | nil => rfl
    | cons c rest => exact if_neg (hrest c rfl)
  | some e =>
    have he := h e rfl
    obtain ⟨c, hc, hcdigit⟩ := head_of_digits rest he.digits he.digits_ne_nil
    have hsign : matchSign (e.sign.toList ++ (e.digits ++ rest)) = (e.sign, e.digits ++ rest) := by
      apply matchSign_append he.sign
      rw [hc]
      rintro _ ⟨⟩
      exact not_isSign_of_isDigit hcdigit
    rw [Option.elim_some, Exponent.text, List.cons_append, List.append_assoc, matchExponent,
      if_pos he.letter, hsign]
    dsimp only
    rw [Scanner.takeWhile_append he.digits hdigit, Scanner.dropWhile_append he.digits hdigit,
      if_neg he.digits_ne_nil]

theorem matchFraction_text {fraction : Option (List Char)}
    (h : ∀ f ∈ fraction, f ≠ [] ∧ ∀ c ∈ f, c.isDigit) (hdigit : ∀ c ∈ s.head?, ¬c.isDigit)
    (hpoint : fraction = none → s.head? ≠ some '.') :
    matchFraction ((fraction.elim [] fun f => '.' :: f) ++ s) = (fraction, s) := by
  cases fraction with
  | none =>
    cases s with
    | nil => rfl
    | cons c s =>
      have hne : c ≠ '.' := fun hc => hpoint rfl (congrArg some hc)
      rw [Option.elim_none, List.nil_append, matchFraction]
      rintro s' ⟨⟩
      exact hne rfl
  | some f =>
    obtain ⟨hne, hdigits⟩ := h f rfl
    rw [Option.elim_some, List.cons_append, matchFraction, Scanner.takeWhile_append hdigits hdigit,
      Scanner.dropWhile_append hdigits hdigit, if_neg hne]

theorem exponent_head (h : n.WellFormed) (hrest : n.Ends rest) :
    (∀ c ∈ (n.exponent.elim [] Exponent.text ++ rest).head?, ¬c.isDigit) ∧
      (n.fraction = none → (n.exponent.elim [] Exponent.text ++ rest).head? ≠ some '.') := by
  cases hexponent : n.exponent with
  | none => exact ⟨hrest.digit, fun hf => hrest.point hf hexponent⟩
  | some e =>
    have hletter := (h.exponent e hexponent).letter
    constructor
    · rintro _ ⟨⟩ hdigit
      rcases hletter with he | he
      · rw [he] at hdigit
        exact absurd hdigit (by decide)
      · rw [he] at hdigit
        exact absurd hdigit (by decide)
    · intro _ hpoint
      have he : e.letter = '.' := Option.some.inj hpoint
      rw [he] at hletter
      exact absurd hletter (by decide)

theorem matchNumber_text (h : n.WellFormed) (hrest : n.Ends rest) :
    matchNumber (n.text ++ rest) = some (n, rest) := by
  obtain ⟨hdigit, hpoint⟩ := exponent_head h hrest
  have hfraction := matchFraction_text h.fraction hdigit hpoint
  have hexponent := matchExponent_text h.exponent hrest.digit hrest.exponent
  generalize htail : n.exponent.elim [] Exponent.text ++ rest = tail at *
  have htext : n.text ++ rest =
      n.sign.toList ++ (n.whole ++ ((n.fraction.elim [] fun f => '.' :: f) ++ tail)) := by
    rw [← htail, Number.text]
    simp only [List.append_assoc]
  have hhead : ∀ c ∈ ((n.fraction.elim [] fun f => '.' :: f) ++ tail).head?, ¬c.isDigit := by
    cases n.fraction with
    | none => exact hdigit
    | some f =>
      rintro _ ⟨⟩
      decide
  have hsign : ∀ c ∈ (n.whole ++ ((n.fraction.elim [] fun f => '.' :: f) ++ tail)).head?,
      ¬IsSign c := by
    intro c hc
    cases hwhole : n.whole with
    | cons d whole =>
      rw [hwhole] at hc
      cases hc
      exact not_isSign_of_isDigit (h.whole c (by simp [hwhole]))
    | nil =>
      rw [hwhole, List.nil_append] at hc
      cases hf : n.fraction with
      | none => exact absurd hf (h.mantissa.resolve_left fun hne => hne hwhole)
      | some f =>
        rw [hf] at hc
        cases hc
        decide
  rw [htext, matchNumber, matchSign_append h.sign hsign]
  dsimp only
  rw [Scanner.takeWhile_append h.whole hhead, Scanner.dropWhile_append h.whole hhead, hfraction]
  dsimp only
  rw [if_neg, hexponent]
  rintro ⟨hwhole, hf⟩
  exact h.mantissa.elim (fun hne => hne hwhole) (fun hne => hne hf)

theorem text_head (h : n.WellFormed) :
    ∃ c text, n.text = c :: text ∧ (IsSign c ∨ c.isDigit ∨ c = '.') := by
  rw [Number.text]
  cases hsign : n.sign with
  | some c => exact ⟨c, _, rfl, Or.inl (h.sign c hsign)⟩
  | none =>
    cases hwhole : n.whole with
    | cons c whole => exact ⟨c, _, rfl, Or.inr (Or.inl (h.whole c (by simp [hwhole])))⟩
    | nil =>
      cases hfraction : n.fraction with
      | some f => exact ⟨'.', _, rfl, Or.inr (Or.inr rfl)⟩
      | none => exact absurd hfraction (h.mantissa.resolve_left fun hne => hne hwhole)

theorem text_ne_nil (h : n.WellFormed) : n.text ≠ [] := by
  obtain ⟨c, text, htext, -⟩ := text_head h
  rw [htext]
  exact List.cons_ne_nil c text

theorem matchNumber_of_not {c : Char} (hsign : ¬IsSign c) (hdigit : ¬c.isDigit) (hpoint : c ≠ '.') :
    matchNumber (c :: s) = none := by
  have hfraction : matchFraction (c :: s) = (none, c :: s) := by
    rw [matchFraction]
    rintro s' ⟨⟩
    exact hpoint rfl
  rw [matchNumber, matchSign, if_neg hsign]
  simp [hdigit, hfraction]

theorem ends_of {d : Char} (h : ¬d.isDigit ∧ d ≠ '.' ∧ ¬IsExponentLetter d) : n.Ends (d :: s) where
  digit := by
    rintro _ ⟨⟩
    exact h.1
  point := by
    rintro - - ⟨⟩
    exact h.2.1 rfl
  exponent := by
    rintro _ ⟨⟩
    exact h.2.2

def digit (c : Char) : Number := { whole := [c] }

theorem digit_wellFormed {c : Char} (h : c.isDigit) : (digit c).WellFormed where
  sign _ hc := nomatch hc
  whole c' hc := by
    rw [List.mem_singleton.mp hc]
    exact h
  fraction _ hf := nomatch hf
  mantissa := Or.inl (List.cons_ne_nil _ _)
  exponent _ he := nomatch he

end Round

end NaviMisc.LaserProp.Svg
