import Mathlib.Data.BitVec
import Mathlib.Data.List.SplitLengths
import Mathlib.Tactic.Ring
import NaviMisc.Lib.Text

/-!
System.Guid and System.Int32 as texts.
-/

namespace NaviMisc.Fyre

open Lib

structure Guid where
  digits : List (Fin 16)
  length_eq : digits.length = 32
  deriving DecidableEq

def hexDigit (d : Fin 16) : Char := Nat.digitChar d

def hexValue (c : Char) : Option (Fin 16) :=
  (List.finRange 16).find? fun d => hexDigit d = c.toLower

namespace Guid

def groups : List ℕ := [8, 4, 4, 4, 12]

def ToString (g : Guid) : List Char :=
  ['-'].intercalate (groups.splitLengths (g.digits.map hexDigit))

def ofDigits (text : List Char) : Option Guid := do
  let digits ← text.mapM hexValue
  if h : digits.length = 32 then some ⟨digits, h⟩ else none

def ofGroups (text : List Char) : Option Guid :=
  if (text.splitOn '-').map List.length = groups then ofDigits (text.splitOn '-').flatten else none

def between (first last : Char) (text : List Char) : Option (List Char) :=
  if text.head? = some first ∧ text.tail.getLast? = some last then some text.tail.dropLast else none

/-- 0x and at most `width` digits. -/
def padded (width : ℕ) : List Char → Option (List Char)
  | '0' :: 'x' :: digits =>
    if digits ≠ [] ∧ digits.length ≤ width then
      some (List.replicate (width - digits.length) '0' ++ digits)
    else none
  | _ => none

def ofNumbers (text : List Char) : Option Guid := do
  let fields := (← between '{' '}' (text.filter fun c => !c.isWhitespace)).splitOn ','
  let bytes ← between '{' '}' ([','].intercalate (fields.drop 3))
  let numbers := fields.take 3 ++ bytes.splitOn ','
  let widths := [8, 4, 4, 2, 2, 2, 2, 2, 2, 2, 2]
  if numbers.length = widths.length then
    ofDigits (← (List.zipWith padded widths numbers).mapM id).flatten
  else none

/-- The constructor, which throws on any other text. -/
def new (text : List Char) : Option Guid :=
  let text := Text.strip Char.isWhitespace text
  ofGroups text <|> (between '{' '}' text).bind ofGroups <|>
    (between '(' ')' text).bind ofGroups <|> ofDigits text <|> ofNumbers text

theorem hexValue_hexDigit : ∀ d, hexValue (hexDigit d) = some d := by decide

theorem hexDigit_text : ∀ d, hexDigit d ≠ '-' ∧ hexDigit d ≠ ':' ∧
    (hexDigit d).isWhitespace = false := by decide

variable (g : Guid)

theorem mem_of_mem_group {group : List Char} {c : Char}
    (hg : group ∈ groups.splitLengths (g.digits.map hexDigit)) (hc : c ∈ group) :
    ∃ d, hexDigit d = c := by
  have hmem := List.mem_flatten_of_mem hg hc
  rw [List.flatten_splitLengths] at hmem
  · obtain ⟨d, -, hd⟩ := List.mem_map.mp hmem
    exact ⟨d, hd⟩
  · simp [g.length_eq, groups]

theorem splitOn_toString :
    g.ToString.splitOn '-' = groups.splitLengths (g.digits.map hexDigit) := by
  apply List.splitOn_intercalate
  · intro group hg hc
    obtain ⟨d, hd⟩ := g.mem_of_mem_group hg hc
    exact (hexDigit_text d).1 hd
  · simp [groups]

theorem ofDigits_map : ofDigits (g.digits.map hexDigit) = some g := by
  have hmap : ∀ l : List (Fin 16), (l.map hexDigit).mapM hexValue = some l := by
    intro l
    induction l with
    | nil => rfl
    | cons d l ih =>
      rw [List.map_cons, List.mapM_cons, hexValue_hexDigit, ih]
      rfl
  rw [ofDigits, hmap]
  exact dif_pos g.length_eq

theorem mem_toString {c : Char} (h : c ∈ g.ToString) : c ≠ ':' ∧ ¬c.isWhitespace := by
  rcases Text.mem_of_mem_intercalate h with hc | ⟨group, hg, hc⟩
  · rw [List.mem_singleton.mp hc]
    decide
  · obtain ⟨d, rfl⟩ := g.mem_of_mem_group hg hc
    simp [hexDigit_text d]

theorem new_toString : new g.ToString = some g := by
  have hgroups : ofGroups g.ToString = some g := by
    rw [ofGroups, splitOn_toString, List.map_splitLengths_length, if_pos rfl,
      List.flatten_splitLengths, ofDigits_map]
    · simp [g.length_eq, groups]
    · simp [g.length_eq, groups]
  have hstrip : Text.strip Char.isWhitespace g.ToString = g.ToString :=
    Text.strip_of_forall fun c hc => (g.mem_toString hc).2
  simp [new, hstrip, hgroups]

end Guid

namespace Int32

def ToString (n : Int32) : List Char :=
  if n.toInt < 0 then '-' :: Nat.toDigits 10 n.toInt.natAbs else Nat.toDigits 10 n.toInt.natAbs

def sign : List Char → ℤ × List Char
  | '-' :: digits => (-1, digits)
  | '+' :: digits => (1, digits)
  | digits => (1, digits)

/-- It throws on a text that is no number and on a number that is out of range. -/
def Parse (text : List Char) : Option Int32 :=
  let (sign, digits) := sign (Text.strip Char.isWhitespace text)
  let value := sign * Nat.ofDigitChars 10 digits 0
  if digits ≠ [] ∧ digits.all Char.isDigit ∧ -2 ^ 31 ≤ value ∧ value < 2 ^ 31 then
    some (Int32.ofInt value)
  else none

theorem not_isWhitespace {c : Char} (h : c.isDigit) : ¬c.isWhitespace := by
  simp only [Char.isWhitespace, Bool.or_eq_true, decide_eq_true_eq]
  rintro (((rfl | rfl) | rfl) | rfl) <;> simp_all

theorem mem_toString (n : Int32) {c : Char} (h : c ∈ ToString n) :
    c ≠ ':' ∧ ¬c.isWhitespace := by
  have hdigit : ∀ k, c ∈ Nat.toDigits 10 k → c ≠ ':' ∧ ¬c.isWhitespace := by
    intro k hk
    have hc := Nat.isDigit_of_mem_toDigits (by decide) (by decide) hk
    refine ⟨?_, not_isWhitespace hc⟩
    rintro rfl
    contradiction
  unfold ToString at h
  split_ifs at h
  · rcases List.mem_cons.mp h with rfl | h
    · decide
    · exact hdigit _ h
  · exact hdigit _ h

theorem sign_of_isDigit {digits : List Char} (h : ∀ c ∈ digits, c.isDigit) :
    sign digits = (1, digits) := by
  unfold sign
  split
  · exact absurd (h '-' List.mem_cons_self) (by decide)
  · exact absurd (h '+' List.mem_cons_self) (by decide)
  · rfl

theorem sign_toString (n : Int32) :
    ∃ s, sign (ToString n) = (s, Nat.toDigits 10 n.toInt.natAbs) ∧
      s * n.toInt.natAbs = n.toInt := by
  unfold ToString
  split_ifs with hn
  · exact ⟨-1, rfl, by omega⟩
  · refine ⟨1, sign_of_isDigit fun c hc => ?_, by omega⟩
    exact Nat.isDigit_of_mem_toDigits (by decide) (by decide) hc

theorem parse_toString (n : Int32) : Parse (ToString n) = some n := by
  have hstrip : Text.strip Char.isWhitespace (ToString n) = ToString n :=
    Text.strip_of_forall fun c hc => (mem_toString n hc).2
  obtain ⟨s, hsign, hvalue⟩ := sign_toString n
  have hdigits : (Nat.toDigits 10 n.toInt.natAbs).all Char.isDigit := by
    rw [List.all_eq_true]
    exact fun c hc => Nat.isDigit_of_mem_toDigits (by decide) (by decide) hc
  simp only [Parse, hstrip, hsign, Nat.ofDigitChars_ten_toDigits, hvalue]
  rw [if_pos ⟨Nat.toDigits_ne_nil, hdigits, n.le_toInt, n.toInt_lt⟩, Int32.ofInt_toInt]

end Int32

end NaviMisc.Fyre
