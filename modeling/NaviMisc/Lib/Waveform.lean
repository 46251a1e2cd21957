import Mathlib.Data.List.Basic

/-!
Waveforms as pairs of a pulse and the space behind it.
-/

namespace NaviMisc.Lib.Waveform

abbrev Pair := ℕ × ℕ

/-- The last pair comes first. A pair goes into it when one of the levels between them is empty. -/
def extend : List Pair → Pair → List Pair
  | [], p => [p]
  | q :: w, p => if q.2 = 0 ∨ p.1 = 0 then (q.1 + p.1, q.2 + p.2) :: w else p :: q :: w

/-- Nothing is on the line before the first pair. -/
def wave (l : List Pair) : List Pair := l.foldl extend [(0, 0)]

def merge (l : List Pair) : List Pair := (wave l).reverse

variable {w v : List Pair} {a b c e f : ℕ}

theorem extend_ne_nil (w : List Pair) (p : Pair) : extend w p ≠ [] := by
  cases w with
  | nil => simp [extend]
  | cons q w =>
    rw [extend]
    split_ifs <;> simp

theorem foldl_extend_ne_nil (hw : w ≠ []) (l : List Pair) : l.foldl extend w ≠ [] := by
  induction l generalizing w with
  | nil => exact hw
  | cons p l ih => exact ih (extend_ne_nil w p)

theorem extend_zero (hw : w ≠ []) : extend w (0, 0) = w := by
  cases w with
  | nil => exact absurd rfl hw
  | cons q w => simp [extend]

theorem wave_append (l m : List Pair) : wave (l ++ m) = m.foldl extend (wave l) :=
  List.foldl_append

theorem wave_append_zero (l : List Pair) : wave (l ++ [(0, 0)]) = wave l := by
  rw [wave_append]
  exact extend_zero (foldl_extend_ne_nil (by simp) l)

theorem extend_pulse (w : List Pair) (a b c : ℕ) :
    extend (extend w (a, 0)) (b, c) = extend w (a + b, c) := by
  cases w with
  | nil => simp [extend]
  | cons q w =>
    by_cases hq : q.2 = 0
    · simp [extend, hq, Nat.add_assoc]
    · by_cases ha : a = 0 <;> simp [extend, hq, ha]

theorem extend_space (w : List Pair) (a b c : ℕ) :
    extend (extend w (a, b)) (0, c) = extend w (a, b + c) := by
  cases w with
  | nil => simp [extend]
  | cons q w =>
    by_cases hq : q.2 = 0 ∨ a = 0
    · simp [extend, hq, Nat.add_assoc]
    · simp [extend, hq]

theorem merge_inj {l m : List Pair} : merge l = merge m ↔ wave l = wave m :=
  List.reverse_inj

end NaviMisc.Lib.Waveform
