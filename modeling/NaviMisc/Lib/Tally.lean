import Mathlib.Algebra.BigOperators.Group.List.Basic
import Mathlib.Algebra.Order.Field.Rat
import Mathlib.Tactic.Ring

/-!
Tables of how often each key was seen, as lists of keys and numbers, and the frequencies they
become.
-/

namespace NaviMisc.Lib.Tally

variable {κ : Type} [BEq κ]

def bump (key : κ) : List (κ × ℚ) → List (κ × ℚ)
  | [] => [(key, 1)]
  | (k, n) :: table => if k == key then (k, n + 1) :: table else (k, n) :: bump key table

def total (table : List (κ × ℚ)) : ℚ := (table.map Prod.snd).sum

def tally (keys : List κ) (table : List (κ × ℚ)) : List (κ × ℚ) :=
  keys.foldl (fun table key => bump key table) table

def divide (n : ℚ) (table : List (κ × ℚ)) : List (κ × ℚ) := table.map fun e => (e.1, e.2 / n)

theorem total_bump (key : κ) (table : List (κ × ℚ)) : total (bump key table) = total table + 1 := by
  induction table with
  | nil => simp [bump, total]
  | cons e table ih =>
    rw [bump]
    split_ifs with he
    · simp only [total, List.map_cons, List.sum_cons]
      ring
    · simp only [total, List.map_cons, List.sum_cons] at ih ⊢
      rw [ih, add_assoc]

theorem total_tally (keys : List κ) (table : List (κ × ℚ)) :
    total (tally keys table) = total table + keys.length := by
  induction keys generalizing table with
  | nil => simp [tally]
  | cons key keys ih =>
    rw [tally, List.foldl_cons, ← tally, ih, total_bump, List.length_cons]
    push_cast
    ring

theorem lookup_bump [LawfulBEq κ] (key k : κ) (table : List (κ × ℚ)) :
    (bump key table).lookup k =
      if k == key then some ((table.lookup k).getD 0 + 1) else table.lookup k := by
  induction table with
  | nil =>
    rw [bump, List.lookup_cons, List.lookup_nil]
    cases k == key with
    | true => rw [if_pos rfl, Option.getD_none, zero_add]
    | false => rfl
  | cons e table ih =>
    obtain ⟨k', n⟩ := e
    rw [bump, List.lookup_cons]
    by_cases hk' : k' = key
    · subst hk'
      rw [if_pos BEq.rfl, List.lookup_cons]
      cases k == k' <;> rfl
    · rw [if_neg (by rwa [beq_iff_eq]), List.lookup_cons, ih]
      by_cases hk : k = k'
      · subst hk
        rw [beq_self_eq_true, beq_false_of_ne hk']
        rfl
      · rw [beq_false_of_ne hk]

theorem lookup_tally [LawfulBEq κ] {k : κ} {keys : List κ} (h : k ∈ keys) (table : List (κ × ℚ)) :
    (tally keys table).lookup k = some ((table.lookup k).getD 0 + keys.count k) := by
  suffices hall : ∀ table : List (κ × ℚ), (tally keys table).lookup k =
      if k ∈ keys then some ((table.lookup k).getD 0 + keys.count k) else table.lookup k by
    rw [hall, if_pos h]
  clear h
  classical
  induction keys with
  | nil => exact fun _ => rfl
  | cons key keys ih =>
    intro table
    rw [tally, List.foldl_cons, ← tally, ih, lookup_bump, List.count_cons]
    by_cases hk : k = key
    · subst hk
      by_cases hmem : k ∈ keys
      · simp [hmem]
        ring
      · simp [hmem, List.count_eq_zero_of_not_mem hmem]
    · have hne : (key == k) = false := beq_false_of_ne (Ne.symm hk)
      simp [hk, hne]

omit [BEq κ] in
theorem total_divide (n : ℚ) (table : List (κ × ℚ)) : total (divide n table) = total table / n := by
  induction table with
  | nil => simp [divide, total]
  | cons e table ih =>
    simp only [divide, total, List.map_cons, List.sum_cons] at ih ⊢
    rw [ih, add_div]

theorem lookup_divide (n : ℚ) (k : κ) (table : List (κ × ℚ)) :
    (divide n table).lookup k = (table.lookup k).map (· / n) := by
  induction table with
  | nil => rfl
  | cons e table ih =>
    rw [divide, List.map_cons, List.lookup_cons, List.lookup_cons]
    cases k == e.1 with
    | true => rfl
    | false => exact ih

def frequencies (keys : List κ) : List (κ × ℚ) := divide keys.length (tally keys [])

theorem total_frequencies {keys : List κ} (h : keys ≠ []) : total (frequencies keys) = 1 := by
  have hne : (keys.length : ℚ) ≠ 0 := Nat.cast_ne_zero.mpr (mt List.length_eq_zero_iff.mp h)
  rw [frequencies, total_divide, total_tally, total, List.map_nil, List.sum_nil, zero_add,
    div_self hne]

theorem lookup_frequencies [LawfulBEq κ] {keys : List κ} {k : κ} (h : k ∈ keys) :
    (frequencies keys).lookup k = some ((keys.count k : ℚ) / keys.length) := by
  rw [frequencies, lookup_divide, lookup_tally h, List.lookup_nil, Option.getD_none,
    zero_add, Option.map_some]

end NaviMisc.Lib.Tally
