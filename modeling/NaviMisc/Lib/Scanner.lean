import Mathlib.Data.List.Basic
import Mathlib.Data.List.TakeWhile

/-!
The matches of a pattern in a text, one after the other, with what stands between them skipped.
-/

namespace NaviMisc.Lib.Scanner

variable {σ τ : Type*}

/-- The matches from left to right; a symbol where none begins is skipped. -/
def scan (m : List σ → Option (τ × List σ)) : ℕ → List σ → List τ
  | 0, _ => []
  | _, [] => []
  | n + 1, c :: s =>
    match m (c :: s) with
    | some (t, rest) => t :: scan m n rest
    | none => scan m n s

def finditer (m : List σ → Option (τ × List σ)) (s : List σ) : List τ := scan m s.length s

/-- A text of matches, where the pattern does not match at any symbol between them. -/
inductive Written (m : List σ → Option (τ × List σ)) : List τ → List σ → Prop
  | nil : Written m [] []
  | skip {c s l} : m (c :: s) = none → Written m l s → Written m l (c :: s)
  | token {t text s l} : text ≠ [] → m (text ++ s) = some (t, s) → Written m l s →
      Written m (t :: l) (text ++ s)

variable {m : List σ → Option (τ × List σ)} {l : List τ} {s : List σ}

theorem Written.scan_eq (h : Written m l s) {n : ℕ} (hn : s.length ≤ n) : scan m n s = l := by
  induction h generalizing n with
  | nil => cases n <;> rfl
  | skip hnone _ ih =>
    cases n with
    | zero => cases hn
    | succ n =>
      rw [scan, hnone]
      exact ih (Nat.le_of_succ_le_succ hn)
  | token hne hsome _ ih =>
    rename_i t text s l _
    obtain ⟨c, text, rfl⟩ := List.exists_cons_of_ne_nil hne
    rw [List.length_append, List.length_cons] at hn
    cases n with
    | zero => omega
    | succ n =>
      rw [List.cons_append] at hsome
      rw [List.cons_append, scan, hsome]
      exact congrArg (t :: ·) (ih (by omega))

theorem Written.finditer_eq (h : Written m l s) : finditer m s = l := h.scan_eq (Nat.le_refl _)

theorem takeWhile_append {p : σ → Bool} {s rest : List σ} (hs : ∀ c ∈ s, p c)
    (hrest : ∀ c ∈ rest.head?, ¬p c) : (s ++ rest).takeWhile p = s := by
  rw [List.takeWhile_append_of_pos hs]
  cases rest with
  | nil => simp
  | cons c rest => simp [hrest c rfl]

theorem dropWhile_append {p : σ → Bool} {s rest : List σ} (hs : ∀ c ∈ s, p c)
    (hrest : ∀ c ∈ rest.head?, ¬p c) : (s ++ rest).dropWhile p = rest := by
  rw [List.dropWhile_append_of_pos hs]
  cases rest with
  | nil => rfl
  | cons c rest => simp [hrest c rfl]

end NaviMisc.Lib.Scanner
