import Mathlib.Data.List.Basic
import Mathlib.Data.Nat.Bitwise
import Mathlib.Tactic.Ring

/-!
Canonical prefix codes: the words of one length are consecutive numbers, in the order of the
symbols, and the words of the next length begin behind them.
-/

namespace NaviMisc.Lib.PrefixCode

section Words

variable (count : ℕ → ℕ)

/-- The first word of length `k + 1`, if there are `count n` words of each length `n`. -/
def first : ℕ → ℕ
  | 0 => 0
  | k + 1 => 2 * (first k + count (k + 1))

/-- How many words are shorter than `k + 1`. -/
def index : ℕ → ℕ
  | 0 => 0
  | k + 1 => index k + count (k + 1)

/-- The bits of a word of length `k + 1`, the highest one first. -/
def word (k c : ℕ) : List Bool := (List.range (k + 1)).map fun i => c.testBit (k - i)

/-- The position of the word that a list begins with among the words in order, and what is behind
it. It is none if the list ends before, and has no position if no word of `n` more bits fits. -/
def walk : ℕ → ℕ → ℕ → ℕ → ℕ → List Bool → Option (Option ℕ × List Bool)
  | 0, _, _, _, _, l => some (none, l)
  | _ + 1, _, _, _, _, [] => none
  | n + 1, k, code, first, index, b :: l =>
    let code := code + b.toNat
    if code < first + count (k + 1) then some (some (index + (code - first)), l)
    else walk n (k + 1) (2 * code) (2 * (first + count (k + 1))) (index + count (k + 1)) l

/-- How many words of length `k` are left over. -/
def left : ℕ → ℤ
  | 0 => 1
  | k + 1 => 2 * left k - count (k + 1)

variable {count}

@[simp] theorem length_word (k c : ℕ) : (word k c).length = k + 1 := by
  rw [word, List.length_map, List.length_range]

theorem word_zero (c : ℕ) : word 0 c = [c.testBit 0] := rfl

theorem word_succ (k c : ℕ) : word (k + 1) c = c.testBit (k + 1) :: word k c := by
  rw [word, List.range_succ_eq_map, List.map_cons, List.map_map]
  congr 1
  apply List.map_congr_left
  intro i _
  rw [Function.comp_apply, Nat.succ_eq_add_one, Nat.add_sub_add_right]

/-- The words of length `k + 1` are behind the prefixes of shorter ones. -/
theorem le_first (j m : ℕ) :
    (first count j + count (j + 1)) * 2 ^ (m + 1) ≤ first count (j + m + 1) := by
  induction m with
  | zero => exact Nat.le_of_eq (Nat.mul_comm _ _)
  | succ m ih =>
    calc (first count j + count (j + 1)) * 2 ^ (m + 1 + 1)
        = 2 * ((first count j + count (j + 1)) * 2 ^ (m + 1)) := by ring
      _ ≤ 2 * (first count (j + m + 1) + count (j + m + 1 + 1)) := by omega
      _ = first count (j + (m + 1) + 1) := rfl

theorem div_two_pow_succ (c m : ℕ) :
    2 * (c / 2 ^ (m + 1)) + (c.testBit m).toNat = c / 2 ^ m := by
  have hbit : (c.testBit m).toNat = c / 2 ^ m % 2 := by
    rw [Nat.toNat_testBit]
  rw [hbit, Nat.pow_succ, ← Nat.div_div_eq_div_mul]
  exact Nat.div_add_mod _ 2

theorem testBit_of_div {c m q : ℕ} (h : c / 2 ^ m = q) : c.testBit m = q.testBit 0 := by
  rw [← h, Nat.testBit_div_two_pow, Nat.zero_add]

theorem walk_word {j m n c : ℕ} (hn : m < n) (hfirst : first count (j + m) ≤ c)
    (hlt : c < first count (j + m) + count (j + m + 1)) (l : List Bool) :
    walk count n j (2 * (c / 2 ^ (m + 1))) (first count j) (index count j) (word m c ++ l) =
      some (some (index count (j + m) + (c - first count (j + m))), l) := by
  induction m generalizing j n with
  | zero =>
    obtain ⟨n, rfl⟩ := Nat.exists_eq_add_of_lt hn
    rw [word_zero, List.singleton_append, Nat.zero_add, Nat.zero_add, walk, div_two_pow_succ,
      Nat.pow_zero, Nat.div_one]
    exact if_pos hlt
  | succ m ih =>
    obtain ⟨n, rfl⟩ : ∃ n', n = n' + 1 := ⟨n - 1, by omega⟩
    have hprefix : first count j + count (j + 1) ≤ c / 2 ^ (m + 1) := by
      rw [Nat.le_div_iff_mul_le (Nat.two_pow_pos _)]
      exact (le_first j m).trans hfirst
    rw [word_succ, List.cons_append, walk, div_two_pow_succ]
    rw [if_neg (Nat.not_lt.mpr hprefix)]
    have hnext := @ih (j + 1) n (by omega)
    rw [Nat.add_right_comm j 1 m, Nat.add_assoc j m 1] at hnext
    exact hnext hfirst hlt

theorem walk_sound {j n p pos : ℕ} {l l' : List Bool} (hp : first count j ≤ 2 * p)
    (h : walk count n j (2 * p) (first count j) (index count j) l = some (some pos, l')) :
    ∃ m < n, ∃ c, c / 2 ^ (m + 1) = p ∧ first count (j + m) ≤ c ∧
      c < first count (j + m) + count (j + m + 1) ∧ l = word m c ++ l' ∧
      pos = index count (j + m) + (c - first count (j + m)) := by
  induction n generalizing j p l with
  | zero => cases h
  | succ n ih =>
    cases l with
    | nil => cases h
    | cons b l =>
      rw [walk] at h
      have hdiv : (2 * p + b.toNat) / 2 = p := by
        cases b <;> simp only [Bool.toNat_false, Bool.toNat_true] <;> omega
      have hbit : (2 * p + b.toNat).testBit 0 = b := by
        cases b <;> simp [Nat.testBit_zero]
      by_cases hlt : 2 * p + b.toNat < first count j + count (j + 1)
      · rw [if_pos hlt] at h
        cases h
        refine ⟨0, Nat.succ_pos n, 2 * p + b.toNat, hdiv, by rw [Nat.add_zero]; omega, hlt, ?_, rfl⟩
        rw [word_zero, hbit]
        rfl
      · rw [if_neg hlt] at h
        obtain ⟨m, hm, c, hc, hfirst, hlast, hword, hpos⟩ :=
          ih (by rw [first]; omega) h
        rw [Nat.add_assoc, Nat.add_comm 1 m] at hfirst hlast hpos
        refine ⟨m + 1, Nat.succ_lt_succ hm, c, ?_, hfirst, hlast, ?_, hpos⟩
        · rw [Nat.pow_succ, ← Nat.div_div_eq_div_mul, hc, hdiv]
        · rw [word_succ, testBit_of_div hc, hbit, hword]
          rfl

theorem left_succ (k : ℕ) :
    left count (k + 1) = 2 ^ (k + 1) - (first count k + count (k + 1) : ℕ) := by
  induction k with
  | zero => simp [left, first]
  | succ k ih =>
    rw [left, ih, first]
    push_cast
    ring

/-- Each list that is long enough begins with a word if none is left over. -/
theorem walk_complete {n j k p : ℕ} (hleft : left count n = 0) (hn : j + k = n) (hp : p < 2 ^ k)
    (hfirst : first count k ≤ 2 * p) (l l' : List Bool) :
    walk count j k (2 * p) (first count k) (index count k) l ≠ some (none, l') := by
  induction j generalizing k p l with
  | zero =>
    rw [Nat.zero_add] at hn
    subst hn
    cases k with
    | zero => exact absurd hleft one_ne_zero
    | succ k =>
      rw [left_succ] at hleft
      rw [first] at hfirst
      have hpow : ((2 ^ (k + 1) : ℕ) : ℤ) = 2 ^ (k + 1) := by push_cast; rfl
      omega
  | succ j ih =>
    cases l with
    | nil => exact nofun
    | cons b l =>
      rw [walk]
      split_ifs with hlt
      · exact nofun
      · apply ih (by omega)
        · have hb := b.toNat_lt
          rw [Nat.pow_succ]
          omega
        · rw [first]
          omega

theorem left_nonneg_of_le {k n : ℕ} (hk : k ≤ n) (h : 0 ≤ left count n) : 0 ≤ left count k := by
  induction hk with
  | refl => exact h
  | step _ ih =>
    apply ih
    rw [left] at h
    omega

theorem word_lt {k n : ℕ} (hleft : 0 ≤ left count n) (hk : k < n) :
    first count k + count (k + 1) ≤ 2 ^ (k + 1) := by
  have hnonneg := left_nonneg_of_le hk hleft
  rw [left_succ] at hnonneg
  have hpow : ((2 ^ (k + 1) : ℕ) : ℤ) = 2 ^ (k + 1) := by push_cast; rfl
  omega

end Words

section Symbols

variable (lengths : List ℕ)

/-- The word of a symbol, if these are the lengths of the words. A symbol of length 0 has none. -/
def Codeword (symbol : ℕ) (w : List Bool) : Prop :=
  ∃ k, lengths[symbol]? = some (k + 1) ∧
    w = word k (first lengths.count k + (lengths.take symbol).count (k + 1))

/-- Where the word of a symbol is among all words, if it is of length `k + 1`. -/
def position (k symbol : ℕ) : ℕ :=
  index lengths.count k + (lengths.take symbol).count (k + 1)

/-- A table has the symbols of up to `n` bits in the order of their words. -/
def Sorted (n : ℕ) (table : ℕ → ℕ) : Prop :=
  ∀ k < n, ∀ symbol, lengths[symbol]? = some (k + 1) → table (position lengths k symbol) = symbol

variable {lengths}

theorem count_take_lt {a s : ℕ} (h : lengths[s]? = some a) :
    (lengths.take s).count a < lengths.count a := by
  obtain ⟨hs, hget⟩ := List.getElem?_eq_some_iff.mp h
  have hsplit : (lengths.take (s + 1)).count a = (lengths.take s).count a + 1 := by
    rw [List.take_succ_eq_append_getElem hs, hget, List.count_append, List.count_singleton_self]
  have hle : (lengths.take (s + 1)).count a ≤ lengths.count a :=
    (List.take_sublist _ _).count_le _
  omega

theorem exists_of_lt_count {a r : ℕ} (h : r < lengths.count a) :
    ∃ s, lengths[s]? = some a ∧ (lengths.take s).count a = r := by
  induction lengths generalizing r with
  | nil => exact absurd h (Nat.not_lt_zero r)
  | cons b l ih =>
    by_cases hb : b = a
    · subst hb
      cases r with
      | zero => exact ⟨0, rfl, rfl⟩
      | succ r =>
        rw [List.count_cons_self] at h
        obtain ⟨s, hs, hr⟩ := ih (Nat.lt_of_succ_lt_succ h)
        refine ⟨s + 1, hs, ?_⟩
        rw [List.take_succ_cons, List.count_cons_self, hr]
    · rw [List.count_cons_of_ne hb] at h
      obtain ⟨s, hs, hr⟩ := ih h
      refine ⟨s + 1, hs, ?_⟩
      rw [List.take_succ_cons, List.count_cons_of_ne hb, hr]

theorem Codeword.length_pos {symbol : ℕ} {w : List Bool} (h : Codeword lengths symbol w) :
    0 < w.length := by
  obtain ⟨k, -, rfl⟩ := h
  rw [length_word]
  exact Nat.succ_pos k

theorem index_le {j k : ℕ} (h : j ≤ k) : index lengths.count j ≤ index lengths.count k := by
  induction h with
  | refl => exact Nat.le_refl _
  | step _ ih => exact ih.trans (Nat.le_add_right _ _)

theorem position_lt {k symbol : ℕ} (h : lengths[symbol]? = some (k + 1)) :
    position lengths k symbol < index lengths.count (k + 1) :=
  Nat.add_lt_add_left (count_take_lt h) _

theorem count_take_lt_count_take {a s s' : ℕ} (hs : lengths[s]? = some a) (hlt : s < s') :
    (lengths.take s).count a < (lengths.take s').count a := by
  have hget : (lengths.take s')[s]? = some a := by
    rw [List.getElem?_take_of_lt hlt, hs]
  have htake := count_take_lt hget
  rwa [List.take_take, Nat.min_eq_left hlt.le] at htake

theorem position_ne {k k' s s' : ℕ} (h : lengths[s]? = some (k + 1))
    (h' : lengths[s']? = some (k' + 1)) (hlt : s < s') :
    position lengths k s ≠ position lengths k' s' := by
  obtain hk | rfl | hk := Nat.lt_trichotomy k k'
  · have hindex := @index_le lengths (k + 1) k' hk
    have hpos := position_lt h
    rw [position] at *
    rw [position]
    omega
  · have hcount := count_take_lt_count_take h hlt
    rw [position, position]
    omega
  · have hindex := @index_le lengths (k' + 1) k hk
    have hpos := position_lt h'
    rw [position] at *
    rw [position]
    omega

theorem index_cons (a k : ℕ) (l : List ℕ) :
    index (a :: l).count k = index l.count k + if 0 < a ∧ a ≤ k then 1 else 0 := by
  induction k with
  | zero =>
    rw [if_neg (by omega)]
    rfl
  | succ k ih =>
    rw [index, index, ih, List.count_cons]
    simp only [beq_iff_eq]
    split_ifs <;> omega

theorem index_add_count_zero_le (k : ℕ) :
    index lengths.count k + lengths.count 0 ≤ lengths.length := by
  induction lengths with
  | nil =>
    have hzero : index (List.count · ([] : List ℕ)) k = 0 := by
      induction k with
      | zero => rfl
      | succ k ih => rw [index, ih, List.count_nil]
    rw [hzero]
    rfl
  | cons a l ih =>
    rw [index_cons, List.count_cons, List.length_cons]
    simp only [beq_iff_eq]
    split_ifs <;> omega

variable {n : ℕ} {table : ℕ → ℕ} {l : List Bool}

theorem walk_codeword (hlengths : ∀ a ∈ lengths, a ≤ n) (hleft : 0 ≤ left lengths.count n)
    (htable : Sorted lengths n table) {symbol : ℕ} {w : List Bool} (h : Codeword lengths symbol w) :
    ∃ pos, walk lengths.count n 0 0 0 0 (w ++ l) = some (some pos, l) ∧ table pos = symbol := by
  obtain ⟨k, hk, rfl⟩ := h
  have hlt : k < n := hlengths _ (List.mem_of_getElem? hk)
  have hrank := count_take_lt hk
  have hbound : first lengths.count k + (lengths.take symbol).count (k + 1) < 2 ^ (k + 1) :=
    (Nat.add_lt_add_left hrank _).trans_le (word_lt hleft hlt)
  have hword := @walk_word lengths.count 0 k n
    (first lengths.count k + (lengths.take symbol).count (k + 1)) hlt
    (by rw [Nat.zero_add]; exact Nat.le_add_right _ _)
    (by rw [Nat.zero_add]; exact Nat.add_lt_add_left hrank _) l
  rw [Nat.div_eq_of_lt hbound, Nat.zero_add, Nat.add_sub_cancel_left] at hword
  exact ⟨_, hword, htable k hlt symbol hk⟩

theorem codeword_of_walk {pos : ℕ} {l' : List Bool} (htable : Sorted lengths n table)
    (h : walk lengths.count n 0 0 0 0 l = some (some pos, l')) :
    pos < lengths.length ∧ ∃ w, Codeword lengths (table pos) w ∧ l = w ++ l' := by
  obtain ⟨m, hm, c, -, hfirst, hlast, hword, hpos⟩ := walk_sound (j := 0) (p := 0) (Nat.zero_le _) h
  rw [Nat.zero_add] at hfirst hlast hpos
  obtain ⟨r, rfl⟩ := Nat.exists_eq_add_of_le hfirst
  obtain ⟨symbol, hsymbol, hrank⟩ := exists_of_lt_count (Nat.lt_of_add_lt_add_left hlast)
  have hpos' : pos = position lengths m symbol := by
    rw [hpos, Nat.add_sub_cancel_left, position, hrank]
  have hlt : pos < index lengths.count (m + 1) := by
    rw [hpos']
    exact position_lt hsymbol
  have hle := @index_add_count_zero_le lengths (m + 1)
  refine ⟨by omega, word m (first lengths.count m + (lengths.take symbol).count (m + 1)), ?_, ?_⟩
  · rw [hpos', htable m hm symbol hsymbol]
    exact ⟨m, hsymbol, rfl⟩
  · rw [hrank]
    exact hword

end Symbols

end NaviMisc.Lib.PrefixCode
