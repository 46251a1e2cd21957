import Mathlib.Algebra.BigOperators.Group.List.Basic
import NaviMisc.Lib.Runs
import NaviMisc.RasterWand.Drivers

/-!
What the filter of the drivers returns over a run of calls.
-/

namespace NaviMisc.RasterWand.PeriodFilter

open Lib.Runs

inductive Call
  | reset
  | push (new_value : BitVec 16)

structure State where
  filter : Filter
  pushed : List (BitVec 16)

namespace State

def step (s : State) : Call → State
  | .reset => ⟨filter_reset s.filter, []⟩
  | .push new_value =>
    ⟨(filter_push s.filter (new_value.setWidth 32)).1, new_value :: s.pushed⟩

def start (filter : Filter) : State := ⟨filter_reset filter, []⟩

end State

def sum (values : List (BitVec 16)) : ℕ := (values.map BitVec.toNat).sum

def window (pushed : List (BitVec 16)) : List (BitVec 16) := pushed.take 256

def Averages (s : State) : Call → Prop
  | .reset => (filter_reset s.filter).total.toInt = 0
  | .push new_value =>
    let values := window (new_value :: s.pushed)
    let pushed := filter_push s.filter (new_value.setWidth 32)
    pushed.2.toInt = (sum values / values.length : ℕ) ∧ pushed.1.total.toInt = (sum values : ℕ)

/-- The buffer does not get more than full, or the first value is 0 and the sum is as good for the
mean of one value more. -/
def Harmless (s : State) : Call → Prop
  | .reset => True
  | .push new_value =>
    s.pushed.length < 256 ∨
      (s.pushed.getLast? = some 0 ∧
        sum (window (new_value :: s.pushed)) / 256 ≤ sum (window (new_value :: s.pushed)) % 256)

def excess (pushed : List (BitVec 16)) : ℕ :=
  if 256 < pushed.length then (pushed.getLast?.getD 0).toNat else 0

structure Tracks (s : State) : Prop where
  total : s.filter.total = BitVec.ofNat 32 (sum (window s.pushed) + excess s.pushed)
  n_values : s.filter.n_values = BitVec.ofNat 32 (min s.pushed.length 257)
  pointer : s.filter.pointer = Fin.ofNat 256 s.pushed.length
  buffer : ∀ j v, (window s.pushed)[j]? = some v →
    s.filter.buffer (Fin.ofNat 256 (s.pushed.length - 1 - j)) = v.setWidth 32

section sum

variable {values : List (BitVec 16)} {v : BitVec 16}

@[simp] theorem sum_cons : sum (v :: values) = v.toNat + sum values := by
  simp [sum]

theorem sum_lt (values : List (BitVec 16)) : sum values ≤ values.length * 65535 := by
  induction values with
  | nil => simp [sum]
  | cons v values ih =>
    have hv : v.toNat < 65536 := v.isLt
    rw [sum_cons, List.length_cons]
    omega

theorem length_window (pushed : List (BitVec 16)) :
    (window pushed).length = min 256 pushed.length := by
  rw [window, List.length_take]

theorem excess_lt (pushed : List (BitVec 16)) : excess pushed < 65536 := by
  rw [excess]
  split_ifs
  · exact BitVec.isLt _
  · omega

end sum

theorem tracks_start (filter : Filter) : Tracks (.start filter) := by
  refine ⟨rfl, rfl, rfl, ?_⟩
  intro j v h
  simp [State.start, window] at h

theorem toInt_ofNat {n : ℕ} (hn : n < 2 ^ 31) : (BitVec.ofNat 32 n).toInt = n := by
  have htoNat : (BitVec.ofNat 32 n).toNat = n := by
    rw [BitVec.toNat_ofNat, Nat.mod_eq_of_lt]
    omega
  rw [BitVec.toInt_eq_toNat_of_lt, htoNat]
  rw [htoNat]
  omega

theorem toInt_sdiv_ofNat {n m : ℕ} (hn : n < 2 ^ 31) (hm : m < 2 ^ 31) :
    ((BitVec.ofNat 32 n).sdiv (BitVec.ofNat 32 m)).toInt = (n / m : ℕ) := by
  have hle : n / m ≤ n := Nat.div_le_self n m
  rw [BitVec.toInt_sdiv, toInt_ofNat hn, toInt_ofNat hm, ← Int.ofNat_tdiv, ← BitVec.toInt_ofNat]
  exact toInt_ofNat (hle.trans_lt hn)

section push

theorem sum_window_cons (new_value : BitVec 16) (pushed : List (BitVec 16)) :
    sum (window (new_value :: pushed)) + (pushed[255]?.getD 0).toNat =
      new_value.toNat + sum (window pushed) := by
  have htake : window pushed = pushed.take 255 ++ pushed[255]?.toList := List.take_add_one
  have hcons : window (new_value :: pushed) = new_value :: pushed.take 255 := rfl
  rw [htake, hcons, sum_cons]
  cases pushed[255]? with
  | none => simp [sum]
  | some w => simp [sum, Nat.add_assoc]

variable {s : State} (h : Tracks s)
include h

theorem full_iff : FILTER_SIZE.slt s.filter.n_values = true ↔ 256 < s.pushed.length := by
  have hsize : FILTER_SIZE.toInt = 256 := rfl
  rw [BitVec.slt_iff_toInt_lt, h.n_values, toInt_ofNat (by omega), hsize]
  omega

theorem buffer_pointer (hlength : 256 ≤ s.pushed.length) :
    s.filter.buffer s.filter.pointer = (s.pushed[255]?.getD 0).setWidth 32 := by
  have hlt : 255 < s.pushed.length := by omega
  have hold : (window s.pushed)[255]? = some s.pushed[255] := by
    rw [window, List.getElem?_take_of_lt (by omega), List.getElem?_eq_getElem hlt]
  have hslot : Fin.ofNat 256 (s.pushed.length - 1 - 255) = s.filter.pointer := by
    rw [h.pointer]
    apply Fin.ext
    change (s.pushed.length - 1 - 255) % 256 = s.pushed.length % 256
    omega
  rw [← hslot, h.buffer 255 _ hold, List.getElem?_eq_getElem hlt]
  rfl

variable (new_value : BitVec 16)

theorem total_push : (filter_push s.filter (new_value.setWidth 32)).1.total =
    BitVec.ofNat 32 (sum (window (new_value :: s.pushed)) + excess (new_value :: s.pushed)) := by
  have hsum := sum_window_cons new_value s.pushed
  have hnew : new_value.setWidth 32 = BitVec.ofNat 32 new_value.toNat := by
    rw [BitVec.ofNat_toNat]
  unfold filter_push
  by_cases hfull : 256 < s.pushed.length
  · rw [if_pos ((full_iff h).mpr hfull)]
    have hexcess : excess (new_value :: s.pushed) = excess s.pushed := by
      rw [excess, excess, if_pos hfull, if_pos (by simp; omega),
        List.getLast?_cons_of_ne_nil (List.ne_nil_of_length_pos (by omega))]
    have hold : (s.pushed[255]?.getD 0).setWidth 32 =
        BitVec.ofNat 32 (s.pushed[255]?.getD 0).toNat := by
      rw [BitVec.ofNat_toNat]
    change s.filter.total - s.filter.buffer s.filter.pointer + new_value.setWidth 32 = _
    have hgrown : sum (window s.pushed) + excess s.pushed + new_value.toNat =
        sum (window (new_value :: s.pushed)) + excess s.pushed + (s.pushed[255]?.getD 0).toNat := by
      omega
    rw [h.total, buffer_pointer h hfull.le, hold, hnew, hexcess]
    apply BitVec.eq_of_toNat_eq
    simp only [BitVec.toNat_add, BitVec.toNat_sub, BitVec.toNat_ofNat]
    omega
  · rw [if_neg (fun hslt => hfull ((full_iff h).mp hslt))]
    change s.filter.total + new_value.setWidth 32 = _
    have hexcess : excess s.pushed = 0 := if_neg hfull
    have hold : excess (new_value :: s.pushed) = (s.pushed[255]?.getD 0).toNat := by
      rw [excess, List.length_cons]
      split_ifs with hlength
      · have hlast : (new_value :: s.pushed).getLast? = s.pushed[255]? := by
          rw [List.getLast?_cons_of_ne_nil (List.ne_nil_of_length_pos (by omega)),
            List.getLast?_eq_getElem?]
          congr 1
          omega
        rw [hlast]
      · rw [List.getElem?_eq_none (by omega)]
        rfl
    rw [h.total, hnew, hexcess, hold, ← BitVec.ofNat_add]
    congr 1
    omega

theorem n_values_push : (filter_push s.filter (new_value.setWidth 32)).1.n_values =
    BitVec.ofNat 32 (min (s.pushed.length + 1) 257) := by
  unfold filter_push
  by_cases hfull : 256 < s.pushed.length
  · rw [if_pos ((full_iff h).mpr hfull)]
    change s.filter.n_values = _
    rw [h.n_values, Nat.min_eq_right (by omega), Nat.min_eq_right (by omega)]
  · rw [if_neg (fun hslt => hfull ((full_iff h).mp hslt))]
    change s.filter.n_values + 1 = _
    rw [h.n_values, Nat.min_eq_left (by omega), Nat.min_eq_left (by omega), BitVec.ofNat_add]
    rfl

omit h in
theorem buffer_push : (filter_push s.filter (new_value.setWidth 32)).1.buffer =
    Function.update s.filter.buffer s.filter.pointer (new_value.setWidth 32) := by
  unfold filter_push
  split_ifs <;> rfl

omit h in
theorem pointer_push : (filter_push s.filter (new_value.setWidth 32)).1.pointer =
    s.filter.pointer + 1 := by
  unfold filter_push
  split_ifs <;> rfl

theorem Tracks.push : Tracks (s.step (.push new_value)) := by
  refine ⟨total_push h new_value, n_values_push h new_value, ?_, ?_⟩
  · change (filter_push s.filter (new_value.setWidth 32)).1.pointer = _
    rw [pointer_push, h.pointer]
    apply Fin.ext
    change (s.pushed.length % 256 + 1) % 256 = (s.pushed.length + 1) % 256
    omega
  · intro j v hv
    have hj : j < 256 := by
      have hlt := (List.getElem?_eq_some_iff.mp hv).1
      rw [length_window] at hlt
      omega
    change (filter_push s.filter (new_value.setWidth 32)).1.buffer
      (Fin.ofNat 256 (s.pushed.length + 1 - 1 - j)) = _
    rw [buffer_push, h.pointer]
    change (new_value :: s.pushed.take 255)[j]? = some v at hv
    cases j with
    | zero =>
      cases hv
      exact Function.update_self ..
    | succ j =>
      rw [List.getElem?_cons_succ, List.getElem?_take_of_lt (by omega)] at hv
      have hlength := (List.getElem?_eq_some_iff.mp hv).1
      have hslot : Fin.ofNat 256 (s.pushed.length + 1 - 1 - (j + 1)) ≠
          Fin.ofNat 256 s.pushed.length := by
        intro heq
        have hmod : (s.pushed.length + 1 - 1 - (j + 1)) % 256 = s.pushed.length % 256 :=
          congrArg Fin.val heq
        omega
      rw [Function.update_of_ne hslot, Nat.add_sub_cancel, Nat.add_comm j 1, ← Nat.sub_sub]
      apply h.buffer j v
      rw [window, List.getElem?_take_of_lt (by omega)]
      exact hv

theorem Tracks.step (call : Call) : Tracks (s.step call) := by
  cases call with
  | reset => exact tracks_start s.filter
  | push new_value => exact h.push new_value

theorem mean_push : (filter_push s.filter (new_value.setWidth 32)).2.toInt =
    ((sum (window (new_value :: s.pushed)) + excess (new_value :: s.pushed)) /
      min (s.pushed.length + 1) 257 : ℕ) := by
  have hsum := sum_lt (window (new_value :: s.pushed))
  have hexcess := excess_lt (new_value :: s.pushed)
  rw [length_window] at hsum
  have hmean : (filter_push s.filter (new_value.setWidth 32)).2 =
      (filter_push s.filter (new_value.setWidth 32)).1.total.sdiv
        (filter_push s.filter (new_value.setWidth 32)).1.n_values := rfl
  rw [hmean, total_push h, n_values_push h, toInt_sdiv_ofNat (by omega) (by omega)]

theorem toInt_total_push : (filter_push s.filter (new_value.setWidth 32)).1.total.toInt =
    (sum (window (new_value :: s.pushed)) + excess (new_value :: s.pushed) : ℕ) := by
  have hsum := sum_lt (window (new_value :: s.pushed))
  have hexcess := excess_lt (new_value :: s.pushed)
  rw [length_window] at hsum
  rw [total_push h, toInt_ofNat (by omega)]

omit h in
theorem div_succ_eq_iff {n m : ℕ} (hm : 0 < m) : n / (m + 1) = n / m ↔ n / m ≤ n % m := by
  have hn := Nat.div_add_mod' n m
  have hlt := Nat.mod_lt n hm
  rw [Nat.div_eq_iff (Nat.succ_pos m), Nat.mul_succ]
  generalize n / m * m = p at hn ⊢
  generalize n / m = q at hn ⊢
  omega

theorem averages_push_iff : Averages s (.push new_value) ↔ Harmless s (.push new_value) := by
  simp only [Averages, Harmless]
  rw [mean_push h, toInt_total_push h, length_window, List.length_cons, Int.natCast_inj,
    Int.natCast_inj]
  by_cases hlength : s.pushed.length < 256
  · have hexcess : excess (new_value :: s.pushed) = 0 := by
      rw [excess, if_neg (by simp; omega)]
    rw [hexcess, Nat.min_eq_left (by omega), Nat.min_eq_right (by omega)]
    simp [hlength]
  · have hne : s.pushed ≠ [] := List.ne_nil_of_length_pos (by omega)
    have hexcess : excess (new_value :: s.pushed) = (s.pushed.getLast hne).toNat := by
      rw [excess, if_pos (by simp; omega), List.getLast?_cons_of_ne_nil hne,
        List.getLast?_eq_some_getLast hne]
      rfl
    have hfirst : (s.pushed.getLast hne).toNat = 0 ↔ s.pushed.getLast? = some 0 := by
      rw [List.getLast?_eq_some_getLast hne, Option.some_inj, ← BitVec.toNat_inj]
      rfl
    rw [Nat.min_eq_right (by omega), Nat.min_eq_left (by omega), ← hfirst,
      ← div_succ_eq_iff (by decide : 0 < 256), hexcess]
    constructor
    · rintro ⟨hmean, htotal⟩
      have hzero : (s.pushed.getLast hne).toNat = 0 := by omega
      rw [hzero] at hmean
      exact .inr ⟨hzero, hmean⟩
    · rintro (hlt | ⟨hzero, hmean⟩)
      · exact absurd hlt hlength
      · rw [hzero]
        exact ⟨hmean, rfl⟩

end push

theorem tracks_foldl {s : State} (h : Tracks s) (calls : List Call) :
    Tracks (calls.foldl State.step s) := by
  induction calls generalizing s with
  | nil => exact h
  | cons call calls ih => exact ih (h.step call)

theorem pushed_foldl (s : State) (values : List (BitVec 16)) :
    ((values.map Call.push).foldl State.step s).pushed = values.reverse ++ s.pushed := by
  induction values generalizing s with
  | nil => rfl
  | cons v values ih =>
    rw [List.map_cons, List.foldl_cons, ih, List.reverse_cons, List.append_assoc]
    rfl

/-- Every call of a run returns the mean, and the total is the sum, exactly where the first value
since the reset does no harm. -/
theorem moving_average_iff (filter : Filter) (calls : List Call) :
    Meets State.step Averages (.start filter) calls ↔
      Meets State.step Harmless (.start filter) calls := by
  refine meets_iff_meets (P := Tracks) (fun s call hs _ => hs.step call) (fun s call hs => ?_)
    (tracks_start filter)
  cases call with
  | reset => exact iff_of_true rfl trivial
  | push new_value => exact averages_push_iff hs new_value

/-- The total of 257 values of 1 is not 256. -/
theorem moving_average_not : ¬∀ (filter : Filter) (calls : List Call),
    Meets State.step Averages (.start filter) calls := by
  intro h
  let filter : Filter := ⟨fun _ => 0, 0, 0, 0⟩
  have hmeets := h filter ((List.replicate 256 1).map Call.push ++ [.push 1])
  obtain ⟨haverages, -⟩ := (meets_append.mp hmeets).2
  have htracks : Tracks (((List.replicate 256 1).map Call.push).foldl State.step (.start filter)) :=
    tracks_foldl (tracks_start filter) _
  have hharmless := (averages_push_iff htracks 1).mp haverages
  rw [Harmless, pushed_foldl] at hharmless
  revert hharmless
  decide +kernel

end NaviMisc.RasterWand.PeriodFilter
