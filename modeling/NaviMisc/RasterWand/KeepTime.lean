import Mathlib.Data.BitVec
import Mathlib.Tactic.Ring
import NaviMisc.Lib.Pic

/-!
The clock of the raster wand (firmware/display.asm, macros.inc).
-/

namespace NaviMisc.RasterWand

open Lib.Pic

inductive Var
  | TMR1L
  | TMR1H
  | temp
  | temp2
  | LED_PORT
  | edge_buffer
  | display_fwd_phase
  | display_rev_phase
  | display_column_width
  | display_gap_width
  | wand_period
  | wand_phase
  | edge_counter
  | flip_counter
  | num_active_columns
  | write_pointer
  | coil_window_min
  | coil_window_max
  | current_column
  | remaining_col_width
  | mode_flags
  | display_flags
  | delta_t
  | tmr1_prev
  deriving DecidableEq

abbrev Address := Var × ℕ

instance : Coe Var Address := ⟨fun v => (v, 0)⟩

open Var

abbrev Firmware := Cpu Address

def FLAG_PRESCALE3 : ℕ := 7
def RWAND_MODE_ENABLE_COIL_BIT : ℕ := 1
def RWAND_MODE_ENABLE_DISPLAY_BIT : ℕ := 2
def RWAND_MODE_STALL_DETECT_BIT : ℕ := 4

def NUM_COLUMNS : Byte := 0x50

def display_init (s : Firmware) : Firmware := s
  |>.clrf edge_buffer
  |>.clrf (edge_buffer, 1)
  |>.clrf (edge_buffer, 2)
  |>.clrf (edge_buffer, 3)
  |>.clrf (edge_buffer, 4)
  |>.clrf (edge_buffer, 5)
  |>.clrf (edge_buffer, 6)
  |>.clrf (edge_buffer, 7)
  |>.clrf wand_period
  |>.clrf (wand_period, 1)
  |>.clrf wand_phase
  |>.clrf (wand_phase, 1)
  |>.clrf remaining_col_width
  |>.clrf (remaining_col_width, 1)
  |>.clrf tmr1_prev
  |>.clrf (tmr1_prev, 1)
  |>.clrf mode_flags
  |>.clrf display_flags
  |>.clrf edge_counter
  |>.clrf flip_counter
  |>.clrf current_column
  |>.clrf write_pointer
  |>.movlw NUM_COLUMNS
  |>.movwf num_active_columns

namespace KeepTime

variable (s : Firmware)

def try_tmr1_again : Firmware := s
  |>.movf TMR1H
  |>.movwf temp2
  |>.movf TMR1L
  |>.movwf temp
  |>.movf TMR1H
  |>.subwf temp2

def measure : Firmware := s
  |>.movf temp
  |>.movwf delta_t
  |>.movf temp2
  |>.movwf (delta_t, 1)
  |>.movf tmr1_prev
  |>.subwf_f delta_t
  |>.btfss_c (·.decf_f (delta_t, 1))
  |>.movf (tmr1_prev, 1)
  |>.subwf_f (delta_t, 1)
  |>.movf temp
  |>.movwf tmr1_prev
  |>.movf temp2
  |>.movwf (tmr1_prev, 1)

def prescale : Firmware :=
  let s := s
    |>.rrf_f (delta_t, 1)
    |>.bcf (delta_t, 1) 7
    |>.rrf_f delta_t
  if !s.c then s
  else if s.bit display_flags FLAG_PRESCALE3 then
    s |>.bcf display_flags FLAG_PRESCALE3 |>.incf_f delta_t
  else s |>.bsf display_flags FLAG_PRESCALE3

def predict : Firmware := s
  |>.movf (delta_t, 1)
  |>.addwf_f (wand_phase, 1)
  |>.movf delta_t
  |>.addwf_f wand_phase
  |>.btfsc_c (·.incf_f (wand_phase, 1))

end KeepTime

def jl_16 (reg1 reg2 : Var × ℕ) (jump no_jump : Firmware → Firmware) (s : Firmware) : Firmware :=
  let s := s |>.movf (reg2.1, reg2.2 + 1) |>.subwf (reg1.1, reg1.2 + 1)
  if !s.c then jump s
  else if !s.z then no_jump s
  else
    let s := s |>.movf reg2 |>.subwf reg1
    if !s.c then jump s else no_jump s

namespace KeepTime

variable (s : Firmware)

def detectStall : Firmware :=
  if !s.bit mode_flags RWAND_MODE_STALL_DETECT_BIT then s
  else jl_16 (edge_buffer, 6) wand_period id (fun s => s
    |>.bcf mode_flags RWAND_MODE_ENABLE_DISPLAY_BIT
    |>.bcf mode_flags RWAND_MODE_ENABLE_COIL_BIT) s

def rollover : Firmware := jl_16 wand_phase wand_period id (fun s => s
  |>.movf wand_period
  |>.subwf_f wand_phase
  |>.btfss_c (·.decf_f (wand_phase, 1))
  |>.movf (wand_period, 1)
  |>.subwf_f (wand_phase, 1)
  |>.bcf display_flags 4
  |>.bcf display_flags 5
  |>.bcf display_flags 2
  |>.bcf display_flags 3) s

end KeepTime

open KeepTime in
def display_keep_time (s : Firmware) : Firmware :=
  rollover (detectStall (predict (prescale (measure (try_tmr1_again s)))))

namespace KeepTime

variable (s : Firmware)

def tmr1 : ℕ := word (s.file TMR1H) (s.file TMR1L)

def pair (v : Var) : ℕ := word (s.file (v, 1)) (s.file v)

def prescaled : Bool := s.bit display_flags FLAG_PRESCALE3

def advance : ℕ := (tmr1 s + 65536 - pair s tmr1_prev) % 65536

theorem measure_delta : pair (measure (try_tmr1_again s)) delta_t = advance s := by
  rw [advance, tmr1, pair, pair, ← word_sub]
  simp [measure, try_tmr1_again]

theorem measure_prev : pair (measure (try_tmr1_again s)) tmr1_prev = tmr1 s := by
  simp [pair, tmr1, measure, try_tmr1_again]

theorem measure_file {v : Var} (h : v ≠ temp) (h' : v ≠ temp2) (hd : v ≠ delta_t)
    (hp : v ≠ tmr1_prev) (n : ℕ) : (measure (try_tmr1_again s)).file (v, n) = s.file (v, n) := by
  simp [measure, try_tmr1_again, h, h', hd, hp]

theorem predict_phase :
    pair (predict s) wand_phase = (pair s wand_phase + pair s delta_t) % 65536 := by
  rw [pair, pair, pair, ← word_add]
  simp [predict]

theorem predict_file {v : Var} (h : v ≠ wand_phase) (n : ℕ) :
    (predict s).file (v, n) = s.file (v, n) := by
  simp [predict, h]

def halve : Firmware := s
  |>.rrf_f (delta_t, 1)
  |>.bcf (delta_t, 1) 7
  |>.rrf_f delta_t

theorem prescale_eq : prescale s =
    if !(halve s).c then halve s
    else if prescaled s then halve s |>.bcf display_flags FLAG_PRESCALE3 |>.incf_f delta_t
    else halve s |>.bsf display_flags FLAG_PRESCALE3 := rfl

theorem halve_delta : pair (halve s) delta_t = pair s delta_t / 2 := by
  rw [pair, pair, ← word_half]
  simp [halve, rotate_high]

theorem halve_c : (halve s).c = decide (pair s delta_t % 2 = 1) := by
  have hbit := toNat_getElem (s.file delta_t)
  have hpair : pair s delta_t % 2 = (s.file delta_t).toNat % 2 := by
    rw [pair, word]
    omega
  rw [hpair, ← hbit]
  have hc : (halve s).c = (s.file delta_t)[0] := by
    simp [halve]
  rw [hc]
  cases (s.file delta_t)[0] <;> rfl

theorem halve_file {v : Var} (h : v ≠ delta_t) (n : ℕ) : (halve s).file (v, n) = s.file (v, n) := by
  simp [halve, h]

theorem prescale_delta : pair (prescale s) delta_t =
    if prescaled s ∧ pair s delta_t % 2 = 1 ∧ pair s delta_t / 2 % 256 = 255 then
      pair s delta_t / 2 - 255
    else pair s delta_t / 2 + if prescaled s ∧ pair s delta_t % 2 = 1 then 1 else 0 := by
  rw [prescale_eq, halve_c, ← halve_delta]
  by_cases hodd : pair s delta_t % 2 = 1
  · by_cases hflag : prescaled s
    · have hinc : pair ((halve s).bcf display_flags FLAG_PRESCALE3 |>.incf_f delta_t) delta_t =
          word ((halve s).file (delta_t, 1)) ((halve s).file delta_t + 1) := by
        simp [pair]
      have := ((halve s).file delta_t).isLt
      simp only [hodd, hflag, decide_true, Bool.not_true, Bool.false_eq_true, if_false, if_true,
        true_and, and_self]
      rw [hinc]
      unfold pair word
      rw [BitVec.toNat_add, toNat_one]
      split_ifs <;> omega
    · simp only [hodd, hflag, decide_true, Bool.not_true, Bool.false_eq_true, if_false, false_and,
        Nat.add_zero]
      simp [pair]
  · simp [hodd]

theorem prescale_flag :
    prescaled (prescale s) = (prescaled s != decide (pair s delta_t % 2 = 1)) := by
  have hflags : (halve s).file display_flags = s.file display_flags :=
    halve_file s (by decide) 0
  have hset : ∀ f : Byte, (f ||| BitVec.twoPow 8 7).getLsbD 7 = true := by decide
  have hclear : ∀ f : Byte, (f &&& ~~~BitVec.twoPow 8 7).getLsbD 7 = false := by decide
  rw [prescale_eq, halve_c]
  by_cases hodd : pair s delta_t % 2 = 1
  · by_cases hflag : prescaled s
    · simp only [hodd, hflag, decide_true, Bool.not_true, Bool.false_eq_true, if_false, if_true]
      exact hclear _
    · simp only [hodd, hflag, decide_true, Bool.not_true, Bool.false_eq_true, if_false]
      exact hset _
  · simp [hodd, prescaled, Cpu.bit, hflags]

theorem prescale_file {v : Var} (h : v ≠ delta_t) (h' : v ≠ display_flags) (n : ℕ) :
    (prescale s).file (v, n) = s.file (v, n) := by
  simp only [prescale]
  split_ifs <;> simp [h, h']

theorem jl_16_eq (reg1 reg2 : Var × ℕ) (jump no_jump : Firmware → Firmware) :
    ∃ t : Firmware, t.file = s.file ∧ jl_16 reg1 reg2 jump no_jump s =
      if word (s.file (reg1.1, reg1.2 + 1)) (s.file reg1) <
          word (s.file (reg2.1, reg2.2 + 1)) (s.file reg2) then jump t
      else no_jump t := by
  have hlt := word_lt_word (s.file (reg1.1, reg1.2 + 1)) (s.file reg1)
    (s.file (reg2.1, reg2.2 + 1)) (s.file reg2)
  let t := s |>.movf (reg2.1, reg2.2 + 1) |>.subwf (reg1.1, reg1.2 + 1)
  unfold jl_16
  by_cases hhi : (s.file (reg2.1, reg2.2 + 1)).toNat ≤ (s.file (reg1.1, reg1.2 + 1)).toNat
  · by_cases heq : s.file (reg1.1, reg1.2 + 1) - s.file (reg2.1, reg2.2 + 1) = 0#8
    · refine ⟨t |>.movf reg2 |>.subwf reg1, rfl, ?_⟩
      by_cases hlo : (s.file reg2).toNat ≤ (s.file reg1).toNat
      · rw [if_neg (hlt.not.mpr (by simp [hhi, hlo]))]
        simp [t, hhi, heq, hlo]
      · rw [if_pos (hlt.mpr (.inr ⟨heq, hlo⟩))]
        simp [t, hhi, heq, hlo]
    · refine ⟨t, rfl, ?_⟩
      rw [if_neg (hlt.not.mpr (by simp [hhi, heq]))]
      simp [t, hhi, heq]
  · refine ⟨t, rfl, ?_⟩
    rw [if_pos (hlt.mpr (.inl hhi))]
    simp [t, hhi]

theorem detectStall_file {v : Var} (h : v ≠ mode_flags) (n : ℕ) :
    (detectStall s).file (v, n) = s.file (v, n) := by
  unfold detectStall
  split_ifs
  · rfl
  · obtain ⟨t, ht, heq⟩ := jl_16_eq s (edge_buffer, 6) wand_period id (fun s => s
      |>.bcf mode_flags RWAND_MODE_ENABLE_DISPLAY_BIT
      |>.bcf mode_flags RWAND_MODE_ENABLE_COIL_BIT)
    rw [heq]
    split_ifs
    · exact congrFun ht _
    · simp [h, ht]

theorem rollover_cases : ∃ t : Firmware, t.file = s.file ∧ rollover s =
    if pair s wand_phase < pair s wand_period then t
    else t
      |>.movf wand_period
      |>.subwf_f wand_phase
      |>.btfss_c (·.decf_f (wand_phase, 1))
      |>.movf (wand_period, 1)
      |>.subwf_f (wand_phase, 1)
      |>.bcf display_flags 4
      |>.bcf display_flags 5
      |>.bcf display_flags 2
      |>.bcf display_flags 3 :=
  jl_16_eq s wand_phase wand_period id _

theorem rollover_phase : pair (rollover s) wand_phase =
    if pair s wand_phase < pair s wand_period then pair s wand_phase
    else pair s wand_phase - pair s wand_period := by
  obtain ⟨t, ht, heq⟩ := rollover_cases s
  rw [heq]
  split_ifs with hlt
  · rw [pair, pair, ht]
  · have hword : word ((t.file (wand_phase, 1))) (t.file wand_phase) = pair s wand_phase := by
      rw [pair, ht]
    have hsub : (pair s wand_phase + 65536 - pair s wand_period) % 65536 =
        pair s wand_phase - pair s wand_period := by
      have := word_lt (s.file (wand_phase, 1)) (s.file wand_phase)
      unfold pair at *
      omega
    rw [← hsub, pair, pair, pair, ← word_sub, ← ht]
    simp

theorem rollover_file {v : Var} (h : v ≠ wand_phase) (h' : v ≠ display_flags) (n : ℕ) :
    (rollover s).file (v, n) = s.file (v, n) := by
  obtain ⟨t, ht, heq⟩ := rollover_cases s
  rw [heq]
  split_ifs
  · rw [ht]
  · simp [h, h', ht]

theorem rollover_flag : prescaled (rollover s) = prescaled s := by
  have hclear : ∀ f : Byte, ((((f &&& ~~~BitVec.twoPow 8 4) &&& ~~~BitVec.twoPow 8 5) &&&
      ~~~BitVec.twoPow 8 2) &&& ~~~BitVec.twoPow 8 3).getLsbD 7 = f.getLsbD 7 := by
    decide
  obtain ⟨t, ht, heq⟩ := rollover_cases s
  rw [heq]
  split_ifs
  · rw [prescaled, prescaled, Cpu.bit, Cpu.bit, ht]
  · rw [prescaled, prescaled, Cpu.bit, Cpu.bit, FLAG_PRESCALE3, ← hclear (s.file display_flags),
      ← ht]
    simp

end KeepTime

section Call

open KeepTime

variable (s : Firmware)

def Loses : Prop := prescaled s ∧ advance s % 512 = 511

instance : Decidable (Loses s) := inferInstanceAs (Decidable (_ ∧ _))

theorem measured_flag : prescaled (measure (try_tmr1_again s)) = prescaled s := by
  rw [prescaled, prescaled, Cpu.bit, Cpu.bit,
    measure_file s (by decide) (by decide) (by decide) (by decide)]

theorem pair_congr {s t : Firmware} {v : Var} (h : ∀ n, s.file (v, n) = t.file (v, n)) :
    pair s v = pair t v := by
  rw [pair, pair, h, h]

theorem keep_time_delta : pair (display_keep_time s) delta_t =
    if Loses s then advance s / 2 - 255
    else advance s / 2 + if prescaled s ∧ advance s % 2 = 1 then 1 else 0 := by
  have hlater : pair (display_keep_time s) delta_t =
      pair (prescale (measure (try_tmr1_again s))) delta_t := by
    apply pair_congr
    intro n
    rw [display_keep_time, rollover_file _ (by decide) (by decide),
      detectStall_file _ (by decide), predict_file _ (by decide)]
  have hodd : advance s % 512 = 511 ↔ advance s % 2 = 1 ∧ advance s / 2 % 256 = 255 := by
    omega
  have hloses : Loses s ↔
      prescaled s ∧ advance s % 2 = 1 ∧ advance s / 2 % 256 = 255 := and_congr_right fun _ => hodd
  rw [hlater, prescale_delta, measure_delta, measured_flag]
  exact (if_congr hloses rfl rfl).symm

theorem keep_time_prev : pair (display_keep_time s) tmr1_prev = tmr1 s := by
  rw [← measure_prev]
  apply pair_congr
  intro n
  rw [display_keep_time, rollover_file _ (by decide) (by decide), detectStall_file _ (by decide),
    predict_file _ (by decide), prescale_file _ (by decide) (by decide)]

theorem keep_time_tmr1 : tmr1 (display_keep_time s) = tmr1 s := by
  have hfile : ∀ v, v = TMR1L ∨ v = TMR1H → (display_keep_time s).file (v, 0) = s.file (v, 0) := by
    rintro v (rfl | rfl) <;>
      rw [display_keep_time, rollover_file _ (by decide) (by decide),
        detectStall_file _ (by decide), predict_file _ (by decide),
        prescale_file _ (by decide) (by decide),
        measure_file _ (by decide) (by decide) (by decide) (by decide)]
  rw [tmr1, tmr1, hfile _ (.inl rfl), hfile _ (.inr rfl)]

theorem keep_time_flag :
    prescaled (display_keep_time s) = (prescaled s != decide (advance s % 2 = 1)) := by
  rw [display_keep_time, rollover_flag, prescaled, Cpu.bit, detectStall_file _ (by decide),
    predict_file _ (by decide)]
  change prescaled (prescale _) = _
  rw [prescale_flag, measure_delta, measured_flag]

theorem keep_time_phase : pair (display_keep_time s) wand_phase =
    let phase := (pair s wand_phase + pair (display_keep_time s) delta_t) % 65536
    if phase < pair s wand_period then phase else phase - pair s wand_period := by
  let t := prescale (measure (try_tmr1_again s))
  have hfile : ∀ v, v = wand_phase ∨ v = wand_period → pair t v = pair s v := by
    intro v hv
    apply pair_congr
    intro n
    rcases hv with rfl | rfl <;>
      rw [prescale_file _ (by decide) (by decide),
        measure_file _ (by decide) (by decide) (by decide) (by decide)]
  have hdelta : pair (display_keep_time s) delta_t = pair t delta_t := by
    apply pair_congr
    intro n
    rw [display_keep_time, rollover_file _ (by decide) (by decide),
      detectStall_file _ (by decide), predict_file _ (by decide)]
  have hphase : pair (detectStall (predict t)) wand_phase =
      (pair t wand_phase + pair t delta_t) % 65536 := by
    rw [← predict_phase]
    exact pair_congr fun n => detectStall_file _ (by decide) n
  have hperiod : pair (detectStall (predict t)) wand_period = pair t wand_period := by
    apply pair_congr
    intro n
    rw [detectStall_file _ (by decide), predict_file _ (by decide)]
  rw [hdelta, display_keep_time, rollover_phase, hphase, hperiod, hfile _ (.inl rfl),
    hfile _ (.inr rfl)]

end Call

section Run

open KeepTime

theorem init_prev (s : Firmware) : pair (display_init s) tmr1_prev = 0 := by
  simp [display_init, pair, word]

theorem init_flag (s : Firmware) : prescaled (display_init s) = false := by
  simp [display_init, prescaled, Cpu.bit]

/-- The calls of display_keep_time, each with what TMR1 has advanced before it and the state it is
called in. What else runs in between leaves the clock's own variables alone. -/
inductive Calls : List (ℕ × Firmware) → Firmware → Prop
  | init (s : Firmware) : tmr1 (display_init s) = 0 → Calls [] (display_init s)
  | call {calls t} (n : ℕ) (s : Firmware) : Calls calls t → n < 65536 →
    tmr1 s = (tmr1 t + n) % 65536 → pair s tmr1_prev = pair t tmr1_prev →
    prescaled s = prescaled t → Calls (calls ++ [(n, s)]) (display_keep_time s)

def totalAdvance (calls : List (ℕ × Firmware)) : ℕ := (calls.map Prod.fst).sum

def totalDelta (calls : List (ℕ × Firmware)) : ℕ :=
  (calls.map fun c => pair (display_keep_time c.2) delta_t).sum

def lost (calls : List (ℕ × Firmware)) : ℕ := calls.countP fun c => Loses c.2

structure Kept (calls : List (ℕ × Firmware)) (t : Firmware) : Prop where
  prev : pair t tmr1_prev = tmr1 t
  flag : prescaled t = decide (totalAdvance calls % 2 = 1)
  sum : totalDelta calls + 256 * lost calls = totalAdvance calls / 2

theorem Calls.kept {calls : List (ℕ × Firmware)} {t : Firmware} (h : Calls calls t) :
    Kept calls t := by
  induction h with
  | init s htmr1 =>
    refine ⟨?_, init_flag s, rfl⟩
    rw [init_prev, htmr1]
  | @call calls t n s _ hn htmr1 hprev hflag ih =>
    have hadvance : advance s = n := by
      have := word_lt (t.file TMR1H) (t.file TMR1L)
      have htlt : tmr1 t < 65536 := this
      rw [advance, htmr1, hprev, ih.prev]
      omega
    have htotal : totalAdvance (calls ++ [(n, s)]) = totalAdvance calls + n := by
      simp [totalAdvance]
    have hdelta : totalDelta (calls ++ [(n, s)]) =
        totalDelta calls + pair (display_keep_time s) delta_t := by
      simp [totalDelta]
    have hlost : lost (calls ++ [(n, s)]) = lost calls + if Loses s then 1 else 0 := by
      simp [lost, List.countP_cons]
    refine ⟨?_, ?_, ?_⟩
    · rw [keep_time_prev, keep_time_tmr1]
    · rw [keep_time_flag, hflag, ih.flag, hadvance, htotal]
      by_cases h1 : totalAdvance calls % 2 = 1 <;> by_cases h2 : n % 2 = 1 <;>
        simp [h1, h2] <;> omega
    · have hsum := ih.sum
      rw [htotal, hdelta, hlost, keep_time_delta, hadvance, hflag, ih.flag]
      have hloses : Loses s ↔ totalAdvance calls % 2 = 1 ∧ n % 512 = 511 := by
        rw [Loses, hadvance, hflag, ih.flag, decide_eq_true_eq]
      simp only [hloses, decide_eq_true_eq]
      split_ifs <;> omega

theorem clock_exact_iff {calls : List (ℕ × Firmware)} {t : Firmware} (h : Calls calls t) :
    (totalDelta calls = totalAdvance calls / 2 ↔ ∀ c ∈ calls, ¬Loses c.2) ∧
      ∀ c ∈ calls, pair c.2 wand_phase < pair c.2 wand_period →
        pair (display_keep_time c.2) delta_t ≤ pair c.2 wand_period →
        pair c.2 wand_phase + pair (display_keep_time c.2) delta_t < 65536 →
        pair (display_keep_time c.2) wand_phase =
          (pair c.2 wand_phase + pair (display_keep_time c.2) delta_t) % pair c.2 wand_period := by
  constructor
  · have hsum := h.kept.sum
    have hnone : lost calls = 0 ↔ ∀ c ∈ calls, ¬Loses c.2 := by
      simp [lost, List.countP_eq_zero]
    rw [← hnone]
    omega
  · intro c _ hphase hdelta hfits
    rw [keep_time_phase]
    simp only
    rw [Nat.mod_eq_of_lt hfits]
    split_ifs with hlt
    · exact (Nat.mod_eq_of_lt hlt).symm
    · rw [Nat.mod_eq_sub_mod (Nat.le_of_not_lt hlt), Nat.mod_eq_of_lt]
      omega

section Examples

def boot : Firmware := ⟨0, false, false, false, 0, fun _ => 0, fun _ => 0, []⟩

def atTime (s : Firmware) (high low : Byte) : Firmware :=
  { s with file := Function.update (Function.update s.file TMR1H high) TMR1L low }

def firstCall : Firmware := atTime (display_init boot) 0 1

def secondCall : Firmware := atTime (display_keep_time firstCall) 2 0

theorem two_calls :
    Calls [(1, firstCall), (511, secondCall)] (display_keep_time secondCall) :=
  .call 511 secondCall (.call 1 firstCall (.init boot (by decide)) (by decide) (by decide)
    (by decide) (by decide)) (by decide) (by decide) (by decide) (by decide)

theorem clock_loses : ∃ calls t, Calls calls t ∧ totalDelta calls = 0 ∧
    totalAdvance calls / 2 = 256 :=
  ⟨_, _, two_calls, by decide, by decide⟩

theorem clock_exact_one_call :
    Calls [(1, firstCall)] (display_keep_time firstCall) ∧
      (totalDelta [(1, firstCall)] = 0 ↔ ∀ c ∈ [(1, firstCall)], ¬Loses c.2) := by
  have h : Calls [(1, firstCall)] (display_keep_time firstCall) :=
    .call 1 firstCall (.init boot (by decide)) (by decide) (by decide) (by decide) (by decide)
  exact ⟨h, (clock_exact_iff h).1⟩

end Examples

end Run

end NaviMisc.RasterWand
