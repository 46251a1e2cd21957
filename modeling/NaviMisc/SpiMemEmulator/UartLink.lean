import NaviMisc.SpiMemEmulator.Serial

/-!
The transmitter and the receiver of the serial port on one wire, with the baud rate generator that
drives both.
-/

namespace NaviMisc.SpiMemEmulator

namespace SerialBrg

def ticks (r : SerialBrg) : ℕ := if r.baudX1 then 4 else r.div4.toNat

def wait (r : SerialBrg) : ℕ := if r.baudX4 then 0 else 5 - r.delta.toNat / 6

structure Timed (r : SerialBrg) : Prop where
  delta : r.delta.toNat < 25
  baudX4 : r.baudX4 = true → r.delta.toNat < 6
  baudX1 : r.baudX1 = true → 6 ≤ r.delta.toNat ∧ r.delta.toNat < 12 ∧ r.div4 = 0

variable {r : SerialBrg}

theorem timed_reset : Timed reset := ⟨by decide, by decide, by decide⟩

theorem underflow_eq (h : r.delta.toNat < 25) : r.underflow = decide (r.delta.toNat < 19) := by
  rw [underflow, BitVec.msb_eq_decide, decide_eq_decide, deltaM, deltaP]
  bv_omega

theorem delta_clock (h : r.delta.toNat < 25) :
    r.clock.delta.toNat = if r.delta.toNat < 19 then r.delta.toNat + 6 else r.delta.toNat - 19 := by
  rw [clock]
  dsimp only
  rw [underflow_eq h]
  simp only [decide_eq_true_eq]
  split_ifs with hlt
  · rw [deltaP]
    bv_omega
  · rw [deltaM, deltaP]
    bv_omega

theorem Timed.not_both (h : r.Timed) (hx4 : r.baudX4 = true) : r.baudX1 = false := by
  rw [Bool.eq_false_iff]
  intro hx1
  have hlt := h.baudX4 hx4
  have hge := (h.baudX1 hx1).1
  omega

theorem Timed.clock (h : r.Timed) : r.clock.Timed := by
  have hdelta := delta_clock h.delta
  have hlt := h.delta
  have hunderflow := underflow_eq h.delta
  refine ⟨?_, ?_, ?_⟩
  · split_ifs at hdelta <;> omega
  · intro hx4
    have hge : ¬r.delta.toNat < 19 := by
      rw [SerialBrg.clock] at hx4
      simpa [hunderflow] using hx4
    rw [if_neg hge] at hdelta
    omega
  · intro hx1
    rw [SerialBrg.clock] at hx1 ⊢
    simp only [Bool.and_eq_true, beq_iff_eq] at hx1
    have htick := h.baudX4 hx1.1
    rw [if_pos (by omega)] at hdelta
    rw [SerialBrg.clock] at hdelta
    refine ⟨by omega, by omega, ?_⟩
    rw [if_pos hx1.1, hx1.2]
    rfl

theorem Timed.ticks_clock (h : r.Timed) :
    r.clock.ticks = if r.baudX4 then r.ticks + 1 else if r.baudX1 then 0 else r.ticks := by
  by_cases hx4 : r.baudX4 = true
  · have hx1 := h.not_both hx4
    rw [if_pos hx4, ticks, ticks, SerialBrg.clock, hx1, hx4]
    have hdiv := r.div4.isLt
    by_cases hdiv4 : r.div4 = 3
    · rw [hdiv4]
      rfl
    · have hne : r.div4.toNat ≠ 3 := fun heq => hdiv4 (BitVec.eq_of_toNat_eq heq)
      have hbeq : (r.div4 == 3) = false := beq_false_of_ne hdiv4
      rw [hbeq]
      simp only [Bool.and_false, Bool.false_eq_true, if_false, if_true, BitVec.toNat_add]
      exact Nat.mod_eq_of_lt (Nat.succ_lt_succ (by omega : r.div4.toNat < 3))
  · rw [if_neg hx4, ticks, SerialBrg.clock]
    simp only [hx4]
    by_cases hx1 : r.baudX1 = true
    · rw [if_pos hx1, (h.baudX1 hx1).2.2]
      rfl
    · rw [if_neg hx1, ticks, if_neg hx1]
      rfl

theorem ticks_le (r : SerialBrg) : r.ticks ≤ 4 := by
  have hdiv := r.div4.isLt
  rw [ticks]
  split_ifs <;> omega

theorem Timed.ticks_lt (hx1 : r.baudX1 = false) : r.ticks < 4 := by
  rw [ticks, hx1]
  exact r.div4.isLt

theorem wait_le (r : SerialBrg) : r.wait ≤ 5 := by
  rw [wait]
  split_ifs <;> omega

theorem Timed.wait_clock (h : r.Timed) (hx4 : r.baudX4 = false) : r.clock.wait < r.wait := by
  have hdelta := delta_clock h.delta
  have hlt := h.delta
  have hx4' : r.clock.baudX4 = !decide (r.delta.toNat < 19) := by
    rw [SerialBrg.clock, underflow_eq h.delta]
  rw [wait, wait, hx4', hx4, hdelta]
  by_cases hge : r.delta.toNat < 19
  · simp [hge]
    omega
  · simp [hge]
    omega

end SerialBrg

namespace SerialUartTx

def frame (data : Byte) : BitVec 10 := 1#1 ++ data ++ 0#1

theorem getLsbD_frame (data : Byte) (i : ℕ) :
    (frame data).getLsbD i = if i = 0 then false else if i < 9 then data.getLsbD (i - 1) else i == 9 := by
  rw [frame, BitVec.getLsbD_append, BitVec.getLsbD_append]
  by_cases hzero : i = 0
  · rw [hzero]
    rfl
  · have hone : ¬i < 1 := by omega
    rw [if_neg hzero]
    rw [if_neg hone]
    by_cases hnine : i < 9
    · have hlt : i - 1 < 8 := by omega
      simp [hlt, hnine]
    · have hge : ¬i - 1 < 8 := by omega
      rw [if_neg hge, if_neg hnine]
      by_cases heq : i = 9
      · rw [heq]
        rfl
      · have hbeq : (i == 9) = false := beq_false_of_ne heq
        rw [hbeq]
        exact BitVec.getLsbD_of_ge _ _ (by omega)

structure Sending (line : Option (Byte × ℕ)) (loaded : Option Byte) (r : SerialUartTx) : Prop where
  bit : ∀ p ∈ line, p.2 ≤ 9 ∧ (loaded ≠ none → p.2 = 9)
  serialR : r.serialR = (line.map fun p => !(frame p.1).getLsbD p.2).getD false
  shiftreg : r.shiftreg = (loaded.map frame).getD ((line.map fun p => frame p.1 >>> (p.2 + 1)).getD 0)

variable {line : Option (Byte × ℕ)} {loaded : Option Byte} {data : Byte} {k : ℕ} {r : SerialUartTx}

theorem frame_ushiftRight_ne_zero (hk : k ≤ 9) : frame data >>> k ≠ 0#10 := by
  intro h
  have hbit := congrArg (BitVec.getLsbD · (9 - k)) h
  simp only [BitVec.getLsbD_ushiftRight, Nat.add_sub_cancel' hk, getLsbD_frame] at hbit
  simp at hbit

theorem frame_ushiftRight_ten : frame data >>> 10 = 0 := by
  apply BitVec.eq_of_getLsbD_eq
  intro i _
  rw [BitVec.getLsbD_ushiftRight, BitVec.getLsbD_of_ge _ _ (Nat.le_add_right 10 i)]
  exact BitVec.getLsbD_zero.symm

theorem Sending.ready_iff (h : Sending line loaded r) :
    r.ready = true ↔ loaded = none ∧ ∀ p ∈ line, p.2 = 9 := by
  rw [ready, beq_iff_eq, h.shiftreg]
  cases loaded with
  | some data =>
    have hne : frame data >>> 0 ≠ 0#10 := frame_ushiftRight_ne_zero (Nat.zero_le 9)
    rw [BitVec.ushiftRight_zero] at hne
    simp [hne]
  | none =>
    cases line with
    | none => simp
    | some p =>
      have hle := (h.bit p rfl).1
      rcases Nat.lt_or_eq_of_le hle with hlt | heq
      · have hne : frame p.1 >>> (p.2 + 1) ≠ 0#10 := frame_ushiftRight_ne_zero hlt
        simp only [Option.map_none, Option.map_some, Option.getD_none, Option.getD_some]
        simp [hne, Nat.ne_of_lt hlt]
      · simp [heq, frame_ushiftRight_ten]

theorem Sending.load (h : Sending line none r) (hready : r.ready = true) (baudX1 : Bool)
    (data : Byte) : Sending line (some data) (r.clock baudX1 data true) := by
  have hbit := (h.ready_iff.mp hready).2
  refine ⟨fun p hp => ⟨(h.bit p hp).1, fun _ => hbit p hp⟩, ?_, ?_⟩
  · rw [clock, if_pos rfl]
    exact h.serialR
  · rw [clock, if_pos rfl]
    rfl

theorem Sending.wait (h : Sending line loaded r) (data : Byte) :
    Sending line loaded (r.clock false data false) := h

theorem Sending.next (h : Sending (some (data, k)) none r) (hk : k < 9) (data' : Byte) :
    Sending (some (data, k + 1)) none (r.clock true data' false) := by
  have hshiftreg : r.shiftreg = frame data >>> (k + 1) := h.shiftreg
  have hready : r.ready = false := by
    rw [ready, hshiftreg]
    exact beq_false_of_ne (frame_ushiftRight_ne_zero hk)
  refine ⟨?_, ?_, ?_⟩
  · intro p hp
    cases hp
    exact ⟨hk, fun hne => absurd rfl hne⟩
  · rw [clock, hready, hshiftreg]
    simp
  · rw [clock, hshiftreg]
    simp [BitVec.shiftRight_add]

theorem Sending.start (h : Sending none loaded r) (data' : Byte) :
    Sending (loaded.map (·, 0)) none (r.clock true data' false) := by
  have hshiftreg := h.shiftreg
  cases loaded with
  | none =>
    have hzero : r.shiftreg = 0 := hshiftreg
    refine ⟨fun p hp => absurd hp (Option.not_mem_none p), ?_, ?_⟩
    · rw [clock, ready, hzero]
      rfl
    · rw [clock, hzero]
      rfl
  | some data =>
    have hframe : r.shiftreg = frame data := hshiftreg
    have hne : frame data >>> 0 ≠ 0#10 := frame_ushiftRight_ne_zero (Nat.zero_le 9)
    rw [BitVec.ushiftRight_zero] at hne
    have hready : r.ready = false := by
      rw [ready, hframe]
      exact beq_false_of_ne hne
    refine ⟨?_, ?_, ?_⟩
    · intro p hp
      cases hp
      exact ⟨Nat.zero_le 9, fun hne => absurd rfl hne⟩
    · rw [clock, hready, hframe]
      simp
    · rw [clock, hframe]
      simp

theorem Sending.finish (h : Sending (some (data, 9)) loaded r) : Sending none loaded r := by
  refine ⟨fun p hp => absurd hp (Option.not_mem_none p), ?_, ?_⟩
  · rw [h.serialR]
    simp [getLsbD_frame]
  · rw [h.shiftreg]
    simp [frame_ushiftRight_ten]

end SerialUartTx

namespace SerialUartRx

open SerialUartTx (frame getLsbD_frame)

def sampled (k ticks : ℕ) : ℕ := if ticks ≤ 1 then k else k + 1

structure Receiving (line : Option (Byte × ℕ)) (ticks : ℕ) (r : SerialUartRx) : Prop where
  bit : ∀ p ∈ line, p.2 ≤ 9 ∧ (p.2 = 9 → ticks ≤ 1)
  state : r.state.toNat = (line.map fun p => 4 * p.2 + ticks).getD 0
  shiftreg : ∀ p ∈ line, ∀ i < sampled p.2 ticks,
    r.shiftreg.getLsbD (9 - sampled p.2 ticks + i) = (frame p.1).getLsbD i

variable {line : Option (Byte × ℕ)} {data : Byte} {k ticks : ℕ} {r : SerialUartRx}

theorem samplingPhase_eq (r : SerialUartRx) : r.samplingPhase = (r.state.toNat % 4 == 1) := by
  rw [samplingPhase, bitPhase, Bool.eq_iff_iff, beq_iff_eq, beq_iff_eq, ← BitVec.toNat_inj]
  simp

theorem bitCount_eq (r : SerialUartRx) (n : BitVec 4) :
    (r.bitCount == n) = (r.state.toNat / 4 == n.toNat) := by
  have hstate := r.state.isLt
  rw [bitCount, Bool.eq_iff_iff, beq_iff_eq, beq_iff_eq, ← BitVec.toNat_inj]
  simp [Nat.shiftRight_eq_div_pow]
  omega

theorem Receiving.wait (h : Receiving line ticks r) (serial : Bool) :
    Receiving line ticks (r.clock false serial) := ⟨h.bit, h.state, h.shiftreg⟩

theorem Receiving.next (h : Receiving (some (data, k)) 4 r) (hk : k < 9) :
    Receiving (some (data, k + 1)) 0 r := by
  refine ⟨?_, ?_, ?_⟩
  · intro p hp
    cases hp
    exact ⟨hk, fun _ => Nat.zero_le 1⟩
  · exact h.state
  · intro p hp
    cases hp
    exact h.shiftreg _ rfl

theorem Receiving.start (h : Receiving none ticks r) (loaded : Option Byte) :
    Receiving (loaded.map (·, 0)) 0 r := by
  have hzero : ∀ p ∈ loaded.map (·, 0), p.2 = 0 := by
    intro p hp
    obtain ⟨data, -, rfl⟩ := Option.map_eq_some_iff.mp hp
    rfl
  refine ⟨?_, ?_, ?_⟩
  · intro p hp
    rw [hzero p hp]
    exact ⟨Nat.zero_le 9, fun _ => Nat.zero_le 1⟩
  · rw [h.state]
    cases loaded <;> rfl
  · intro p hp i hi
    rw [hzero p hp] at hi
    exact absurd hi (Nat.not_lt_zero i)

theorem Receiving.idle (h : Receiving none ticks r) (hsync : r.serialSync = true) (serial : Bool)
    (ticks' : ℕ) :
    Receiving none ticks' (r.clock true serial) ∧ (r.clock true serial).dataStrobe = false := by
  have hstate : r.state = 0 := BitVec.eq_of_toNat_eq h.state
  have hwaiting : r.waitingForStart = true := by
    rw [waitingForStart, hsync, hstate]
    rfl
  have hstop : r.stopBit = false := by
    rw [stopBit, bitCount, hstate]
    rfl
  refine ⟨⟨?_, ?_, ?_⟩, ?_⟩
  · exact fun p hp => absurd hp (Option.not_mem_none p)
  · rw [clock, hwaiting]
    rfl
  · exact fun p hp => absurd hp (Option.not_mem_none p)
  · rw [clock, hstop]
    rfl

section Bit

variable (h : Receiving (some (data, k)) ticks r) (hticks : ticks < 4)
include h hticks

theorem Receiving.bitCount_iff (n : BitVec 4) : r.bitCount == n ↔ k = n.toNat := by
  have hstate : r.state.toNat = 4 * k + ticks := h.state
  rw [bitCount_eq, beq_iff_eq, hstate]
  omega

theorem Receiving.samplingPhase_iff : r.samplingPhase = true ↔ ticks = 1 := by
  have hstate : r.state.toNat = 4 * k + ticks := h.state
  rw [samplingPhase_eq, beq_iff_eq, hstate]
  omega

theorem Receiving.stopBit_iff : r.stopBit = true ↔ k = 9 ∧ ticks = 1 := by
  rw [stopBit, Bool.and_eq_true, h.bitCount_iff hticks, h.samplingPhase_iff hticks]
  rfl

variable (hsync : r.serialSync = (frame data).getLsbD k)
include hsync

theorem Receiving.error_eq : r.error = false := by
  have hstart : ¬(r.startBit && r.serialSync) = true := by
    rw [startBit, Bool.and_eq_true, Bool.and_eq_true, h.bitCount_iff hticks, hsync]
    rintro ⟨⟨rfl, -⟩, hbit⟩
    rw [getLsbD_frame] at hbit
    cases hbit
  have hstop : ¬(r.stopBit && !r.serialSync) = true := by
    rw [Bool.and_eq_true, h.stopBit_iff hticks, hsync]
    rintro ⟨⟨rfl, -⟩, hbit⟩
    rw [getLsbD_frame] at hbit
    cases hbit
  rw [error, Bool.eq_false_iff.mpr hstart, Bool.eq_false_iff.mpr hstop]
  rfl

theorem Receiving.waitingForStart_eq : r.waitingForStart = false := by
  rw [Bool.eq_false_iff, waitingForStart, Ne, Bool.and_eq_true, beq_iff_eq, hsync]
  rintro ⟨hzero, hbit⟩
  have hstate : r.state.toNat = 4 * k + ticks := h.state
  rw [hzero] at hstate
  obtain rfl : k = 0 := by
    have hzero' : (0 : BitVec 6).toNat = 0 := rfl
    omega
  rw [getLsbD_frame] at hbit
  cases hbit

end Bit

theorem getLsbD_shift (b : Bool) (v : BitVec 9) {i : ℕ} (hi : i < 9) :
    (BitVec.ofBool b ++ v.extractLsb' 1 8).getLsbD i = if i = 8 then b else v.getLsbD (i + 1) := by
  rw [BitVec.getLsbD_append]
  by_cases heq : i = 8
  · rw [heq]
    simp
  · have hlt : i < 8 := by omega
    rw [if_pos hlt, if_neg heq, BitVec.getLsbD_extractLsb', Nat.add_comm]
    simp [hlt]

theorem Receiving.tick (h : Receiving (some (data, k)) ticks r) (hticks : ticks < 4)
    (hstop : ¬(k = 9 ∧ ticks = 1)) (hsync : r.serialSync = (frame data).getLsbD k)
    (serial : Bool) :
    Receiving (some (data, k)) (ticks + 1) (r.clock true serial) ∧
      (r.clock true serial).dataStrobe = false := by
  have hstopBit : r.stopBit = false := by
    rwa [Bool.eq_false_iff, Ne, h.stopBit_iff hticks]
  have herror := h.error_eq hticks hsync
  have hwaiting := h.waitingForStart_eq hticks hsync
  have hstate : r.state.toNat = 4 * k + ticks := h.state
  have hbit := h.bit _ rfl
  have hphase : (r.bitPhase == 1) = decide (ticks = 1) := by
    rw [Bool.eq_iff_iff, decide_eq_true_iff]
    exact h.samplingPhase_iff hticks
  refine ⟨⟨?_, ?_, ?_⟩, ?_⟩
  · intro p hp
    cases hp
    exact ⟨hbit.1, by omega⟩
  · rw [clock, if_pos rfl, hwaiting, herror, hstopBit]
    have hone : (1 : BitVec 6).toNat = 1 := rfl
    simp only [Bool.or_self, Bool.false_eq_true, if_false, BitVec.toNat_add, Option.map_some,
      Option.getD_some]
    omega
  · intro p hp i hi
    cases hp
    have hseen := h.shiftreg _ rfl
    rw [clock, if_pos rfl, hphase]
    dsimp only at hi hseen hbit ⊢
    by_cases hone : ticks = 1
    · subst hone
      have hsampled : sampled k (1 + 1) = k + 1 := rfl
      have hsampled' : sampled k 1 = k := rfl
      rw [hsampled] at hi ⊢
      rw [hsampled'] at hseen
      rw [if_pos (decide_eq_true rfl), getLsbD_shift _ _ (by omega)]
      by_cases hlast : i = k
      · rw [if_pos (by omega), hsync, hlast]
      · rw [if_neg (by omega), ← hseen i (by omega)]
        congr 1
        omega
    · have hsampled : sampled k (ticks + 1) = sampled k ticks := by
        rw [sampled, sampled]
        split_ifs <;> omega
      rw [hsampled] at hi ⊢
      rw [decide_eq_false hone]
      exact hseen i hi
  · rw [clock, hstopBit]
    rfl

theorem Receiving.stop (h : Receiving (some (data, 9)) 1 r)
    (hsync : r.serialSync = (frame data).getLsbD 9) (serial : Bool) (ticks' : ℕ) :
    Receiving none ticks' (r.clock true serial) ∧ (r.clock true serial).dataStrobe = true ∧
      (r.clock true serial).data = data := by
  have hticks : 1 < 4 := by omega
  have hstopBit : r.stopBit = true := (h.stopBit_iff hticks).mpr ⟨rfl, rfl⟩
  have herror := h.error_eq hticks hsync
  have hphase : (r.bitPhase == 1) = true := (h.samplingPhase_iff hticks).mpr rfl
  have hnone : ∀ p ∈ (none : Option (Byte × ℕ)), False := fun p hp => Option.not_mem_none p hp
  refine ⟨⟨fun p hp => (hnone p hp).elim, ?_, fun p hp => (hnone p hp).elim⟩, ?_, ?_⟩
  · rw [clock, if_pos rfl, hstopBit]
    simp
  · rw [clock, if_pos rfl, hstopBit, herror]
    rfl
  · apply BitVec.eq_of_getLsbD_eq
    intro i hi
    have hseen : r.shiftreg.getLsbD (0 + (i + 1)) = (frame data).getLsbD (i + 1) :=
      h.shiftreg _ rfl (i + 1) (by change i + 1 < 9; omega)
    rw [SerialUartRx.data, clock, if_pos rfl, hphase, BitVec.getLsbD_setWidth]
    dsimp only
    rw [if_pos rfl, getLsbD_shift _ _ (by omega), if_neg (by omega), ← Nat.zero_add (i + 1), hseen,
      getLsbD_frame, if_neg (Nat.succ_ne_zero i), if_pos (by omega), Nat.add_sub_cancel]
    simp [hi]

end SerialUartRx

structure Settled (brg : SerialBrg) (txd : Bool) (r : DFlipflopPair) : Prop where
  intermediate : 18 ≤ brg.delta.toNat → r.intermediate = txd
  dOut : 24 ≤ brg.delta.toNat ∨ brg.baudX4 = true → r.dOut = txd

theorem settled_reset (txd : Bool) (r : DFlipflopPair) : Settled .reset txd r := by
  refine ⟨fun h => absurd h (by decide), fun h => ?_⟩
  exact h.elim (fun h => absurd h (by decide)) (fun h => absurd h (by decide))

theorem Settled.clock {brg : SerialBrg} {txd txd' : Bool} {r : DFlipflopPair}
    (h : Settled brg txd r) (hbrg : brg.Timed) (htxd : brg.baudX1 = false → txd' = txd) :
    Settled brg.clock txd' (r.clock txd) := by
  have hlt := hbrg.delta
  have hdelta := SerialBrg.delta_clock hlt
  have hkeep : 12 ≤ brg.delta.toNat → txd' = txd := by
    intro hge
    apply htxd
    rw [Bool.eq_false_iff]
    intro hx1
    have hbefore := (hbrg.baudX1 hx1).2.1
    omega
  constructor
  · intro hge
    have hbefore : 12 ≤ brg.delta.toNat := by split_ifs at hdelta <;> omega
    exact (hkeep hbefore).symm
  · intro hlate
    have hbefore : 18 ≤ brg.delta.toNat := by
      rcases hlate with hge | hx4
      · split_ifs at hdelta <;> omega
      · have hbound := hbrg.clock.baudX4 hx4
        split_ifs at hdelta <;> omega
    rw [hkeep (by omega)]
    exact h.intermediate hbefore

structure Linked (line : Option (Byte × ℕ)) (loaded : Option Byte) (brg : SerialBrg)
    (tx : SerialUartTx) (rx : SerialUartRx) : Prop where
  timed : brg.Timed
  sending : tx.Sending line loaded
  receiving : rx.Receiving line brg.ticks
  settled : Settled brg tx.serial rx.inputDff

namespace Linked

variable {line : Option (Byte × ℕ)} {loaded : Option Byte} {brg : SerialBrg} {tx : SerialUartTx}
  {rx : SerialUartRx}

theorem start (shiftreg : BitVec 9) : Linked none none .reset .reset (.reset shiftreg) where
  timed := SerialBrg.timed_reset
  sending := ⟨fun p hp => absurd hp (Option.not_mem_none p), rfl, rfl⟩
  receiving := ⟨fun p hp => absurd hp (Option.not_mem_none p), rfl,
    fun p hp => absurd hp (Option.not_mem_none p)⟩
  settled := settled_reset _ _

theorem sync_eq (h : Linked line loaded brg tx rx) (hx4 : brg.baudX4 = true) :
    rx.serialSync = (line.map fun p => (SerialUartTx.frame p.1).getLsbD p.2).getD true := by
  rw [SerialUartRx.serialSync, h.settled.dOut (Or.inr hx4), SerialUartTx.serial, h.sending.serialR]
  cases line with
  | none => rfl
  | some p => exact Bool.not_not _

end Linked

def underway (line : Option (Byte × ℕ)) (loaded : Option Byte) : List Byte :=
  (line.map Prod.fst).toList ++ loaded.toList

def remaining (line : Option (Byte × ℕ)) (brg : SerialBrg) : ℕ :=
  6 * (5 * (line.map fun p => 9 - p.2).getD 10 + (4 - brg.ticks)) + brg.wait

def strobed (data : Byte) (dataStrobe : Bool) : List Byte := if dataStrobe then [data] else []

namespace Linked

variable {line : Option (Byte × ℕ)} {loaded : Option Byte} {brg : SerialBrg} {tx : SerialUartTx}
  {rx : SerialUartRx}

structure Advanced (line : Option (Byte × ℕ)) (loaded : Option Byte) (brg : SerialBrg)
    (sent : List Byte) (tx : SerialUartTx) (rx : SerialUartRx) (line' : Option (Byte × ℕ))
    (loaded' : Option Byte) : Prop where
  linked : Linked line' loaded' brg.clock tx rx
  bytes : strobed rx.data rx.dataStrobe ++ underway line' loaded' = underway line loaded ++ sent
  remaining : underway line loaded ≠ [] → rx.dataStrobe = true ∨
    remaining line' brg.clock < remaining line brg

section Clock

variable (h : Linked line loaded brg tx rx) (data : Byte)
include h

theorem settled_clock (tx' : SerialUartTx)
    (htx' : brg.baudX1 = false → tx'.serialR = tx.serialR) :
    Settled brg.clock tx'.serial (rx.clock brg.baudX4 tx.serial).inputDff := by
  have hdff : (rx.clock brg.baudX4 tx.serial).inputDff = rx.inputDff.clock tx.serial := by
    cases brg.baudX4 <;> rfl
  rw [hdff]
  apply h.settled.clock h.timed
  intro hx1
  rw [SerialUartTx.serial, SerialUartTx.serial, htx' hx1]

theorem sending_wait {dataStrobe : Bool} (hready : dataStrobe = true → tx.ready = true) :
    ∃ loaded', (tx.clock false data dataStrobe).Sending line loaded' ∧
      loaded'.toList = loaded.toList ++ strobed data dataStrobe := by
  cases dataStrobe with
  | false => exact ⟨loaded, h.sending.wait data, (List.append_nil _).symm⟩
  | true =>
    obtain ⟨rfl, -⟩ := h.sending.ready_iff.mp (hready rfl)
    exact ⟨some data, h.sending.load (hready rfl) false data, rfl⟩

theorem clock_tick {dataStrobe : Bool} (hready : dataStrobe = true → tx.ready = true)
    (hx4 : brg.baudX4 = true) :
    ∃ line' loaded', Advanced line loaded brg (strobed data dataStrobe)
      (tx.clock brg.baudX1 data dataStrobe) (rx.clock brg.baudX4 tx.serial) line' loaded' := by
  have hx1 := h.timed.not_both hx4
  have hlt := SerialBrg.Timed.ticks_lt hx1
  have hticks : brg.clock.ticks = brg.ticks + 1 := by rw [h.timed.ticks_clock, if_pos hx4]
  have hwait := SerialBrg.wait_le brg.clock
  have hsync := h.sync_eq hx4
  obtain ⟨loaded', hsending, hloaded⟩ := h.sending_wait data hready
  have hsettled := h.settled_clock (tx.clock brg.baudX1 data dataStrobe)
    (fun hx1 => by rw [hx1]; cases dataStrobe <;> rfl)
  have hreceiving := h.receiving
  rw [hx1, hx4] at hsettled ⊢
  cases line with
  | none =>
    obtain ⟨hnext, hstrobe⟩ := hreceiving.idle hsync tx.serial brg.clock.ticks
    refine ⟨none, loaded', ⟨h.timed.clock, hsending, hnext, hsettled⟩, ?_, fun _ => Or.inr ?_⟩
    · rw [strobed, hstrobe]
      exact hloaded
    · rw [remaining, remaining, hticks]
      omega
  | some p =>
    obtain ⟨data', k⟩ := p
    by_cases hstop : k = 9 ∧ brg.ticks = 1
    · obtain ⟨rfl, hone⟩ := hstop
      rw [hone] at hreceiving
      obtain ⟨hnext, hstrobe, hdata⟩ := hreceiving.stop hsync tx.serial brg.clock.ticks
      refine ⟨none, loaded', ⟨h.timed.clock, hsending.finish, hnext, hsettled⟩, ?_,
        fun _ => Or.inl hstrobe⟩
      rw [strobed, hstrobe, hdata]
      exact congrArg (data' :: ·) hloaded
    · obtain ⟨hnext, hstrobe⟩ := hreceiving.tick hlt hstop hsync tx.serial
      rw [← hticks] at hnext
      refine ⟨some (data', k), loaded', ⟨h.timed.clock, hsending, hnext, hsettled⟩, ?_,
        fun _ => Or.inr ?_⟩
      · rw [strobed, hstrobe]
        exact congrArg (data' :: ·) hloaded
      · rw [remaining, remaining, hticks]
        omega

theorem clock_bit {dataStrobe : Bool} (hready : dataStrobe = true → tx.ready = true)
    (hx1 : brg.baudX1 = true) :
    ∃ line' loaded', Advanced line loaded brg (strobed data dataStrobe)
      (tx.clock brg.baudX1 data dataStrobe) (rx.clock brg.baudX4 tx.serial) line' loaded' := by
  have hx4 : brg.baudX4 = false := by
    rw [Bool.eq_false_iff]
    intro hx4
    rw [h.timed.not_both hx4] at hx1
    cases hx1
  have hfour : brg.ticks = 4 := by rw [SerialBrg.ticks, if_pos hx1]
  have hticks : brg.clock.ticks = 0 := by rw [h.timed.ticks_clock, hx4, hx1]; rfl
  have hwait := SerialBrg.wait_le brg.clock
  have hsettled := h.settled_clock (tx.clock brg.baudX1 data dataStrobe)
    (fun hx1' => by rw [hx1'] at hx1; cases hx1)
  have hreceiving := h.receiving
  rw [hfour] at hreceiving
  rw [hx1, hx4] at hsettled ⊢
  cases line with
  | none =>
    cases dataStrobe with
    | true =>
      obtain ⟨rfl, -⟩ := h.sending.ready_iff.mp (hready rfl)
      have hnext := (hreceiving.start none).wait tx.serial
      rw [← hticks] at hnext
      exact ⟨none, some data, ⟨h.timed.clock, h.sending.load (hready rfl) true data, hnext, hsettled⟩,
        rfl, fun hne => absurd rfl hne⟩
    | false =>
      have hnext : (rx.clock false tx.serial).Receiving (loaded.map (·, 0)) brg.clock.ticks := by
        rw [hticks]
        exact (hreceiving.start loaded).wait tx.serial
      refine ⟨loaded.map (·, 0), none, ⟨h.timed.clock, h.sending.start data, hnext, hsettled⟩, ?_,
        fun hne => Or.inr ?_⟩
      · cases loaded <;> rfl
      · cases loaded with
        | none => exact absurd rfl hne
        | some data' =>
          rw [remaining, remaining, hticks, hfour]
          simp only [Option.map_some, Option.map_none, Option.getD_some, Option.getD_none]
          omega
  | some p =>
    obtain ⟨data', k⟩ := p
    have hk : k < 9 := by
      obtain ⟨hle, hlast⟩ := hreceiving.bit _ rfl
      dsimp only at hle hlast
      omega
    have hnone : loaded = none := by
      by_contra hne
      have hnine : k = 9 := (h.sending.bit _ rfl).2 hne
      omega
    subst hnone
    have hidle : dataStrobe = false := by
      rw [Bool.eq_false_iff]
      intro hstrobe
      have hnine : k = 9 := (h.sending.ready_iff.mp (hready hstrobe)).2 _ rfl
      omega
    subst hidle
    have hnext := (hreceiving.next hk).wait tx.serial
    rw [← hticks] at hnext
    refine ⟨some (data', k + 1), none, ⟨h.timed.clock, h.sending.next hk data, hnext, hsettled⟩, rfl,
      fun _ => Or.inr ?_⟩
    rw [remaining, remaining, hticks, hfour]
    simp only [Option.map_some, Option.getD_some]
    omega

theorem clock {dataStrobe : Bool} (hready : dataStrobe = true → tx.ready = true) :
    ∃ line' loaded', Advanced line loaded brg (strobed data dataStrobe)
      (tx.clock brg.baudX1 data dataStrobe) (rx.clock brg.baudX4 tx.serial) line' loaded' := by
  by_cases hx4 : brg.baudX4 = true
  · exact h.clock_tick data hready hx4
  · by_cases hx1 : brg.baudX1 = true
    · exact h.clock_bit data hready hx1
    · have hticks : brg.clock.ticks = brg.ticks := by
        rw [h.timed.ticks_clock, if_neg hx4, if_neg hx1]
      have hwait := h.timed.wait_clock (Bool.eq_false_iff.mpr hx4)
      obtain ⟨loaded', hsending, hloaded⟩ := h.sending_wait data hready
      have hsettled := h.settled_clock (tx.clock brg.baudX1 data dataStrobe)
        (fun hx1 => by rw [hx1]; cases dataStrobe <;> rfl)
      have hnext := h.receiving.wait tx.serial
      rw [← hticks] at hnext
      rw [Bool.eq_false_iff.mpr hx4, Bool.eq_false_iff.mpr hx1] at hsettled ⊢
      refine ⟨line, loaded', ⟨h.timed.clock, hsending, hnext, hsettled⟩, ?_, fun _ => Or.inr ?_⟩
      · rw [underway, hloaded, underway, List.append_assoc]
        rfl
      · rw [remaining, remaining, hticks]
        omega

end Clock

end Linked

end NaviMisc.SpiMemEmulator
