import NaviMisc.Therm.Frame

/-!
The transmitter's side of the protocol (transmitter/tx-protocol.inc), which runs on a PIC.
-/

namespace NaviMisc.Therm

open NaviMisc.Lib.BitLists
open NaviMisc.Lib.BitStuffing

/-- The registers, the carry of `STATUS` and the bits that went out. -/
structure Transmitter where
  temp : Byte
  temp2 : Byte
  crcRegLow : Byte
  crcRegHigh : Byte
  consecutiveOnes : Byte
  carry : Bool
  sent : List Bool

section Instructions

def rlf (x : Byte) (carry : Bool) : Byte × Bool :=
  (x <<< 1 ||| (BitVec.ofBool carry).setWidth 8, x.msb)

def rrf (x : Byte) (carry : Bool) : Byte × Bool :=
  (x >>> 1 ||| (BitVec.ofBool carry).setWidth 8 <<< 7, x.getLsbD 0)

end Instructions

namespace Transmitter

def crcShift (value : Bool) (t : Transmitter) : Transmitter :=
  let (low, carry) := rlf t.crcRegLow t.carry
  let (high, carry) := rlf t.crcRegHigh carry
  let low := setBit low 0 value
  if carry then { t with crcRegLow := low ^^^ 0x05, crcRegHigh := high ^^^ 0x80, carry := carry }
  else { t with crcRegLow := low, crcRegHigh := high, carry := carry }

-- What the addition to the timer leaves in the carry when a bit is sent.
variable (timer : List Bool → Bool)

def txSend (b : Bool) (t : Transmitter) : Transmitter :=
  { t with sent := t.sent ++ [b], carry := timer t.sent }

def txSendFlag (t : Transmitter) : Transmitter :=
  { [false, true, true, true, true, false].foldl (fun t b => t.txSend timer b) t with
    consecutiveOnes := 0 }

def txStuffedZero (t : Transmitter) : Transmitter := txSend timer false { t with consecutiveOnes := 0 }

/-- The subtraction of 3 sets the carry if nothing is borrowed. -/
def txStuffedOne (t : Transmitter) : Transmitter :=
  let t := txSend timer true { t with consecutiveOnes := t.consecutiveOnes + 1 }
  let t := { t with carry := decide (3 ≤ t.consecutiveOnes.toNat) }
  if t.consecutiveOnes - 3 = 0 then txStuffedZero timer t else t

def txContentOne (t : Transmitter) : Transmitter := txStuffedOne timer (crcShift true t)

def txContentZero (t : Transmitter) : Transmitter := txStuffedZero timer (crcShift false t)

def txContentOf (b : Bool) (t : Transmitter) : Transmitter :=
  if b then txContentOne timer t else txContentZero timer t

def txContentBit (t : Transmitter) : Transmitter :=
  let (temp, carry) := rrf t.temp t.carry
  txContentOf timer carry { t with temp := temp, carry := carry }

/-- `tx_content_8bit` and the entries after it, for `n` bits. -/
def txContent (n : ℕ) (t : Transmitter) : Transmitter := (txContentBit timer)^[n] t

def txBeginContent (t : Transmitter) : Transmitter :=
  (txSendFlag timer)^[4] { t with crcRegLow := 0, crcRegHigh := 0 }

def txEndContent (t : Transmitter) : Transmitter :=
  let t := { (crcShift false)^[16] t with temp := 0 }
  let t := { t with temp := t.crcRegLow, temp2 := t.crcRegHigh }
  let t := txContent timer 8 t
  let t := { t with temp := t.temp2 }
  let t := txContent timer 8 t
  txSendFlag timer t

def txPacket (content : List Bool) (t : Transmitter) : Transmitter :=
  txEndContent timer (content.foldl (fun t b => txContentOf timer b t) (txBeginContent timer t))

section Spec

variable {t : Transmitter} {s : Stuffer} {crc : BitVec 16}

theorem getLsbD_rlf (x : Byte) (carry : Bool) {i : ℕ} (hi : i < 8) :
    (rlf x carry).1.getLsbD i = if i = 0 then carry else x.getLsbD (i - 1) := by
  rw [rlf, BitVec.getLsbD_or, BitVec.getLsbD_shiftLeft, BitVec.getLsbD_setWidth,
    BitVec.getLsbD_ofBool]
  rcases i with - | i
  · simp
  · simp [hi]

theorem rlf_append (high low : Byte) (b carry : Bool) :
    (rlf high low.msb).1 ++ setBit (rlf low carry).1 0 b =
      (high ++ low) <<< 1 ||| (BitVec.ofBool b).setWidth 16 := by
  apply BitVec.eq_of_getLsbD_eq
  intro i hi
  have hright : ((high ++ low) <<< 1 ||| (BitVec.ofBool b).setWidth 16).getLsbD i =
      if i = 0 then b else (high ++ low).getLsbD (i - 1) := by
    rw [BitVec.getLsbD_or, BitVec.getLsbD_shiftLeft, BitVec.getLsbD_setWidth,
      BitVec.getLsbD_ofBool]
    rcases i with - | i
    · simp
    · simp [hi]
  rw [hright, BitVec.getLsbD_append, getLsbD_setBit _ (by decide), BitVec.getLsbD_append]
  rcases Nat.lt_trichotomy i 8 with hlt | rfl | hgt
  · have hlt' : i - 1 < 8 := by omega
    rw [if_pos hlt, getLsbD_rlf _ _ hlt, if_pos hlt']
    by_cases hzero : i = 0 <;> simp [hzero]
  · rw [if_neg (by decide), getLsbD_rlf _ _ (by decide)]
    rfl
  · rw [if_neg (by omega), if_neg (by omega), if_neg (by omega), getLsbD_rlf _ _ (by omega),
      if_neg (by omega)]
    congr 1

theorem crcShift_spec (b : Bool) (t : Transmitter) :
    (crcShift b t).crcRegHigh ++ (crcShift b t).crcRegLow =
      crcStep (t.crcRegHigh ++ t.crcRegLow) b := by
  have hmsb : (t.crcRegHigh ++ t.crcRegLow).msb = t.crcRegHigh.msb := by
    rw [BitVec.msb_append]
    rfl
  have hpoly : (0x8005 : BitVec 16) = (0x80 : Byte) ++ (0x05 : Byte) := rfl
  have hshift := rlf_append t.crcRegHigh t.crcRegLow b t.carry
  rw [crcStep, hmsb, hpoly, ← hshift, BitVec.xor_append, crcShift]
  cases hcarry : t.crcRegHigh.msb <;> simp [rlf, hcarry]

structure Tracks (t : Transmitter) (s : Stuffer) (crc : BitVec 16) : Prop where
  ones : t.consecutiveOnes.toNat = s.ones
  sent : t.sent = s.sent
  crc : t.crcRegHigh ++ t.crcRegLow = crc

structure SameRegisters (t' t : Transmitter) : Prop where
  temp : t'.temp = t.temp
  temp2 : t'.temp2 = t.temp2
  crcRegLow : t'.crcRegLow = t.crcRegLow
  crcRegHigh : t'.crcRegHigh = t.crcRegHigh

theorem txStuffedZero_spec (t : Transmitter) : SameRegisters (txStuffedZero timer t) t ∧
    (txStuffedZero timer t).consecutiveOnes = 0 ∧
      (txStuffedZero timer t).sent = t.sent ++ [false] := ⟨⟨rfl, rfl, rfl, rfl⟩, rfl, rfl⟩

theorem txStuffedOne_spec (ht : t.consecutiveOnes.toNat = s.ones) (hs : s.ones < RUN)
    (hsent : t.sent = s.sent) : SameRegisters (txStuffedOne timer t) t ∧
      (txStuffedOne timer t).consecutiveOnes.toNat = (s.push RUN true).ones ∧
        (txStuffedOne timer t).sent = (s.push RUN true).sent := by
  have hadd : (t.consecutiveOnes + 1).toNat = s.ones + 1 := by
    rw [BitVec.toNat_add, ht]
    exact Nat.mod_eq_of_lt (show s.ones + 1 < 256 by change s.ones < 3 at hs; omega)
  have hthree : t.consecutiveOnes + 1 - 3 = 0 ↔ s.ones + 1 = RUN := by
    rw [BitVec.sub_eq_iff_eq_add, ← BitVec.toNat_inj, hadd]
    rfl
  rw [txStuffedOne, Stuffer.push, ← hsent]
  dsimp only [txSend]
  by_cases hfull : s.ones + 1 = RUN
  · simp only [hthree, if_pos hfull]
    exact ⟨⟨rfl, rfl, rfl, rfl⟩, rfl, List.append_assoc _ _ _⟩
  · simp only [hthree, if_neg hfull]
    exact ⟨⟨rfl, rfl, rfl, rfl⟩, hadd, trivial⟩

theorem crcShift_keeps (b : Bool) (t : Transmitter) : (crcShift b t).temp = t.temp ∧
    (crcShift b t).temp2 = t.temp2 ∧ (crcShift b t).consecutiveOnes = t.consecutiveOnes ∧
      (crcShift b t).sent = t.sent := by
  rw [crcShift]
  dsimp only
  split <;> exact ⟨rfl, rfl, rfl, rfl⟩

theorem txContentOf_spec (h : t.Tracks s crc) (hs : s.ones < RUN) (b : Bool) :
    (txContentOf timer b t).Tracks (s.push RUN b) (crcStep crc b) ∧
      (txContentOf timer b t).temp = t.temp ∧ (txContentOf timer b t).temp2 = t.temp2 := by
  obtain ⟨htemp, htemp2, hones, hsent⟩ := crcShift_keeps b t
  have hcrc := crcShift_spec b t
  rw [h.crc] at hcrc
  cases b with
  | true =>
    obtain ⟨hsame, hones', hsent'⟩ := txStuffedOne_spec timer
      ((congrArg BitVec.toNat hones).trans h.ones) hs (hsent.trans h.sent)
    rw [txContentOf, if_pos rfl, txContentOne]
    refine ⟨⟨hones', hsent', ?_⟩, hsame.temp.trans htemp, hsame.temp2.trans htemp2⟩
    rw [hsame.crcRegHigh, hsame.crcRegLow, hcrc]
  | false =>
    obtain ⟨hsame, hones', hsent'⟩ := txStuffedZero_spec timer (crcShift false t)
    rw [txContentOf, if_neg Bool.false_ne_true, txContentZero]
    refine ⟨⟨?_, ?_, ?_⟩, hsame.temp.trans htemp, hsame.temp2.trans htemp2⟩
    · rw [hones']
      rfl
    · rw [hsent', hsent, h.sent]
      rfl
    · rw [hsame.crcRegHigh, hsame.crcRegLow, hcrc]

theorem push_ones_lt (hs : s.ones < RUN) (b : Bool) : (s.push RUN b).ones < RUN := by
  cases b with
  | false => exact Nat.zero_lt_succ 2
  | true =>
    rw [Stuffer.push]
    split_ifs
    · exact Nat.zero_lt_succ 2
    · dsimp only
      omega

theorem foldl_push_ones_lt (hs : s.ones < RUN) (l : List Bool) :
    (l.foldl (Stuffer.push RUN) s).ones < RUN := by
  induction l generalizing s with
  | nil => exact hs
  | cons b l ih => exact ih (push_ones_lt hs b)

theorem foldl_txContentOf (h : t.Tracks s crc) (hs : s.ones < RUN) (l : List Bool) :
    (l.foldl (fun t b => txContentOf timer b t) t).Tracks (l.foldl (Stuffer.push RUN) s)
      (l.foldl crcStep crc) := by
  induction l generalizing t s crc with
  | nil => exact h
  | cons b l ih => exact ih (txContentOf_spec timer h hs b).1 (push_ones_lt hs b)

theorem lowFirst_rrf (x : Byte) (carry : Bool) {n : ℕ} (hn : n < 8) :
    lowFirst x (n + 1) = (rrf x carry).2 :: lowFirst (rrf x carry).1 n := by
  rw [lowFirst, List.range_succ_eq_map, List.map_cons, List.map_map, lowFirst]
  congr 1
  apply List.map_congr_left
  intro i hi
  have hlt : i < 7 := by
    have hrange := List.mem_range.mp hi
    omega
  simp [rrf, Nat.add_comm, hlt]

theorem txContent_spec (h : t.Tracks s crc) (hs : s.ones < RUN) {n : ℕ} (hn : n ≤ 8) :
    (txContent timer n t).Tracks ((lowFirst t.temp n).foldl (Stuffer.push RUN) s)
      ((lowFirst t.temp n).foldl crcStep crc) ∧ (txContent timer n t).temp2 = t.temp2 := by
  induction n generalizing t s crc with
  | zero => exact ⟨h, rfl⟩
  | succ n ih =>
    obtain ⟨hbit, htemp, htemp2⟩ := txContentOf_spec timer (t := { t with
      temp := (rrf t.temp t.carry).1, carry := (rrf t.temp t.carry).2 })
      ⟨h.ones, h.sent, h.crc⟩ hs (rrf t.temp t.carry).2
    obtain ⟨hrest, hrest2⟩ := ih hbit (push_ones_lt hs _) (by omega)
    rw [htemp] at hrest
    rw [lowFirst_rrf t.temp t.carry (by omega)]
    exact ⟨hrest, hrest2.trans htemp2⟩

theorem txSendFlag_spec (t : Transmitter) : (txSendFlag timer t).consecutiveOnes = 0 ∧
    (txSendFlag timer t).sent = t.sent ++ flag RUN ∧
      (txSendFlag timer t).crcRegLow = t.crcRegLow ∧
        (txSendFlag timer t).crcRegHigh = t.crcRegHigh := by
  have hflag : flag RUN = [false, true, true, true, true, false] := rfl
  rw [hflag]
  simp [txSendFlag, txSend]

def preamble : List Bool := flag RUN ++ flag RUN ++ flag RUN ++ flag RUN

theorem txBeginContent_spec (t : Transmitter) :
    (txBeginContent timer t).Tracks ⟨0, t.sent ++ preamble⟩ 0 := by
  refine ⟨?_, ?_, ?_⟩
  all_goals simp only [txBeginContent, Function.iterate_succ, Function.iterate_zero,
    Function.comp_apply, id, txSendFlag_spec timer, preamble, List.append_assoc]
  all_goals rfl

theorem iterate_crcShift (t : Transmitter) (n : ℕ) :
    ((crcShift false)^[n] t).crcRegHigh ++ ((crcShift false)^[n] t).crcRegLow =
        (List.replicate n false).foldl crcStep (t.crcRegHigh ++ t.crcRegLow) ∧
      ((crcShift false)^[n] t).consecutiveOnes = t.consecutiveOnes ∧
        ((crcShift false)^[n] t).sent = t.sent := by
  induction n with
  | zero => exact ⟨rfl, rfl, rfl⟩
  | succ n ih =>
    obtain ⟨hcrc, hones, hsent⟩ := ih
    obtain ⟨-, -, hones', hsent'⟩ := crcShift_keeps false ((crcShift false)^[n] t)
    rw [Function.iterate_succ_apply', crcShift_spec, hcrc, List.replicate_succ',
      List.foldl_append]
    exact ⟨rfl, hones'.trans hones, hsent'.trans hsent⟩

theorem txEndContent_spec (h : t.Tracks s crc) (hs : s.ones < RUN) :
    (txEndContent timer t).sent =
      ((lowFirst ((List.replicate 16 false).foldl crcStep crc) 16).foldl
        (Stuffer.push RUN) s).sent ++ flag RUN := by
  obtain ⟨hcrc, hones, hsent⟩ := iterate_crcShift t 16
  generalize hshifted : (crcShift false)^[16] t = t₁ at *
  have h₁ : Tracks { t₁ with temp := t₁.crcRegLow, temp2 := t₁.crcRegHigh } s
      (t₁.crcRegHigh ++ t₁.crcRegLow) :=
    ⟨(congrArg BitVec.toNat hones).trans h.ones, hsent.trans h.sent, rfl⟩
  obtain ⟨h₂, htemp2⟩ := txContent_spec timer h₁ hs (Nat.le_refl 8)
  generalize ht₂ : txContent timer 8 { t₁ with temp := t₁.crcRegLow, temp2 := t₁.crcRegHigh } = t₂
    at *
  have h₂' : Tracks { t₂ with temp := t₂.temp2 } _ _ := ⟨h₂.ones, h₂.sent, h₂.crc⟩
  obtain ⟨h₃, -⟩ := txContent_spec timer h₂' (foldl_push_ones_lt hs _) (Nat.le_refl 8)
  have hflag := (txSendFlag_spec timer (txContent timer 8 { t₂ with temp := t₂.temp2 })).2.1
  have hend : txEndContent timer t =
      txSendFlag timer (txContent timer 8 { t₂ with temp := t₂.temp2 }) := by
    rw [← ht₂, ← hshifted]
    rfl
  have hcheck : lowFirst (t₁.crcRegHigh ++ t₁.crcRegLow) 16 = _ := lowFirst_append _ _
  rw [hend, hflag, h₃.sent, ← h.crc, ← hcrc, hcheck, List.foldl_append]
  dsimp only
  rw [htemp2]

theorem txPacket_sent (content : List Bool) (t : Transmitter) :
    (txPacket timer content t).sent =
      ((checked content).foldl (Stuffer.push RUN) ⟨0, t.sent ++ preamble⟩).sent ++ flag RUN := by
  have h := foldl_txContentOf timer (txBeginContent_spec timer t) (Nat.zero_lt_succ 2) content
  rw [txPacket, txEndContent_spec timer h (foldl_push_ones_lt (Nat.zero_lt_succ 2) content), checked,
    List.foldl_append, crc16, List.foldl_append]

end Spec

end Transmitter

end NaviMisc.Therm
