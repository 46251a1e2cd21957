import NaviMisc.Sbt86.ShiftLoop

/-!
The shifts and rotates against the 8086, for every operand, count and flag state.
-/

namespace NaviMisc.Sbt86

open Lib.Bits

/-- The registers `r'` and the operand `x'` are what the 8086 leaves after shifting `x` by `c`. -/
def ShiftOp.Simulates (op : ShiftOp) (w : Width) (x c : ℕ) (r r' : SBTRegs) (x' : ℕ) : Prop :=
  let out := (op.step w.bits)^[c] (x, r.getCF)
  x' = out.1 ∧ r'.getCF = out.2 ∧
    (c = 0 → r'.getZF = r.getZF ∧ r'.getSF = r.getSF ∧ r'.getOF = r.getOF) ∧
    (op.setsZS = true → 0 < c →
      r'.getZF = decide (out.1 = 0) ∧ r'.getSF = decide (2 ^ (w.bits - 1) ≤ out.1))

def SBTRegs.ByteAligned (r : SBTRegs) : Prop :=
  let u := r.uresult.toNat
  let s := r.sresult.toNat
  bit u 8 = bit u 16 ∧ (u % 2 ^ 8 = 0 ↔ u % 2 ^ 16 = 0) ∧ bit u 7 = bit u 15 ∧
    (bit s 8 ^^ bit s 7) = (bit s 16 ^^ bit s 15)

def ShiftOp.Faithful (op : ShiftOp) (w : Width) (x c : ℕ) (r : SBTRegs) : Prop :=
  match op with
  | .shl => c ≠ 0 ∨ w = .word ∨ r.ByteAligned
  | .shr => c = 0 ∨ x < 2 ^ c
  | .sar => c = 0 ∨ x < 2 ^ (w.bits - 1) ∧ x < 2 ^ c
  | .ror | .rcl | .rcr => True

theorem shr_iterate (w c x : ℕ) (b : Bool) : ((ShiftOp.step .shr w)^[c] (x, b)).1 = x / 2 ^ c := by
  induction c generalizing x b with
  | zero => simp
  | succ c ih =>
    rw [Function.iterate_succ_apply, ShiftOp.step, ih, Nat.div_div_eq_div_mul, ← Nat.pow_succ']

theorem sar_iterate (w c x : ℕ) (b : Bool) (hx : x < 2 ^ (w - 1)) :
    ((ShiftOp.step .sar w)^[c] (x, b)).1 = x / 2 ^ c := by
  induction c generalizing x b with
  | zero => simp
  | succ c ih =>
    have hd : decide (2 ^ (w - 1) ≤ x) = false := by simpa using hx
    rw [Function.iterate_succ_apply, ShiftOp.step]
    simp only [hd, Bool.toNat_false, Nat.zero_mul, Nat.add_zero]
    rw [ih (x / 2) _ (by omega), Nat.div_div_eq_div_mul, ← Nat.pow_succ']

theorem sar_iterate_neg (w c x : ℕ) (b : Bool) (hx : 2 ^ (w - 1) ≤ x) :
    2 ^ (w - 1) ≤ ((ShiftOp.step .sar w)^[c] (x, b)).1 := by
  induction c generalizing x b with
  | zero => exact hx
  | succ c ih =>
    have hd : decide (2 ^ (w - 1) ≤ x) = true := by simpa using hx
    rw [Function.iterate_succ_apply, ShiftOp.step]
    simp only [hd, Bool.toNat_true, Nat.one_mul]
    exact ih _ _ (Nat.le_add_left _ _)

theorem shl_iterate_carry (w c x : ℕ) (b b' : Bool) (hc : c ≠ 0) :
    (ShiftOp.step .shl w)^[c] (x, b) = (ShiftOp.step .shl w)^[c] (x, b') := by
  cases c with
  | zero => exact absurd rfl hc
  | succ c => rw [Function.iterate_succ_apply, Function.iterate_succ_apply]; rfl

section words

variable {w : Width} {c : ℕ} (p : ℕ × BitVec 32)

theorem shl_uresult (hc : c ≠ 0) :
    ((ShiftOp.codeStep .shl w)^[c] p).1 = ((ShiftOp.codeStep .shl w)^[c] p).2.toNat % 2 ^ w.bits := by
  cases c with
  | zero => exact absurd rfl hc
  | succ c => rw [Function.iterate_succ_apply']; rfl

theorem low_uresult {op : ShiftOp} (hop : op = .shr ∨ op = .sar) (hc : c ≠ 0) :
    ((op.codeStep w)^[c] p).2.toNat % 2 ^ 16 = 0 := by
  cases c with
  | zero => exact absurd rfl hc
  | succ c =>
    rw [Function.iterate_succ_apply']
    generalize (op.codeStep w)^[c] p = q
    have hlow : (op.codeStep w q).2.toNat = q.1 % 2 * 2 ^ 16 := by
      rcases hop with rfl | rfl
      · exact toNat_low q.1
      · exact toNat_low q.1
    rw [hlow]
    omega

end words

theorem bit_of_mod_eq_zero {n : ℕ} (h : n % 2 ^ 16 = 0) : bit n 15 = false := by
  unfold bit
  apply decide_eq_false
  omega

section compare

variable {w : Width} {x c x' : ℕ} {r r' : SBTRegs}

theorem simulates_carry {op : ShiftOp} (hop : op ≠ .shl) (hx : x < 2 ^ w.bits)
    (hsafe : op.StepSafe w x) (hx' : x' = ((op.codeStep w)^[c] (x, r.uresult)).1)
    (hu : r'.uresult = ((op.codeStep w)^[c] (x, r.uresult)).2) :
    (op.step w.bits)^[c] (x, r.getCF) = (x', r'.getCF) := by
  have hbit : op.carryBit w = 16 := by cases op <;> first | rfl | exact absurd rfl hop
  have hiter := codeStep_iterate_simulates op w c (x, r.uresult) hx hsafe
  rw [hbit] at hiter
  rw [r.getCF_eq, hiter, r'.getCF_eq, hx', hu]

theorem unchanged_flags (hu : r'.uresult = r.uresult) (hs : r'.sresult = r.sresult) :
    r'.getCF = r.getCF ∧ r'.getZF = r.getZF ∧ r'.getSF = r.getSF ∧ r'.getOF = r.getOF := by
  simp only [SBTRegs.getCF, SBTRegs.getZF, SBTRegs.getSF, SBTRegs.getOF, hu, hs, and_self]

theorem rotate_simulates {op : ShiftOp} (hop : op.setsZS = false) (hx : x < 2 ^ w.bits)
    (hx' : x' = ((op.codeStep w)^[c] (x, r.uresult)).1)
    (hu : r'.uresult = ((op.codeStep w)^[c] (x, r.uresult)).2)
    (hs : r'.sresult = if c = 0 then r.sresult else 0) : op.Simulates w x c r r' x' := by
  have hne : op ≠ .shl := by rintro rfl; cases hop
  have hsafe : op.StepSafe w x := by rintro rfl; cases hop
  have hout := simulates_carry hne hx hsafe hx' hu
  refine ⟨?_, ?_, ?_, ?_⟩
  · rw [hout]
  · rw [hout]
  · rintro rfl
    exact (unchanged_flags hu hs).2
  · rw [hop]
    intro h
    cases h

theorem shiftRight_simulates_iff {op : ShiftOp} (hop : op = .shr ∨ op = .sar) (hx : x < 2 ^ w.bits)
    (hx' : x' = ((op.codeStep w)^[c] (x, r.uresult)).1)
    (hu : r'.uresult = ((op.codeStep w)^[c] (x, r.uresult)).2)
    (hs : r'.sresult = if c = 0 then r.sresult else 0) :
    op.Simulates w x c r r' x' ↔ c = 0 ∨ ((op.step w.bits)^[c] (x, r.getCF)).1 = 0 := by
  have hne : op ≠ .shl := by rcases hop with rfl | rfl <;> decide
  have hset : op.setsZS = true := by rcases hop with rfl | rfl <;> rfl
  by_cases hc : c = 0
  · subst hc
    obtain ⟨hCF, hrest⟩ := unchanged_flags hu hs
    refine ⟨fun _ => .inl rfl, fun _ => ⟨hx', hCF, fun _ => hrest, ?_⟩⟩
    intro _ h
    exact absurd h (lt_irrefl 0)
  · have hlow := low_uresult (x, r.uresult) (w := w) hop hc
    rw [← hu] at hlow
    have hZF : r'.getZF = true := by rw [r'.getZF_eq]; exact decide_eq_true hlow
    have hSF : r'.getSF = false := by rw [r'.getSF_eq]; exact bit_of_mod_eq_zero hlow
    constructor
    · rintro ⟨-, -, -, hflags⟩
      right
      obtain ⟨hz, -⟩ := hflags hset (Nat.pos_of_ne_zero hc)
      rw [hZF] at hz
      exact of_decide_eq_true hz.symm
    · rintro (h | h)
      · exact absurd h hc
      · have hsafe : op.StepSafe w x := by
          rintro rfl rfl
          by_contra hneg
          have hge := sar_iterate_neg 8 c x r.getCF (Nat.le_of_not_lt hneg)
          rw [show (8 : ℕ) = Width.byte.bits from rfl, h] at hge
          exact absurd hge (by decide)
        have hout := simulates_carry hne hx hsafe hx' hu
        refine ⟨?_, ?_, fun h0 => absurd h0 hc, fun _ _ => ⟨?_, ?_⟩⟩
        · rw [hout]
        · rw [hout]
        · rw [hZF, h]
          rfl
        · rw [hSF, h]
          exact (decide_eq_false (by cases w <;> decide)).symm

theorem shl_simulates_iff (hx : x < 2 ^ w.bits)
    (hx' : x' = ((ShiftOp.codeStep .shl w)^[c] (x, r.uresult)).1)
    (hu : r'.uresult = w.shifted ((ShiftOp.codeStep .shl w)^[c] (x, r.uresult)).2)
    (hs : r'.sresult = w.shifted (if c = 0 then r.sresult else 0)) :
    ShiftOp.shl.Simulates w x c r r' x' ↔ c ≠ 0 ∨ w = .word ∨ r.ByteAligned := by
  have hCF := getCF_shifted w r' _ hu
  have hZF := getZF_shifted w r' _ hu
  have hSF := getSF_shifted w r' _ hu
  have hOF := getOF_shifted w r' _ hs
  by_cases hc : c = 0
  · subst hc
    rw [if_pos rfl] at hOF hs
    have hno : ShiftOp.shl.setsZS = true → 0 < 0 → r'.getZF = decide (x = 0) ∧
        r'.getSF = decide (2 ^ (w.bits - 1) ≤ x) := fun _ h => absurd h (lt_irrefl 0)
    cases w with
    | word =>
      obtain ⟨h, hrest⟩ := @unchanged_flags r r' hu hs
      exact ⟨fun _ => .inr (.inl rfl), fun _ => ⟨hx', h, fun _ => hrest, hno⟩⟩
    | byte =>
      rw [Function.iterate_zero, id] at hCF hZF hSF
      constructor
      · rintro ⟨-, h, hflags, -⟩
        obtain ⟨hz, hsf, hof⟩ := hflags rfl
        right
        right
        refine ⟨?_, ?_, ?_, ?_⟩
        · exact hCF.symm.trans (h.trans r.getCF_eq)
        · exact decide_eq_decide.mp (hZF.symm.trans (hz.trans r.getZF_eq))
        · exact hSF.symm.trans (hsf.trans r.getSF_eq)
        · exact hOF.symm.trans (hof.trans r.getOF_eq)
      · rintro (h | h | ⟨h₁, h₂, h₃, h₄⟩)
        · exact absurd rfl h
        · cases h
        · refine ⟨hx', hCF.trans (h₁.trans r.getCF_eq.symm), fun _ => ⟨?_, ?_, ?_⟩, hno⟩
          · exact hZF.trans ((decide_eq_decide.mpr h₂).trans r.getZF_eq.symm)
          · exact hSF.trans (h₃.trans r.getSF_eq.symm)
          · exact hOF.trans (h₄.trans r.getOF_eq.symm)
  · have hiter := codeStep_iterate_simulates .shl w c (x, r.uresult) hx (fun h => by cases h)
    rw [shl_iterate_carry _ _ _ _ r.getCF hc] at hiter
    have hval := shl_uresult (x, r.uresult) (w := w) hc
    have hlt := Nat.mod_lt ((ShiftOp.codeStep .shl w)^[c] (x, r.uresult)).2.toNat (Nat.two_pow_pos w.bits)
    refine ⟨fun _ => .inl hc, fun _ => ⟨?_, ?_, fun h0 => absurd h0 hc, fun _ _ => ⟨?_, ?_⟩⟩⟩
    · rw [hiter, hx']
    · rw [hiter, hCF]
      rfl
    · rw [hiter, hZF, hval]
    · rw [hiter, hSF, hval]
      generalize ((ShiftOp.codeStep .shl w)^[c] (x, r.uresult)).2.toNat = u at *
      apply decide_eq_decide.mpr
      rcases w.bits_cases with h | h <;> rw [h] <;> omega

end compare

/-- The C of a shift or rotate leaves the 8086 operand, carry and flags exactly when:
a byte `shl` by zero finds flags that survive a shift by 8, a `shr` leaves zero, and a `sar`
shifts a nonnegative operand to zero; the rotates always do. -/
theorem shift_simulates_iff (op : ShiftOp) (w : Width) (dest cnt : Operand) (hd : dest.HasWidth w)
    (hp : dest.IsPlace) (hs : dest.Static) (hc : cnt.IsCount) :
    ∃ code, op.codegen dest cnt = .ok code ∧ ∀ m : Machine, ∃ m' l,
      code.exec m = .ok m' ∧ dest.loc m = some l ∧
      (op.Simulates w (dest.denote m) (cnt.denote m) m.r m'.r (m'.read l).toNat ↔
        op.Faithful w (dest.denote m) (cnt.denote m) m.r) := by
  obtain ⟨code, hcode, hrun⟩ := shift_exec op w dest cnt hd hp hs hc
  refine ⟨code, hcode, fun m => ?_⟩
  obtain ⟨m', l, hm', hl, hx', hu, hs'⟩ := hrun m
  refine ⟨m', l, hm', hl, ?_⟩
  have hx := dest.denote_lt hd m
  generalize dest.denote m = x at *
  generalize cnt.denote m = c at *
  cases op with
  | shl => exact shl_simulates_iff hx hx' hu hs'
  | shr =>
    rw [shiftRight_simulates_iff (.inl rfl) hx hx' hu hs', shr_iterate]
    exact or_congr_right (Nat.div_eq_zero_iff_lt (Nat.two_pow_pos c))
  | sar =>
    rw [shiftRight_simulates_iff (.inr rfl) hx hx' hu hs']
    apply or_congr_right
    by_cases hpos : x < 2 ^ (w.bits - 1)
    · rw [sar_iterate _ _ _ _ hpos, Nat.div_eq_zero_iff_lt (Nat.two_pow_pos c)]
      simp only [hpos, true_and]
    · have hge := sar_iterate_neg w.bits c x m.r.getCF (Nat.le_of_not_lt hpos)
      have hpow := Nat.two_pow_pos (w.bits - 1)
      simp only [hpos, false_and, iff_false]
      omega
  | ror => exact iff_of_true (rotate_simulates rfl hx hx' hu hs') trivial
  | rcl => exact iff_of_true (rotate_simulates rfl hx hx' hu hs') trivial
  | rcr => exact iff_of_true (rotate_simulates rfl hx hx' hu hs') trivial

theorem shift_simulates_iff_sar_al_cl :
    ∃ code, ShiftOp.sar.codegen (.reg (.b .al)) (.reg (.b .cl)) = .ok code ∧ ∀ m : Machine, ∃ m' l,
      code.exec m = .ok m' ∧ Operand.loc m (.reg (.b .al)) = some l ∧
      (ShiftOp.sar.Simulates .byte (Operand.denote m (.reg (.b .al))) (Operand.denote m (.reg (.b .cl)))
          m.r m'.r (m'.read l).toNat ↔
        ShiftOp.sar.Faithful .byte (Operand.denote m (.reg (.b .al)))
          (Operand.denote m (.reg (.b .cl))) m.r) :=
  shift_simulates_iff .sar .byte (.reg (.b .al)) (.reg (.b .cl)) (by decide) trivial trivial (.inl rfl)

theorem shift_diverges :
    (∃ code m', codegenShl (.reg (.b .al)) (.reg (.b .cl)) = .ok code ∧
      code.exec (Machine.cleared.withResult 0x10000 0) = .ok m' ∧
      ¬ShiftOp.shl.Simulates .byte 0 0 (Machine.cleared.withResult 0x10000 0).r m'.r
        (m'.read (.reg (.b .al))).toNat) ∧
    (∃ code m', codegenShr (.reg (.w .ax)) (.lit (.const 1)) = .ok code ∧
      code.exec (Machine.cleared.setReg (.w .ax) 4) = .ok m' ∧
      ¬ShiftOp.shr.Simulates .word 4 1 (Machine.cleared.setReg (.w .ax) 4).r m'.r
        (m'.read (.reg (.w .ax))).toNat) ∧
    (∃ code m', codegenSar (.reg (.b .al)) (.lit (.const 1)) = .ok code ∧
      code.exec (Machine.cleared.setReg (.b .al) 0x80) = .ok m' ∧
      ¬ShiftOp.sar.Simulates .byte 0x80 1 (Machine.cleared.setReg (.b .al) 0x80).r m'.r
        (m'.read (.reg (.b .al))).toNat) := by
  refine ⟨⟨_, _, rfl, rfl, ?_⟩, ⟨_, _, rfl, rfl, ?_⟩, ⟨_, _, rfl, rfl, ?_⟩⟩
  · intro h
    exact absurd h.2.1 (by decide)
  · intro h
    exact absurd (h.2.2.2 rfl (by decide)).1 (by decide)
  · intro h
    exact absurd h.1 (by decide)

end NaviMisc.Sbt86
