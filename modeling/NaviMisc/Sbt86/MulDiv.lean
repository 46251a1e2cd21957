import Mathlib.Data.Nat.ModEq
import NaviMisc.Sbt86.Arith

/-!
`codegen_mul`, `codegen_imul` and `codegen_div` on the byte operands of the 8086.
-/

namespace NaviMisc.Sbt86

def MulOp.codegen : MulOp → Operand → Gen CStmt
  | .mul => codegenMul
  | .imul => codegenImul
  | .div => codegenDiv

def OffsetTerm.Addressing (t : OffsetTerm) : Prop :=
  match t with
  | .reg n => n = .w .bx ∨ n = .w .bp ∨ n = .w .si ∨ n = .w .di
  | .lit _ => True

def Operand.Addressing : Operand → Prop
  | .ind i => ∀ t ∈ i.offsets, t.Addressing
  | _ => True

theorem OffsetTerm.Addressing.not_uses {t : OffsetTerm} (h : t.Addressing) {k : Reg16}
    (hk : k ≠ .bx ∧ k ≠ .bp ∧ k ≠ .si ∧ k ≠ .di) : ¬t.Uses k := by
  cases t with
  | lit l => exact id
  | reg n =>
    rcases h with rfl | rfl | rfl | rfl
    · exact fun h => hk.1 h.symm
    · exact fun h => hk.2.1 h.symm
    · exact fun h => hk.2.2.1 h.symm
    · exact fun h => hk.2.2.2 h.symm

def Machine.ax (m : Machine) : ℕ := (m.getReg (.w .ax)).toNat

theorem Machine.ax_eq (m : Machine) : m.ax = (m.r.word .ax).toNat := by
  have := (m.r.word .ax).isLt
  simp only [ax, getReg, BitVec.toNat_setWidth]
  omega

theorem Machine.ax_lt (m : Machine) : m.ax < 2 ^ 16 := by
  rw [m.ax_eq]
  exact (m.r.word .ax).isLt

theorem Machine.al_eq (m : Machine) : (m.getReg (.b .al)).toNat = m.ax % 256 := by
  have h := m.r.toNat_byte_low .al rfl
  change (m.r.byte .al).toNat = (m.r.word .ax).toNat % 256 at h
  rw [m.ax_eq, getReg, BitVec.toNat_setWidth, h]
  omega

theorem Machine.ax_setAX (m : Machine) (v : BitVec 32) : (m.setReg (.w .ax) v).ax = v.toNat % 2 ^ 16 :=
  m.toNat_read_write (.reg (.w .ax)) v

theorem Machine.ax_setAL (m : Machine) (v : BitVec 32) :
    (m.setReg (.b .al) v).ax = v.toNat % 256 + 256 * (m.ax / 256) := by
  have hv := Nat.mod_lt v.toNat (y := 256) (by decide)
  rw [ax_eq, ax_eq]
  change ((m.r.word .ax).extractLsb' 8 8 ++ v.setWidth 8 : BitVec 16).toNat = _
  rw [BitVec.toNat_append, BitVec.toNat_setWidth, BitVec.extractLsb'_toNat, Nat.shiftRight_eq_div_pow,
    Nat.shiftLeft_add_eq_or_of_lt (by omega) _ |>.symm, Nat.shiftLeft_eq]
  have := (m.r.word .ax).isLt
  omega

theorem Machine.ax_setAH (m : Machine) (v : BitVec 32) :
    (m.setReg (.b .ah) v).ax = m.ax % 256 + 256 * (v.toNat % 256) := by
  have hv := Nat.mod_lt v.toNat (y := 256) (by decide)
  rw [ax_eq, ax_eq]
  change (v.setWidth 8 ++ (m.r.word .ax).extractLsb' 0 8 : BitVec 16).toNat = _
  rw [BitVec.toNat_append, BitVec.toNat_setWidth, BitVec.extractLsb'_toNat, Nat.shiftRight_eq_div_pow,
    Nat.shiftLeft_add_eq_or_of_lt (by omega) _ |>.symm, Nat.shiftLeft_eq]
  omega

theorem Machine.getReg_ax (m : Machine) : m.getReg (.w .ax) = BitVec.ofNat 32 m.ax := by
  rw [ax, BitVec.ofNat_toNat, BitVec.setWidth_eq]

theorem Machine.getReg_al (m : Machine) : m.getReg (.b .al) = BitVec.ofNat 32 (m.ax % 256) := by
  rw [← m.al_eq, BitVec.ofNat_toNat, BitVec.setWidth_eq]

theorem Machine.byte_setAL (m : Machine) (v : BitVec 32) {k : Reg8} (h : k ≠ .al) :
    (m.setReg (.b .al) v).r.byte k = m.r.byte k := by
  cases k with
  | al => exact absurd rfl h
  | ah => exact BitVec.extractLsb'_append_eq_left
  | _ => rfl

theorem Operand.denote_setAL {arg : Operand} (hw : arg.HasWidth .byte) (hp : arg.IsPlace)
    (ha : arg.Addressing) (h : arg ≠ .reg (.b .al)) (m : Machine) (v : BitVec 32) :
    arg.denote (m.setReg (.b .al) v) = arg.denote m := by
  cases arg with
  | reg n =>
    cases n with
    | w n => cases hw
    | b k =>
      have hk : k ≠ .al := fun hk => h (hk ▸ rfl)
      simp only [Operand.denote, Machine.getReg, m.byte_setAL v hk]
  | ind i =>
    have hword : ∀ n, n ≠ .ax → (m.setReg (.b .al) v).r.word n = m.r.word n := fun n hn => if_neg hn
    have hnot : ∀ t ∈ i.offsets, ¬t.Uses .ax := fun t ht => (ha t ht).not_uses (by decide)
    have hea := Indirect.ea_of_not_uses hword rfl rfl hnot
    simp only [Operand.denote, Indirect.loc, hea, hw.1]
    rfl
  | lit l => exact hp.elim
  | far a => exact hp.elim

section signedDivision

variable {a d : ℕ}

theorem msb_ofNat (ha : a < 2 ^ 16) : (BitVec.ofNat 32 a).msb = false := by
  rw [BitVec.msb_eq_false_iff_two_mul_lt, BitVec.toNat_ofNat]
  omega

theorem sdiv_ofNat (ha : a < 2 ^ 16) (hd : d < 2 ^ 16) :
    (BitVec.ofNat 32 a).sdiv (BitVec.ofNat 32 d) = BitVec.ofNat 32 (a / d) := by
  rw [BitVec.sdiv_eq, msb_ofNat ha, msb_ofNat hd]
  apply BitVec.eq_of_toNat_eq
  have hle := Nat.div_le_self a d
  have ha' : a % 2 ^ 32 = a := Nat.mod_eq_of_lt (by omega)
  have hd' : d % 2 ^ 32 = d := Nat.mod_eq_of_lt (by omega)
  have hq : a / d % 2 ^ 32 = a / d := Nat.mod_eq_of_lt (by omega)
  simp only [BitVec.udiv_eq, BitVec.toNat_udiv, BitVec.toNat_ofNat, ha', hd', hq]

theorem srem_ofNat (ha : a < 2 ^ 16) (hd : d < 2 ^ 16) :
    (BitVec.ofNat 32 a).srem (BitVec.ofNat 32 d) = BitVec.ofNat 32 (a % d) := by
  rw [BitVec.srem_eq, msb_ofNat ha, msb_ofNat hd]
  apply BitVec.eq_of_toNat_eq
  have hle := Nat.mod_le a d
  have ha' : a % 2 ^ 32 = a := Nat.mod_eq_of_lt (by omega)
  have hd' : d % 2 ^ 32 = d := Nat.mod_eq_of_lt (by omega)
  have hr : a % d % 2 ^ 32 = a % d := Nat.mod_eq_of_lt (by omega)
  simp only [BitVec.toNat_umod, BitVec.toNat_ofNat, ha', hd', hr]

theorem ofNat_ne_zero (hd : d < 2 ^ 16) (h : d ≠ 0) : BitVec.ofNat 32 d ≠ 0 := by
  intro h0
  have h1 : d % 2 ^ 32 = 0 := by rw [← BitVec.toNat_ofNat, h0]; rfl
  omega

end signedDivision

theorem mul_exec {arg : Operand} (hw : arg.HasWidth .byte) :
    ∃ code, codegenMul arg = .ok code ∧ ∀ m : Machine, ∃ m', code.exec m = .ok m' ∧
      m'.ax = m.ax % 256 * arg.denote m := by
  obtain ⟨e, he, hev⟩ := arg.codegen_ok hw
  refine ⟨_, by rw [codegenMul, he]; rfl, fun m => ⟨_, rfl, ?_⟩⟩
  have hd : arg.denote m < 256 := arg.denote_lt hw m
  have hlt : m.ax % 256 * arg.denote m < 256 * 256 := Nat.mul_lt_mul'' (Nat.mod_lt _ (by decide)) hd
  simp only [CExpr.eval, BinOp.apply, hev m, m.getReg_al]
  change (m.setReg (.w .ax) _).ax = _
  rw [m.ax_setAX, ← BitVec.ofNat_mul, BitVec.toNat_ofNat]
  omega

theorem imul_exec {arg : Operand} (hw : arg.HasWidth .byte) :
    ∃ code, codegenImul arg = .ok code ∧ ∀ m : Machine, ∃ m', code.exec m = .ok m' ∧
      (m'.ax : ℤ) = signedVal 8 (m.ax % 256) * arg.denote m % 2 ^ 16 := by
  obtain ⟨e, he, hev⟩ := arg.codegen_ok hw
  refine ⟨_, by rw [codegenImul, he]; rfl, fun m => ⟨_, rfl, ?_⟩⟩
  have hal := signExtend_setWidth .byte (m.ax % 256) (Nat.mod_lt _ (by decide))
  change _ = BitVec.ofInt 32 (signedVal 8 (m.ax % 256)) at hal
  simp only [CExpr.eval, BinOp.apply, CTy.cast, CTy.convert, hev m, m.getReg_al]
  change (((m.setReg (.w .ax) _).ax : ℕ) : ℤ) = _
  change BitVec.signExtend 32 (BitVec.setWidth 8 (BitVec.ofNat 32 (m.ax % 256))) = _ at hal
  rw [m.ax_setAX, hal, ← BitVec.ofInt_natCast, ← BitVec.ofInt_mul, BitVec.toNat_ofInt]
  omega

theorem div_exec {arg : Operand} (hw : arg.HasWidth .byte) :
    ∃ code, codegenDiv arg = .ok code ∧ ∀ (m : Machine) (q d' : ℕ), arg.denote m ≠ 0 →
      m.ax / arg.denote m = q → q ≤ 255 →
      arg.denote (m.setReg (.b .al) (BitVec.ofNat 32 q)) = d' → d' ≠ 0 →
      ∃ m', code.exec m = .ok m' ∧ m'.ax = q + 256 * ((256 * (m.ax / 256) + q) % d') := by
  obtain ⟨e, he, hev⟩ := arg.codegen_ok hw
  refine ⟨_, by rw [codegenDiv, he]; rfl, fun m q d' hd hq hle hd' hd0 => ?_⟩
  have hlt : arg.denote m < 2 ^ 8 := arg.denote_lt hw m
  let m₁ := m.setReg (.b .al) (BitVec.ofNat 32 q)
  have hlt' : d' < 2 ^ 8 := hd' ▸ arg.denote_lt hw m₁
  have hax₁ : m₁.ax = 256 * (m.ax / 256) + q := by
    rw [m.ax_setAL, BitVec.toNat_ofNat]
    omega
  have hquot : (CStmt.quot (.reg (.b .al)) (.reg (.w .ax)) e).exec m = .ok m₁ := by
    have hb : (CExpr.eval m (.reg (.w .ax))).bits.sdiv (e.eval m).bits = BitVec.ofNat 32 q := by
      rw [CExpr.eval, hev m, m.getReg_ax, sdiv_ofNat m.ax_lt (by omega), hq]
    rw [CStmt.exec, if_neg (by rw [hev m]; exact ofNat_ne_zero (by omega) hd), hb]
    rfl
  have hrem : (CStmt.rem (.reg (.b .ah)) (.reg (.w .ax)) e).exec m₁ =
      .ok (m₁.setReg (.b .ah) (BitVec.ofNat 32 (m₁.ax % d'))) := by
    have hb : (CExpr.eval m₁ (.reg (.w .ax))).bits.srem (e.eval m₁).bits =
        BitVec.ofNat 32 (m₁.ax % d') := by
      rw [CExpr.eval, hev m₁, hd', m₁.getReg_ax, srem_ofNat m₁.ax_lt (by omega)]
    rw [CStmt.exec, if_neg (by rw [hev m₁, hd']; exact ofNat_ne_zero (by omega) hd0), hb]
    rfl
  refine ⟨_, by rw [exec_ofList_cons _ hquot, exec_ofList_cons _ hrem]; rfl, ?_⟩
  have hr := Nat.mod_lt (256 * (m.ax / 256) + q) (Nat.pos_of_ne_zero hd0)
  rw [Machine.ax_setAH, BitVec.toNat_ofNat, hax₁]
  omega

/-- `codegen_imul` reads its operand unsigned, and `codegen_div` divides for the remainder after
AL already holds the quotient. -/
def MulOp.Faithful (op : MulOp) (m : Machine) (arg : Operand) : Prop :=
  match op with
  | .mul => True
  | .imul => arg.denote m < 128 ∨ m.ax % 256 = 0
  | .div =>
    if arg = .reg (.b .al) then
      256 * (m.ax / 256) % (m.ax / (m.ax % 256)) = 256 * (m.ax / 256) % (m.ax % 256)
    else m.ax / arg.denote m % arg.denote m = m.ax % 256 % arg.denote m

theorem imul_eq_iff {a d : ℕ} {x : ℕ} (ha : a < 256) (hd : d < 256)
    (hx : (x : ℤ) = signedVal 8 a * d % 2 ^ 16) :
    x = MulOp.imul.cpu a d ↔ d < 128 ∨ a = 0 := by
  have hmod : a % 256 = a := Nat.mod_eq_of_lt ha
  have hcpu : (MulOp.imul.cpu a d : ℤ) = signedVal 8 a * signedVal 8 d % 2 ^ 16 := by
    rw [MulOp.cpu, hmod, Int.toNat_of_nonneg (Int.emod_nonneg _ (by decide))]
  rw [← Int.natCast_inj, hcpu, hx]
  have hd' : signedVal 8 d = d ∧ d < 128 ∨ signedVal 8 d = d - 256 ∧ ¬d < 128 := by
    by_cases h : d < 128 <;> simp [signedVal, h]
  have ha' : signedVal 8 a = a ∧ a < 128 ∨ signedVal 8 a = a - 256 ∧ ¬a < 128 := by
    by_cases h : a < 128 <;> simp [signedVal, h]
  rcases hd' with ⟨h, hlt⟩ | ⟨h, hlt⟩
  · rw [h]
    exact iff_of_true rfl (.inl hlt)
  · rw [h, Int.mul_sub]
    generalize signedVal 8 a * (d : ℤ) = p
    omega

theorem div_eq_iff {ax q d : ℕ} :
    q + 256 * ((256 * (ax / 256) + q) % d) = q + 256 * (ax % d) ↔ q % d = ax % 256 % d := by
  have hax : ax = 256 * (ax / 256) + ax % 256 := (Nat.div_add_mod ax 256).symm
  constructor
  · intro h
    have hmod : (256 * (ax / 256) + q) % d = (256 * (ax / 256) + ax % 256) % d := by
      rw [← hax]
      omega
    exact Nat.ModEq.add_left_cancel' _ hmod
  · intro h
    have hmod : (256 * (ax / 256) + q) % d = (256 * (ax / 256) + ax % 256) % d :=
      Nat.ModEq.add_left _ h
    rw [hmod, ← hax]

theorem div_al_eq_iff {ax : ℕ} :
    ax / (ax % 256) + 256 * ((256 * (ax / 256) + ax / (ax % 256)) % (ax / (ax % 256))) =
        ax / (ax % 256) + 256 * (ax % (ax % 256)) ↔
      256 * (ax / 256) % (ax / (ax % 256)) = 256 * (ax / 256) % (ax % 256) := by
  have hax : ax % (ax % 256) = 256 * (ax / 256) % (ax % 256) := by
    have h := congrArg (· % (ax % 256)) (Nat.div_add_mod ax 256)
    simp only [Nat.add_mod_right] at h
    exact h.symm
  rw [Nat.add_mod_right, hax]
  omega

/-- `codegen_mul` always leaves the 8086 AX; `codegen_imul` and `codegen_div` leave it exactly
under `MulOp.Faithful`. -/
theorem mulDiv_simulates_iff (op : MulOp) (arg : Operand) (hw : arg.HasWidth .byte) (hp : arg.IsPlace)
    (ha : arg.Addressing) :
    ∃ code, op.codegen arg = .ok code ∧ ∀ m : Machine, op.Completes m.ax (arg.denote m) →
      ∃ m', code.exec m = .ok m' ∧ (m'.ax = op.cpu m.ax (arg.denote m) ↔ op.Faithful m arg) := by
  cases op with
  | mul =>
    obtain ⟨code, hcode, hrun⟩ := mul_exec hw
    refine ⟨code, hcode, fun m _ => ?_⟩
    obtain ⟨m', hm', hax⟩ := hrun m
    exact ⟨m', hm', iff_of_true hax trivial⟩
  | imul =>
    obtain ⟨code, hcode, hrun⟩ := imul_exec hw
    refine ⟨code, hcode, fun m _ => ?_⟩
    obtain ⟨m', hm', hax⟩ := hrun m
    refine ⟨m', hm', ?_⟩
    have hiff := imul_eq_iff (Nat.mod_lt m.ax (by decide)) (arg.denote_lt hw m) hax
    rwa [MulOp.cpu, Nat.mod_mod] at hiff
  | div =>
    obtain ⟨code, hcode, hrun⟩ := div_exec hw
    refine ⟨code, hcode, fun m hcomp => ?_⟩
    obtain ⟨hd, hq⟩ := hcomp rfl
    by_cases hal : arg = .reg (.b .al)
    · have hden (m₁ : Machine) : arg.denote m₁ = m₁.ax % 256 := by rw [hal]; exact m₁.al_eq
      have hq0 : m.ax / arg.denote m ≠ 0 := by
        have hle := Nat.mod_le m.ax 256
        have hpos := Nat.div_pos (hden m ▸ hle) (Nat.pos_of_ne_zero hd)
        omega
      have hnew : arg.denote (m.setReg (.b .al) (BitVec.ofNat 32 (m.ax / arg.denote m))) =
          m.ax / arg.denote m := by
        rw [hden (m.setReg _ _), m.ax_setAL, BitVec.toNat_ofNat]
        generalize m.ax / arg.denote m = q at *
        omega
      obtain ⟨m', hm', hax⟩ := hrun m _ _ hd rfl hq hnew hq0
      refine ⟨m', hm', ?_⟩
      rw [hax, MulOp.cpu, MulOp.Faithful, if_pos hal, hden m]
      exact div_al_eq_iff
    · have hsame := Operand.denote_setAL hw hp ha hal m
        (BitVec.ofNat 32 (m.ax / arg.denote m))
      obtain ⟨m', hm', hax⟩ := hrun m _ _ hd rfl hq hsame hd
      refine ⟨m', hm', ?_⟩
      rw [hax, MulOp.cpu, MulOp.Faithful, if_neg hal]
      exact div_eq_iff

theorem mulDiv_simulates_iff_div_bl :
    ∃ code m', MulOp.div.codegen (.reg (.b .bl)) = .ok code ∧
      code.exec ((Machine.cleared.setReg (.w .ax) 7).setReg (.b .bl) 2) = .ok m' ∧ m'.ax = 0x0103 := by
  obtain ⟨code, hcode, hrun⟩ :=
    mulDiv_simulates_iff .div (.reg (.b .bl)) (by decide) trivial trivial
  obtain ⟨m', hm', hiff⟩ := hrun ((Machine.cleared.setReg (.w .ax) 7).setReg (.b .bl) 2)
    (fun _ => by decide)
  exact ⟨code, m', hcode, hm', hiff.mpr (by rw [MulOp.Faithful, if_neg (by decide)]; decide)⟩

theorem mulDiv_diverges :
    (∃ code m', codegenImul (.reg (.b .bl)) = .ok code ∧
      code.exec ((Machine.cleared.setReg (.w .ax) 1).setReg (.b .bl) 0xFF) = .ok m' ∧
      m'.ax = 0x00FF ∧ MulOp.imul.cpu 1 0xFF = 0xFFFF) ∧
    (∃ code m', codegenDiv (.reg (.b .bl)) = .ok code ∧
      code.exec ((Machine.cleared.setReg (.w .ax) 6).setReg (.b .bl) 4) = .ok m' ∧
      m'.ax = 0x0101 ∧ MulOp.div.Completes 6 4 ∧ MulOp.div.cpu 6 4 = 0x0201) := by
  refine ⟨⟨_, _, rfl, rfl, ?_, ?_⟩, ⟨_, _, rfl, rfl, ?_, ?_, ?_⟩⟩
  · decide
  · decide
  · decide
  · exact fun _ => by decide
  · decide

end NaviMisc.Sbt86
