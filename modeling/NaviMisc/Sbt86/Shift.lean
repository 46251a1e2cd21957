import NaviMisc.Sbt86.Arith

/-!
One pass of a shift or rotate loop, as the emitted C computes it on the operand
and `uresult`, against one bit of the 8086 instruction.
-/

namespace NaviMisc.Sbt86

open Lib.Bits

def ShiftOp.codeStep (op : ShiftOp) (w : Width) (p : ℕ × BitVec 32) : ℕ × BitVec 32 :=
  let x := BitVec.ofNat 32 p.1
  let cf := (CVal.ofBool (bit p.2.toNat 16)).bits
  let low := (x &&& 1#32) <<< 16
  match op with
  | .shl => ((x <<< 1).toNat % 2 ^ w.bits, x <<< 1)
  | .shr => ((x.sshiftRight 1).toNat % 2 ^ w.bits, low)
  | .sar => ((((x.setWidth 16).signExtend 32).sshiftRight 1).toNat % 2 ^ w.bits, low)
  | .ror => ((x.sshiftRight 1 + x <<< (w.bits - 1)).toNat % 2 ^ w.bits, low)
  | .rcl => ((x <<< 1 + cf).toNat % 2 ^ w.bits, w.shifted (x <<< 1 + cf))
  | .rcr => ((x.sshiftRight 1 + cf <<< (w.bits - 1)).toNat % 2 ^ w.bits, x <<< 16)

def ShiftOp.carryBit (op : ShiftOp) (w : Width) : ℕ :=
  match op with
  | .shl => w.bits
  | _ => 16

theorem toNat_shl {x : ℕ} (hx : x < 2 ^ 16) (k : ℕ) (hk : k ≤ 15) :
    (BitVec.ofNat 32 x <<< k).toNat = x * 2 ^ k := by
  have hp : 2 ^ k ≤ 2 ^ 15 := Nat.pow_le_pow_right (by decide) hk
  have hmul : x * 2 ^ k ≤ x * 2 ^ 15 := Nat.mul_le_mul_left x hp
  have hmod : x % 2 ^ 32 = x := Nat.mod_eq_of_lt (by omega)
  rw [BitVec.toNat_shiftLeft, BitVec.toNat_ofNat, Nat.shiftLeft_eq, hmod]
  omega

theorem toNat_sshiftRight_one {x : ℕ} (hx : x < 2 ^ 16) :
    ((BitVec.ofNat 32 x).sshiftRight 1).toNat = x / 2 := by
  have hn : (BitVec.ofNat 32 x).toNat = x := by rw [BitVec.toNat_ofNat]; omega
  have hmsb : (BitVec.ofNat 32 x).msb = false := by
    rw [BitVec.msb_eq_false_iff_two_mul_lt, hn]; omega
  rw [BitVec.sshiftRight_eq_of_msb_false hmsb, BitVec.toNat_ushiftRight, hn,
    Nat.shiftRight_eq_div_pow]

theorem toNat_sar16 {x : ℕ} (hx : x < 2 ^ 16) :
    ((((BitVec.ofNat 32 x).setWidth 16).signExtend 32).sshiftRight 1).toNat % 2 ^ 16 =
      x / 2 + (decide (2 ^ 15 ≤ x)).toNat * 2 ^ 15 := by
  have hse : ((BitVec.ofNat 32 x).setWidth 16).signExtend 32 = BitVec.ofInt 32 (signedVal 16 x) :=
    signExtend_setWidth .word x hx
  rw [hse]
  by_cases hneg : x < 2 ^ 15
  · have hs : signedVal 16 x = x := if_pos hneg
    have hd : decide (2 ^ 15 ≤ x) = false := by simpa using hneg
    rw [hs, BitVec.ofInt_natCast, toNat_sshiftRight_one hx, hd]
    simp only [Bool.toNat_false]
    omega
  · have hs : BitVec.ofInt 32 (signedVal 16 x) = BitVec.ofNat 32 (x + (2 ^ 32 - 2 ^ 16)) := by
      apply BitVec.eq_of_toNat_eq
      rw [BitVec.toNat_ofInt, BitVec.toNat_ofNat]
      simp only [signedVal, show ¬x < 2 ^ (16 - 1) from hneg, if_false]
      omega
    have hn : (BitVec.ofNat 32 (x + (2 ^ 32 - 2 ^ 16))).toNat = x + (2 ^ 32 - 2 ^ 16) := by
      rw [BitVec.toNat_ofNat]; omega
    have hmsb : (BitVec.ofNat 32 (x + (2 ^ 32 - 2 ^ 16))).msb = true := by
      rw [BitVec.msb_eq_true_iff_two_mul_ge, hn]; omega
    have hd : decide (2 ^ 15 ≤ x) = true := by simpa using hneg
    rw [hs, BitVec.sshiftRight_eq_of_msb_true hmsb, BitVec.toNat_not,
      BitVec.toNat_ushiftRight, BitVec.toNat_not, hn, Nat.shiftRight_eq_div_pow, hd]
    simp only [Bool.toNat_true]
    omega

theorem toNat_carryBits (b : Bool) : (CVal.ofBool b).bits.toNat = b.toNat := by cases b <;> rfl

theorem toNat_low (x : ℕ) : ((BitVec.ofNat 32 x &&& 1#32) <<< 16).toNat = x % 2 * 2 ^ 16 := by
  have hand : (BitVec.ofNat 32 x &&& 1#32).toNat = x % 2 := by
    have h := toNat_and_mask (BitVec.ofNat 32 x) 1 (by decide)
    rw [BitVec.toNat_ofNat] at h
    exact h.trans (by omega)
  rw [BitVec.toNat_shiftLeft, hand, Nat.shiftLeft_eq]
  omega

theorem codeStep_lt (op : ShiftOp) (w : Width) (p : ℕ × BitVec 32) :
    (op.codeStep w p).1 < 2 ^ w.bits := by
  cases op <;> exact Nat.mod_lt _ (Nat.two_pow_pos _)

def ShiftOp.StepSafe (op : ShiftOp) (w : Width) (x : ℕ) : Prop :=
  op = .sar → w = .byte → x < 2 ^ 7

theorem bit_low (x : ℕ) :
    bit ((BitVec.ofNat 32 x &&& 1#32) <<< 16).toNat 16 = decide (x % 2 = 1) := by
  rw [toNat_low, bit]
  apply decide_eq_decide.mpr
  omega

theorem bit_high {w : Width} {x n : ℕ} (hx : x < 2 ^ w.bits) (hn : n / 2 = x) :
    bit n w.bits = decide (2 ^ (w.bits - 1) ≤ x) := by
  apply decide_eq_decide.mpr
  obtain h | h := w.bits_cases
  · rw [h] at hx ⊢
    omega
  · rw [h] at hx ⊢
    omega

theorem toNat_sar8 {x : ℕ} (hx : x < 2 ^ 7) :
    ((((BitVec.ofNat 32 x).setWidth 16).signExtend 32).sshiftRight 1).toNat % 2 ^ 8 =
      x / 2 + (decide (2 ^ 7 ≤ x)).toNat * 2 ^ 7 := by
  have h16 := toNat_sar16 (show x < 2 ^ 16 by omega)
  have hd : decide (2 ^ 7 ≤ x) = false := by simpa using hx
  have hd16 : decide (2 ^ 15 ≤ x) = false := by simp; omega
  rw [hd16, Bool.toNat_false] at h16
  rw [hd, Bool.toNat_false]
  omega

theorem toNat_ror {w : Width} {x : ℕ} (hx : x < 2 ^ w.bits) :
    (x / 2 + x * 2 ^ (w.bits - 1)) % 2 ^ w.bits =
      x / 2 + (decide (x % 2 = 1)).toNat * 2 ^ (w.bits - 1) := by
  have hw : w.bits = 8 ∨ w.bits = 16 := w.bits_cases
  by_cases hodd : x % 2 = 1
  · simp only [hodd, decide_true, Bool.toNat_true]
    rcases hw with h | h <;> rw [h] at hx ⊢ <;> omega
  · simp only [hodd, decide_false, Bool.toNat_false]
    rcases hw with h | h <;> rw [h] at hx ⊢ <;> omega

theorem toNat_rcl {x : ℕ} (hx : x < 2 ^ 16) (b : Bool) :
    (BitVec.ofNat 32 x <<< 1 + (CVal.ofBool b).bits).toNat = 2 * x + b.toNat := by
  have hb : b.toNat ≤ 1 := Bool.toNat_le _
  rw [BitVec.toNat_add, toNat_shl hx 1 (by decide), toNat_carryBits]
  omega

theorem codeStep_simulates (op : ShiftOp) (w : Width) (p : ℕ × BitVec 32)
    (hx : p.1 < 2 ^ w.bits) (hs : op.StepSafe w p.1) :
    op.step w.bits (p.1, bit p.2.toNat (op.carryBit w)) =
      ((op.codeStep w p).1, bit (op.codeStep w p).2.toNat (op.carryBit w)) := by
  obtain ⟨x, u⟩ := p
  change x < 2 ^ w.bits at hx
  have hw : w.bits = 8 ∨ w.bits = 16 := w.bits_cases
  have hx16 : x < 2 ^ 16 := hx.trans_le (by cases w <;> decide)
  cases op with
  | shl =>
    simp only [ShiftOp.step, ShiftOp.codeStep, ShiftOp.carryBit, toNat_shl hx16 1 (by decide)]
    rw [bit_high hx (by omega), Nat.pow_one, Nat.mul_comm]
  | shr =>
    simp only [ShiftOp.step, ShiftOp.codeStep, ShiftOp.carryBit, toNat_sshiftRight_one hx16, bit_low,
      Prod.mk.injEq, and_true]
    exact (Nat.mod_eq_of_lt ((Nat.div_le_self x 2).trans_lt hx)).symm
  | sar =>
    simp only [ShiftOp.step, ShiftOp.codeStep, ShiftOp.carryBit, bit_low, Prod.mk.injEq, and_true]
    cases w with
    | word => exact (toNat_sar16 hx16).symm
    | byte => exact (toNat_sar8 (hs rfl rfl)).symm
  | ror =>
    simp only [ShiftOp.step, ShiftOp.codeStep, ShiftOp.carryBit, BitVec.toNat_add,
      toNat_sshiftRight_one hx16, toNat_shl hx16 (w.bits - 1) (by omega), bit_low, Prod.mk.injEq,
      and_true]
    rw [← toNat_ror hx]
    rcases hw with h | h <;> rw [h] <;> omega
  | rcl =>
    have hsh := bit_shifted w (BitVec.ofNat 32 x <<< 1 + (CVal.ofBool (bit u.toNat 16)).bits) w.bits
      (by omega)
    rw [Nat.sub_add_cancel (by omega)] at hsh
    simp only [ShiftOp.step, ShiftOp.codeStep, ShiftOp.carryBit, hsh, toNat_rcl hx16]
    rw [bit_high hx]
    have hcf : (bit u.toNat 16).toNat ≤ 1 := Bool.toNat_le _
    omega
  | rcr =>
    have hcf : (bit u.toNat 16).toNat ≤ 1 := Bool.toNat_le _
    have hbits : (CVal.ofBool (bit u.toNat 16)).bits = BitVec.ofNat 32 (bit u.toNat 16).toNat := by
      cases bit u.toNat 16 <;> rfl
    have hsh := bit_shiftLeft (BitVec.ofNat 32 x) 16 0 (by decide)
    have hx0 : bit (BitVec.ofNat 32 x).toNat 0 = decide (x % 2 = 1) := by
      apply decide_eq_decide.mpr
      rw [BitVec.toNat_ofNat]
      omega
    simp only [ShiftOp.step, ShiftOp.codeStep, ShiftOp.carryBit, hbits, BitVec.toNat_add,
      toNat_sshiftRight_one hx16, hsh.trans hx0, Prod.mk.injEq, and_true]
    rw [toNat_shl (by omega) (w.bits - 1) (by omega)]
    generalize (bit u.toNat 16).toNat = c at *
    rcases hw with h | h <;> rw [h] at hx ⊢ <;> omega

end NaviMisc.Sbt86

/-!
`codegen_shl`, `codegen_shr`, `codegen_sar`, `codegen_ror`, `codegen_rcl` and
`codegen_rcr`: what the emitted loops compute, and exactly when it is what the
8086 computes.
-/

namespace NaviMisc.Sbt86

open Lib.Bits

def ShiftOp.codegen : ShiftOp → Operand → Operand → Gen CStmt
  | .shl => codegenShl
  | .shr => codegenShr
  | .sar => codegenSar
  | .ror => codegenRor
  | .rcl => codegenRcl
  | .rcr => codegenRcr

/-! `_decodeLiteral` makes no literal of a shift or rotate dynamic. -/

def OffsetTerm.Static : OffsetTerm → Prop
  | .reg _ => True
  | .lit l => l.dynamic = false

def Operand.Static : Operand → Prop
  | .reg _ | .far _ => True
  | .lit l => l.dynamic = false
  | .ind i => ∀ t ∈ i.offsets, t.Static

def Operand.IsCount (o : Operand) : Prop :=
  o = .reg (.b .cl) ∨ ∃ l, o = .lit l ∧ l.dynamic = false ∧ l.value < 256

theorem OffsetTerm.denote_static {m m' : Machine} (hw : m'.r.word = m.r.word) {t : OffsetTerm}
    (h : t.Static) : t.denote m' = t.denote m := by
  cases t with
  | reg n => simp only [OffsetTerm.denote, getReg_congr hw]
  | lit l =>
    change l.dynamic = false at h
    simp only [OffsetTerm.denote, Literal.denote, h]

theorem Indirect.ea_static {m m' : Machine} (hw : m'.r.word = m.r.word) {i : Indirect}
    (h : ∀ t ∈ i.offsets, t.Static) : i.ea m' = i.ea m := by
  unfold Indirect.ea
  rw [List.map_congr_left fun t ht => OffsetTerm.denote_static hw (h t ht)]

theorem loc_write {o : Operand} (hs : o.Static) {m m' : Machine} {l : Loc} (hl : o.loc m = some l)
    (v : BitVec 32) (hm : m'.r.word = (m.write l v).r.word) (hseg : m'.s = m.s ∨ ∃ n, o = .reg n) :
    o.loc m' = some l := by
  cases o with
  | reg n => exact hl
  | ind i =>
    have hl' : i.loc m = l := Option.some.inj hl
    have hword : m'.r.word = m.r.word := by
      rw [hm, ← hl']
      unfold Indirect.loc memLoc
      split_ifs <;> rfl
    have hs' : m'.s = m.s := hseg.resolve_right (by rintro ⟨n, hn⟩; cases hn)
    rw [← hl, Operand.loc, Operand.loc, Indirect.loc, Indirect.loc, i.ea_static hword hs, hs']
  | lit l => cases hl
  | far a => cases hl

theorem repeated_iterate {α : Type} {body : Exec} {inv : Machine → Prop} (φ : Machine → α) (f : α → α)
    (hbody : ∀ m, inv m → ∃ m', body m = .ok m' ∧ inv m' ∧ φ m' = f (φ m)) (n : ℕ) (m : Machine)
    (hm : inv m) : ∃ m', Exec.repeated body n m = .ok m' ∧ inv m' ∧ φ m' = f^[n] (φ m) := by
  induction n generalizing m with
  | zero => exact ⟨m, rfl, hm, rfl⟩
  | succ n ih =>
    obtain ⟨m₁, h₁, hi₁, hφ₁⟩ := hbody m hm
    obtain ⟨m₂, h₂, hi₂, hφ₂⟩ := ih m₁ hi₁
    refine ⟨m₂, ?_, hi₂, ?_⟩
    · rw [Exec.repeated, h₁]
      exact h₂
    · rw [Function.iterate_succ_apply, ← hφ₁, hφ₂]

theorem repeated_one (body : Exec) (m : Machine) : Exec.repeated body 1 m = body m := by
  change (body m).bind (fun m' => .ok m') = body m
  cases body m <;> rfl

theorem repeatCode_exec {cnt : Operand} (hc : cnt.IsCount) (body : CStmt) :
    ∃ code, repeatCode cnt body = .ok code ∧ ∀ m : Machine,
      code.exec m = (Exec.repeated body.exec (cnt.denote m) m).map fun m' => { m' with vars := m.vars } := by
  rcases hc with rfl | ⟨l, rfl, hstatic, hlt⟩
  · exact ⟨_, rfl, fun m => rfl⟩
  · have hden (m : Machine) : Operand.denote m (.lit l) = l.value := by
      simp only [Operand.denote, Literal.denote, hstatic]
    by_cases h1 : l.value = 1
    · refine ⟨.block body, by simp only [repeatCode, h1, if_true], fun m => ?_⟩
      rw [hden, h1, repeated_one]
      rfl
    · refine ⟨.block (.countdown (.lit l.value) body), ?_, fun m => ?_⟩
      · simp only [repeatCode, h1, if_false, Literal.codegen, hstatic]
        rfl
      · have hn : (BitVec.ofNat 32 l.value).toNat = l.value := by
          rw [BitVec.toNat_ofNat]
          omega
        have hrun : (CStmt.countdown (.lit l.value) body).exec m =
            Exec.repeated body.exec (BitVec.ofNat 32 l.value).toNat m := rfl
        rw [hden]
        change ((CStmt.countdown (.lit l.value) body).exec m).map _ = _
        rw [hrun, hn]

theorem shiftTraces_exec (cnt r : Operand) (m : Machine) :
    ∃ s, (genTraces [(cnt, .r), (r, .r), (r, .w)]).exec m = .ok { m with s := s } ∧
      (s = m.s ∨ ∃ n, r = .reg n) := by
  obtain ⟨s, hs⟩ := genTraces_exec [(cnt, .r), (r, .r), (r, .w)] m
  cases r with
  | reg n => exact ⟨s, hs, .inr ⟨n, rfl⟩⟩
  | lit l => exact ⟨m.s, by cases cnt <;> rfl, .inl rfl⟩
  | ind i => exact ⟨m.s, by cases cnt <;> rfl, .inl rfl⟩
  | far a => exact ⟨m.s, by cases cnt <;> rfl, .inl rfl⟩

section body

variable {w : Width} {dest : Operand} {lv : LVal} {m : Machine} {l : Loc}

theorem shiftCore_exec (hlv : ∀ m l, dest.loc m = some l → lv.loc m = l) (eu ex : CExpr)
    (rest : List CStmt) (hl : dest.loc m = some l) {u x : BitVec 32}
    (hu : (eu.eval (m.withResult m.r.uresult 0)).bits = u)
    (hx : (ex.eval (m.withResult u 0)).bits = x) :
    (CStmt.ofList (.setS (.lit 0) :: .setU eu :: .assign lv ex :: rest)).exec m =
      (CStmt.ofList rest).exec ((m.withResult u 0).write l x) := by
  have hloc : lv.loc (m.withResult u 0) = l :=
    hlv _ _ ((dest.loc_congr (sameOperands_withResult m u 0)).trans hl)
  have hset : (CStmt.setU eu).exec (m.withResult m.r.uresult 0) = .ok (m.withResult u 0) := by
    rw [← hu]
    rfl
  have hassign : (CStmt.assign lv ex).exec (m.withResult u 0) =
      .ok ((m.withResult u 0).write l x) := by
    rw [CStmt.exec, hloc, hx]
  rw [exec_ofList_cons (m.withResult m.r.uresult 0) rfl, exec_ofList_cons _ hset,
    exec_ofList_cons _ hassign]

theorem shiftTail_exec (hb : l.bits = w.bits) (hs : dest.Static) (hl : dest.loc m = some l)
    (cnt : Operand) (u u' s' x : BitVec 32) :
    ∃ m', (CStmt.ofList [genTraces [(cnt, .r), (dest, .r), (dest, .w)]]).exec
        (((m.withResult u 0).write l x).withResult u' s') = .ok m' ∧
      dest.loc m' = some l ∧ (m'.read l).toNat = x.toNat % 2 ^ w.bits ∧
      m'.r.uresult = u' ∧ m'.r.sresult = s' := by
  obtain ⟨sc, hsc, hseg⟩ := shiftTraces_exec cnt dest (((m.withResult u 0).write l x).withResult u' s')
  refine ⟨_, exec_ofList_cons _ hsc, ?_, ?_, rfl, rfl⟩
  · have hl' : dest.loc (m.withResult u 0) = some l :=
      (dest.loc_congr (sameOperands_withResult m u 0)).trans hl
    have hws : ((m.withResult u 0).write l x).s = m.s := by
      cases l with
      | reg n => cases n <;> rfl
      | mem8 p => rfl
      | mem16 p => rfl
    exact loc_write hs hl' x rfl (hseg.imp_left fun h => h.trans hws)
  · rw [← hb, ← Machine.toNat_read_write (m.withResult u 0) l x]
    exact congrArg BitVec.toNat (read_congr rfl rfl l)

end body

def ShiftOp.RealisedBy (op : ShiftOp) (w : Width) (dest : Operand) (body : CStmt) : Prop :=
  ∀ m l, dest.loc m = some l → ∃ m', body.exec m = .ok m' ∧ dest.loc m' = some l ∧
    ((m'.read l).toNat, m'.r.uresult) = op.codeStep w ((m.read l).toNat, m.r.uresult) ∧
    m'.r.sresult = 0

section realised

variable {w : Width} {dest : Operand} {lv : LVal}

theorem realisedBy_plain (op : ShiftOp) (hlv : ∀ m l, dest.loc m = some l → lv.loc m = l ∧ l.bits = w.bits)
    (hs : dest.Static) (cnt : Operand) (eu ex : CExpr)
    (h : ∀ m l, dest.loc m = some l → ∃ x : BitVec 32,
      (eu.eval (m.withResult m.r.uresult 0)).bits = (op.codeStep w ((m.read l).toNat, m.r.uresult)).2 ∧
      (ex.eval (m.withResult (op.codeStep w ((m.read l).toNat, m.r.uresult)).2 0)).bits = x ∧
      x.toNat % 2 ^ w.bits = (op.codeStep w ((m.read l).toNat, m.r.uresult)).1) :
    op.RealisedBy w dest (CStmt.ofList [.setS (.lit 0), .setU eu, .assign lv ex,
      genTraces [(cnt, .r), (dest, .r), (dest, .w)]]) := by
  intro m l hl
  obtain ⟨x, hu, hx, hval⟩ := h m l hl
  obtain ⟨m', hm', hl', hread, hu', hs'⟩ := shiftTail_exec (hlv m l hl).2 hs hl cnt
    (op.codeStep w ((m.read l).toNat, m.r.uresult)).2 (op.codeStep w ((m.read l).toNat, m.r.uresult)).2 0 x
  refine ⟨m', ?_, hl', ?_, hs'⟩
  · rw [shiftCore_exec (fun m l hl => (hlv m l hl).1) eu ex _ hl hu hx, ← hm', withResult_write]
  · rw [hread, hu', hval]

end realised

end NaviMisc.Sbt86
