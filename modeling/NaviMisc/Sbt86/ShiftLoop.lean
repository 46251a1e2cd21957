import NaviMisc.Sbt86.Shift

/-!
The whole loops: every emitted pass realises its pure step, the loop iterates
it, and the result is compared with the 8086 count by count.
-/

namespace NaviMisc.Sbt86

open Lib.Bits

def ShiftOp.finish (op : ShiftOp) (dest : Operand) (loop : CStmt) : CStmt :=
  match op with
  | .shl => .seq loop (resultShift dest)
  | _ => loop

theorem lit_msb (w : Width) : (BitVec.ofNat 32 (w.bits - 1)).toNat = w.bits - 1 := by
  cases w <;> rfl

section realised

variable {w : Width} {dest : Operand} {x : CExpr} {lv : LVal}
  (hlv : ∀ m l, dest.loc m = some l → lv.loc m = l ∧ l.bits = w.bits)
  (hread : ∀ m l, dest.loc m = some l → ∀ u s,
    x.eval (m.withResult u s) = ⟨false, BitVec.ofNat 32 (m.read l).toNat⟩)
  (hs : dest.Static) (cnt : Operand)

include hlv hread hs

theorem shl_realised : ShiftOp.shl.RealisedBy w dest (.ofList
    [.setS (.lit 0), .setU (.bin .shl (.cast .u32 x) (.lit 1)), .assign lv .uresult,
      genTraces [(cnt, .r), (dest, .r), (dest, .w)]]) := by
  apply realisedBy_plain .shl hlv hs
  intro m l hl
  refine ⟨_, ?_, rfl, rfl⟩
  simp only [CExpr.eval, hread m l hl]
  rfl

theorem shr_realised : ShiftOp.shr.RealisedBy w dest (.ofList
    [.setS (.lit 0), .setU (.bin .shl (.bin .and (.cast .u32 x) (.lit 1)) (.lit 16)),
      .assign lv (.bin .shr x (.lit 1)), genTraces [(cnt, .r), (dest, .r), (dest, .w)]]) := by
  apply realisedBy_plain .shr hlv hs
  intro m l hl
  refine ⟨_, ?_, rfl, ?_⟩
  · simp only [CExpr.eval, hread m l hl]
    rfl
  · simp only [CExpr.eval, hread m l hl]
    rfl

theorem sar_realised : ShiftOp.sar.RealisedBy w dest (.ofList
    [.setS (.lit 0), .setU (.bin .shl (.bin .and (.cast .u32 x) (.lit 1)) (.lit 16)),
      .assign lv (.bin .shr (.cast .i16 x) (.lit 1)),
      genTraces [(cnt, .r), (dest, .r), (dest, .w)]]) := by
  apply realisedBy_plain .sar hlv hs
  intro m l hl
  refine ⟨_, ?_, rfl, ?_⟩
  · simp only [CExpr.eval, hread m l hl]
    rfl
  · simp only [CExpr.eval, hread m l hl]
    rfl

theorem ror_realised : ShiftOp.ror.RealisedBy w dest (.ofList
    [.setS (.lit 0), .setU (.bin .shl (.bin .and (.cast .u32 x) (.lit 1)) (.lit 16)),
      .assign lv (.bin .add (.bin .shr x (.lit 1)) (.bin .shl x (.lit (w.bits - 1)))),
      genTraces [(cnt, .r), (dest, .r), (dest, .w)]]) := by
  apply realisedBy_plain .ror hlv hs
  intro m l hl
  refine ⟨_, ?_, rfl, ?_⟩
  · simp only [CExpr.eval, hread m l hl]
    rfl
  · simp only [CExpr.eval, hread m l hl, BinOp.apply, lit_msb]
    rfl

theorem rcl_realised (hw : dest.width = some w.bytes) : ShiftOp.rcl.RealisedBy w dest (.ofList
    [.setS (.lit 0), .setU (.bin .add (.bin .shl (.cast .u32 x) (.lit 1)) .getCF),
      .assign lv .uresult, resultShift dest, genTraces [(cnt, .r), (dest, .r), (dest, .w)]]) := by
  intro m l hl
  let u := BitVec.ofNat 32 (m.read l).toNat <<< 1 + (CVal.ofBool (bit m.r.uresult.toNat 16)).bits
  obtain ⟨m', hm', hl', hval, hu', hs'⟩ := shiftTail_exec (hlv m l hl).2 hs hl cnt u
    (w.shifted u) (w.shifted 0) u
  have hu : ((CExpr.bin .add (.bin .shl (.cast .u32 x) (.lit 1)) .getCF).eval
      (m.withResult m.r.uresult 0)).bits = u := by
    simp only [CExpr.eval, hread m l hl, BinOp.apply, SBTRegs.getCF_eq]
    rfl
  refine ⟨m', ?_, hl', ?_, hs'.trans (by cases w <;> rfl)⟩
  · rw [shiftCore_exec (fun m l hl => (hlv m l hl).1) _ _ _ hl hu rfl, ← hm',
      exec_ofList_cons _ (resultShift_exec hw _), uresult_write, sresult_write]
    rfl
  · rw [hval, hu']
    rfl

theorem rcr_realised : ShiftOp.rcr.RealisedBy w dest (.seq (.declare .cf .getCF) (.ofList
    [.setS (.lit 0), .setU (.bin .shl x (.lit 16)),
      .assign lv (.bin .add (.bin .shr x (.lit 1)) (.bin .shl (.var .cf) (.lit (w.bits - 1)))),
      genTraces [(cnt, .r), (dest, .r), (dest, .w)]])) := by
  intro m l hl
  let cf := (CVal.ofBool (bit m.r.uresult.toNat 16)).bits
  let m₀ : Machine := { m with vars := Function.update m.vars .cf cf }
  have hl₀ : dest.loc m₀ = some l := (dest.loc_congr ⟨rfl, rfl, rfl⟩).trans hl
  have hread₀ : m₀.read l = m.read l := read_congr rfl rfl l
  have hdecl : (CStmt.declare .cf .getCF).exec m = .ok m₀ := by
    simp only [CStmt.exec, CExpr.eval, SBTRegs.getCF_eq]
    rfl
  let u := BitVec.ofNat 32 (m.read l).toNat <<< 16
  have hu : ((CExpr.bin .shl x (.lit 16)).eval (m₀.withResult m₀.r.uresult 0)).bits = u := by
    simp only [CExpr.eval, hread m₀ l hl₀, hread₀]
    rfl
  have hx : ((CExpr.bin .add (.bin .shr x (.lit 1)) (.bin .shl (.var .cf) (.lit (w.bits - 1)))).eval
      (m₀.withResult u 0)).bits =
        (BitVec.ofNat 32 (m.read l).toNat).sshiftRight 1 + cf <<< (w.bits - 1) := by
    have hvar : (m₀.withResult u 0).vars .cf = cf := by
      change Function.update m.vars .cf cf .cf = cf
      exact Function.update_self _ _ _
    simp only [CExpr.eval, hread m₀ l hl₀, hread₀, BinOp.apply, lit_msb, hvar]
    rfl
  obtain ⟨m', hm', hl', hval, hu', hs'⟩ := shiftTail_exec (hlv m₀ l hl₀).2 hs hl₀ cnt u u 0
    ((BitVec.ofNat 32 (m.read l).toNat).sshiftRight 1 + cf <<< (w.bits - 1))
  refine ⟨m', ?_, hl', ?_, hs'⟩
  · rw [exec_seq hdecl, shiftCore_exec (fun m l hl => (hlv m l hl).1) _ _ _ hl₀ hu hx, ← hm',
      withResult_write]
  · rw [hval, hu']
    rfl

end realised

theorem shiftBody_ok (op : ShiftOp) (w : Width) (dest cnt : Operand) (hd : dest.HasWidth w)
    (hp : dest.IsPlace) (hs : dest.Static) :
    ∃ body, op.RealisedBy w dest body ∧ ∀ loop, repeatCode cnt body = .ok loop →
      op.codegen dest cnt = .ok (op.finish dest loop) := by
  obtain ⟨x, hx, hxe⟩ := dest.codegen_ok hd
  obtain ⟨lv, hlv, hloc⟩ := dest.codegenW_ok hd hp
  have hplace : ∀ m l, dest.loc m = some l → (lv.loc m = l ∧ l.bits = w.bits) ∧
      ∀ u s, x.eval (m.withResult u s) = ⟨false, BitVec.ofNat 32 (m.read l).toNat⟩ := by
    intro m l hl
    obtain ⟨l', hl', hll', hb, hden⟩ := hloc m
    obtain rfl : l' = l := Option.some.inj (hl'.symm.trans hl)
    refine ⟨⟨hll', hb⟩, fun u s => ?_⟩
    rw [hxe, dest.denote_congr (sameOperands_withResult m u s), hden]
  have hbits : ∀ m l, dest.loc m = some l → lv.loc m = l ∧ l.bits = w.bits :=
    fun m l hl => (hplace m l hl).1
  have hread : ∀ m l, dest.loc m = some l → ∀ u s,
      x.eval (m.withResult u s) = ⟨false, BitVec.ofNat 32 (m.read l).toNat⟩ :=
    fun m l hl => (hplace m l hl).2
  have hmsb : msbShift dest = .ok (w.bits - 1) := by
    rw [msbShift, width_of_hasWidth hd]
    cases w <;> rfl
  cases op with
  | shl =>
    refine ⟨_, shl_realised hbits hread hs cnt, fun loop hloop => ?_⟩
    simp only [ShiftOp.codegen, codegenShl, hx, hlv]
    exact congrArg (fun c => c.bind fun c => .ok (CStmt.seq c (resultShift dest))) hloop
  | shr =>
    refine ⟨_, shr_realised hbits hread hs cnt, fun loop hloop => ?_⟩
    simp only [ShiftOp.codegen, codegenShr, u32, hx, hlv]
    exact hloop
  | sar =>
    refine ⟨_, sar_realised hbits hread hs cnt, fun loop hloop => ?_⟩
    simp only [ShiftOp.codegen, codegenSar, u32, hx, hlv]
    exact hloop
  | ror =>
    refine ⟨_, ror_realised hbits hread hs cnt, fun loop hloop => ?_⟩
    simp only [ShiftOp.codegen, codegenRor, hx, hlv, hmsb]
    exact hloop
  | rcl =>
    refine ⟨_, rcl_realised hbits hread hs cnt (width_of_hasWidth hd), fun loop hloop => ?_⟩
    simp only [ShiftOp.codegen, codegenRcl, u32, hx, hlv]
    exact hloop
  | rcr =>
    refine ⟨_, rcr_realised hbits hread hs cnt, fun loop hloop => ?_⟩
    simp only [ShiftOp.codegen, codegenRcr, hx, hlv, hmsb]
    exact hloop

theorem codeStep_iterate_simulates (op : ShiftOp) (w : Width) (c : ℕ) (p : ℕ × BitVec 32)
    (hx : p.1 < 2 ^ w.bits) (hs : op.StepSafe w p.1) :
    (op.step w.bits)^[c] (p.1, bit p.2.toNat (op.carryBit w)) =
      (((op.codeStep w)^[c] p).1, bit ((op.codeStep w)^[c] p).2.toNat (op.carryBit w)) := by
  induction c generalizing p with
  | zero => rfl
  | succ c ih =>
    have hsafe : op.StepSafe w (op.codeStep w p).1 := by
      rintro rfl rfl
      have hstep := congrArg Prod.fst (codeStep_simulates .sar .byte p hx hs)
      have hpos : p.1 < 2 ^ 7 := hs rfl rfl
      have hd : decide (2 ^ 7 ≤ p.1) = false := by simpa using hpos
      change p.1 / 2 + (decide (2 ^ 7 ≤ p.1)).toNat * 2 ^ 7 = _ at hstep
      rw [hd, Bool.toNat_false] at hstep
      omega
    rw [Function.iterate_succ_apply, Function.iterate_succ_apply, codeStep_simulates op w p hx hs,
      ih _ (codeStep_lt op w p) hsafe]

theorem iterate_pair_zero {α : Type} (f : α → α) (c : ℕ) (a : α) (s : BitVec 32) :
    (fun q : α × BitVec 32 => (f q.1, 0#32))^[c] (a, s) = (f^[c] a, if c = 0 then s else 0#32) := by
  induction c generalizing a s with
  | zero => rfl
  | succ c ih =>
    rw [Function.iterate_succ_apply, ih]
    simp

theorem shift_exec (op : ShiftOp) (w : Width) (dest cnt : Operand) (hd : dest.HasWidth w)
    (hp : dest.IsPlace) (hs : dest.Static) (hc : cnt.IsCount) :
    ∃ code, op.codegen dest cnt = .ok code ∧ ∀ m : Machine, ∃ m' l,
      code.exec m = .ok m' ∧ dest.loc m = some l ∧
      (m'.read l).toNat = ((op.codeStep w)^[cnt.denote m] (dest.denote m, m.r.uresult)).1 ∧
      (let u := ((op.codeStep w)^[cnt.denote m] (dest.denote m, m.r.uresult)).2
       let s := if cnt.denote m = 0 then m.r.sresult else 0
       m'.r.uresult = (if op = .shl then w.shifted u else u) ∧
        m'.r.sresult = (if op = .shl then w.shifted s else s)) := by
  obtain ⟨body, hbody, hcode⟩ := shiftBody_ok op w dest cnt hd hp hs
  obtain ⟨loop, hloop, hrun⟩ := repeatCode_exec hc body
  obtain ⟨lv, -, hloc⟩ := dest.codegenW_ok hd hp
  refine ⟨_, hcode loop hloop, fun m => ?_⟩
  obtain ⟨l, hl, -, -, hden⟩ := hloc m
  have hstep : ∀ m, dest.loc m = some l → ∃ m', body.exec m = .ok m' ∧ dest.loc m' = some l ∧
      (((m'.read l).toNat, m'.r.uresult), m'.r.sresult) =
        (op.codeStep w ((m.read l).toNat, m.r.uresult), 0#32) := by
    intro m hl
    obtain ⟨m', hm', hl', hpair, hs'⟩ := hbody m l hl
    exact ⟨m', hm', hl', Prod.ext hpair hs'⟩
  obtain ⟨m₁, hm₁, -, hφ⟩ := repeated_iterate
    (fun m : Machine => (((m.read l).toNat, m.r.uresult), m.r.sresult))
    (fun q => (op.codeStep w q.1, 0#32)) hstep (cnt.denote m) m hl
  rw [iterate_pair_zero, ← hden, Prod.mk.injEq, Prod.ext_iff] at hφ
  obtain ⟨⟨hread, hu⟩, hsr⟩ := hφ
  let m₂ : Machine := { m₁ with vars := m.vars }
  have hm₂ : loop.exec m = .ok m₂ := by rw [hrun, hm₁]; rfl
  have hread₂ : (m₂.read l).toNat = (m₁.read l).toNat := congrArg _ (read_congr rfl rfl l)
  by_cases hop : op = .shl
  · subst hop
    refine ⟨_, l, (exec_seq hm₂).trans (resultShift_exec (width_of_hasWidth hd) m₂), hl, ?_, ?_, ?_⟩
    · rw [Machine.read_withResult, hread₂]
      exact hread
    · exact congrArg w.shifted hu
    · exact congrArg w.shifted hsr
  · have hfin : op.finish dest loop = loop := by cases op <;> first | rfl | exact absurd rfl hop
    refine ⟨m₂, l, by rw [hfin]; exact hm₂, hl, hread₂.trans hread, ?_, ?_⟩
    · rw [if_neg hop]
      exact hu
    · rw [if_neg hop]
      exact hsr

end NaviMisc.Sbt86
