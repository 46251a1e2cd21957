import NaviMisc.Sbt86.Exec

/-!
`codegen_add`, `codegen_adc`, `codegen_sub`, `codegen_sbb`, `codegen_cmp`,
`codegen_inc` and `codegen_dec` compute the 8086 result and flags.
-/

namespace NaviMisc.Sbt86

open Lib.Bits

theorem ofInt_sub (a b : ℤ) : BitVec.ofInt 32 (a - b) = BitVec.ofInt 32 a - BitVec.ofInt 32 b := by
  rw [Int.sub_eq_add_neg, BitVec.ofInt_add, BitVec.ofInt_neg, BitVec.sub_eq_add_neg]

theorem bits_ofBool (b : Bool) : (CVal.ofBool b).bits = BitVec.ofInt 32 b.toNat := by
  cases b <;> rfl

theorem signExtend_setWidth (w : Width) (n : ℕ) (hn : n < 2 ^ w.bits) :
    ((BitVec.ofNat 32 n).setWidth w.bits).signExtend 32 = BitVec.ofInt 32 (signedVal w.bits n) := by
  have ht : ((BitVec.ofNat 32 n).setWidth w.bits).toInt = signedVal w.bits n := by
    rw [BitVec.toInt_eq_toNat_cond, BitVec.toNat_setWidth, BitVec.toNat_ofNat]
    cases w with
    | byte => simp only [Width.bits, signedVal] at *; omega
    | word => simp only [Width.bits, signedVal] at *; omega
  rw [← ht, BitVec.signExtend]

structure ReadsAs (w : Width) (o : Operand) (val : Machine → ℕ) : Prop where
  signed : ∃ e, signed o = .ok e ∧
    ∀ m, (e.eval m).bits = BitVec.ofInt 32 (signedVal w.bits (val m))
  unsigned : ∃ e, u32 o = .ok e ∧ ∀ m, (e.eval m).bits = BitVec.ofInt 32 (val m)
  stable : ∀ m u s, val (m.withResult u s) = val m
  lt : ∀ m, val m < 2 ^ w.bits

theorem Operand.readsAs {w : Width} {o : Operand} (h : o.HasWidth w) :
    ReadsAs w o (fun m => o.denote m) := by
  obtain ⟨e, he, hev⟩ := o.codegen_ok h
  have hw := width_of_hasWidth h
  constructor
  · refine ⟨_, by rw [Sbt86.signed, he]; rfl, fun m => ?_⟩
    rw [← signExtend_setWidth w _ (o.denote_lt h m)]
    cases w with
    | byte => simp only [hw, Width.bytes, if_true, CExpr.eval, CTy.cast, CTy.convert, hev m]; rfl
    | word =>
      simp only [hw, Width.bytes, CExpr.eval, CTy.cast, CTy.convert, hev m]
      rfl
  · refine ⟨_, by rw [u32, he]; rfl, fun m => ?_⟩
    simp only [CExpr.eval, CTy.cast, CTy.convert, hev m, BitVec.ofInt_natCast]
  · intro m u s
    exact o.denote_congr (sameOperands_withResult m u s)
  · exact o.denote_lt h

theorem readsAs_one (w : Width) : ReadsAs w (.lit (.const 1)) (fun _ => 1) := by
  constructor
  · refine ⟨_, rfl, fun m => ?_⟩
    cases w <;> rfl
  · exact ⟨_, rfl, fun m => rfl⟩
  · intro m u s
    rfl
  · intro m
    cases w <;> decide

def Computes (f : CExpr → CExpr → CExpr) (g : ℤ → ℤ → Bool → ℤ) : Prop :=
  ∀ (m : Machine) (x y : CExpr) (a b : ℤ), (x.eval m).bits = BitVec.ofInt 32 a →
    (y.eval m).bits = BitVec.ofInt 32 b →
    ((f x y).eval m).bits = BitVec.ofInt 32 (g a b m.r.getCF)

structure Leaves (w : Width) (l : Loc) (m m' : Machine) (e s : ℤ) : Prop where
  uresult : m'.r.uresult = w.shifted (BitVec.ofInt 32 e)
  sresult : m'.r.sresult = w.shifted (BitVec.ofInt 32 s)
  dest : (m'.read l).toNat = (BitVec.ofInt 32 e).toNat % 2 ^ w.bits
  vars : m'.vars = m.vars

theorem codegenArith_exec {f : CExpr → CExpr → CExpr} {g : ℤ → ℤ → Bool → ℤ} {w : Width}
    {dest src : Operand} {val : Machine → ℕ} (hf : Computes f g) (hd : dest.HasWidth w)
    (hp : dest.IsPlace) (hs : ReadsAs w src val) :
    ∃ code, codegenArith f dest src = .ok code ∧ ∀ m : Machine, ∃ m' l,
      code.exec m = .ok m' ∧ dest.loc m = some l ∧
      Leaves w l m m' (g (dest.denote m) (val m) m.r.getCF)
        (g (signedVal w.bits (dest.denote m)) (signedVal w.bits (val m)) m.r.getCF) := by
  obtain ⟨ds, hds, hdse⟩ := (dest.readsAs hd).signed
  obtain ⟨du, hdu, hdue⟩ := (dest.readsAs hd).unsigned
  obtain ⟨ss, hss, hsse⟩ := hs.signed
  obtain ⟨su, hsu, hsue⟩ := hs.unsigned
  obtain ⟨lv, hlv, hloc⟩ := dest.codegenW_ok hd hp
  refine ⟨_, by simp only [codegenArith, hds, hss, hdu, hsu, hlv]; rfl, fun m => ?_⟩
  generalize he : g (dest.denote m) (val m) m.r.getCF = e
  generalize hse : g (signedVal w.bits (dest.denote m)) (signedVal w.bits (val m)) m.r.getCF = s
  have hS : ((f ds ss).eval m).bits = BitVec.ofInt 32 s :=
    hse ▸ hf m ds ss _ _ (hdse m) (hsse m)
  let m₁ := m.withResult m.r.uresult ((f ds ss).eval m).bits
  have hU : ((f du su).eval m₁).bits = BitVec.ofInt 32 e := by
    have h1 := (hdue m₁).trans (congrArg (fun n : ℕ => BitVec.ofInt 32 n) ((dest.readsAs hd).stable m _ _))
    have h2 := (hsue m₁).trans (congrArg (fun n : ℕ => BitVec.ofInt 32 n) (hs.stable m _ _))
    exact he ▸ hf m₁ du su _ _ h1 h2
  let m₂ := m₁.withResult ((f du su).eval m₁).bits m₁.r.sresult
  have hm₂ : m.SameOperands m₂ := ⟨rfl, rfl, rfl⟩
  obtain ⟨l, hl, hll, hlb, -⟩ := hloc m
  obtain ⟨l', hl', hll', -, -⟩ := hloc m₂
  have hsame : l' = l := Option.some.inj (hl'.symm.trans ((dest.loc_congr hm₂).trans hl))
  subst hsame
  let m₃ := m₂.write l' m₂.r.uresult
  let m₄ := m₃.withResult (w.shifted m₃.r.uresult) (w.shifted m₃.r.sresult)
  obtain ⟨sc, hsc⟩ := genTraces_exec [(src, .r), (dest, .r), (dest, .w)] m₄
  have hrun : (CStmt.ofList [.setS (f ds ss), .setU (f du su), .assign lv .uresult,
      resultShift dest, genTraces [(src, .r), (dest, .r), (dest, .w)]]).exec m =
        .ok { m₄ with s := sc } := by
    rw [exec_ofList_cons m₁ rfl, exec_ofList_cons m₂ rfl,
      exec_ofList_cons m₃ (by rw [CStmt.exec, hll']; rfl),
      exec_ofList_cons _ (resultShift_exec (width_of_hasWidth hd) m₃), exec_ofList_cons _ hsc]
    rfl
  refine ⟨_, l', hrun, hl, ?_, ?_, ?_, ?_⟩
  · change w.shifted m₃.r.uresult = _
    rw [uresult_write]
    exact congrArg w.shifted hU
  · change w.shifted m₃.r.sresult = _
    rw [sresult_write]
    exact congrArg w.shifted hS
  · have hread : ({ m₄ with s := sc } : Machine).read l' = m₃.read l' := read_congr rfl rfl l'
    rw [hread, Machine.toNat_read_write, hlb]
    exact congrArg (fun x => BitVec.toNat x % 2 ^ w.bits) hU
  · change m₃.vars = m.vars
    cases l' with
    | reg n => cases n <;> rfl
    | mem8 p => rfl
    | mem16 p => rfl

theorem computes_add : Computes (fun a b => .bin .add a b) (ArithOp.exact .add) := by
  intro m x y a b hx hy
  simp only [CExpr.eval, BinOp.apply, hx, hy, ArithOp.exact, BitVec.ofInt_add]

theorem computes_adc : Computes (fun a b => .bin .add (.bin .add a b) .getCF) (ArithOp.exact .adc) := by
  intro m x y a b hx hy
  simp only [CExpr.eval, BinOp.apply, hx, hy, bits_ofBool, ArithOp.exact, BitVec.ofInt_add]

theorem computes_sub : Computes (fun a b => .bin .sub a b) (ArithOp.exact .sub) := by
  intro m x y a b hx hy
  simp only [CExpr.eval, BinOp.apply, hx, hy, ArithOp.exact, ofInt_sub]

theorem computes_sbb : Computes (fun a b => .bin .sub a (.bin .add b .getCF)) (ArithOp.exact .sbb) := by
  intro m x y a b hx hy
  simp only [CExpr.eval, BinOp.apply, hx, hy, bits_ofBool, ArithOp.exact, ofInt_sub, BitVec.ofInt_add]

theorem exact_bounds (op : ArithOp) (w : Width) (a b : ℕ) (cf : Bool) (ha : a < 2 ^ w.bits)
    (hb : b < 2 ^ w.bits) :
    (-2 ^ w.bits ≤ op.exact a b cf ∧ op.exact a b cf < 2 ^ (w.bits + 1)) ∧
      (-2 ^ w.bits ≤ op.exact (signedVal w.bits a) (signedVal w.bits b) cf ∧
        op.exact (signedVal w.bits a) (signedVal w.bits b) cf < 2 ^ w.bits) ∧
      (op.exact a b cf - op.exact (signedVal w.bits a) (signedVal w.bits b) cf) % 2 ^ w.bits = 0 := by
  have hc : cf.toNat ≤ 1 := Bool.toNat_le cf
  have hw : w.bits = 8 ∨ w.bits = 16 := w.bits_cases
  generalize w.bits = n at *
  have hsa : signedVal n a = a ∧ a < 2 ^ (n - 1) ∨ signedVal n a = a - 2 ^ n ∧ ¬a < 2 ^ (n - 1) := by
    by_cases h : a < 2 ^ (n - 1) <;> simp [signedVal, h]
  have hsb : signedVal n b = b ∧ b < 2 ^ (n - 1) ∨ signedVal n b = b - 2 ^ n ∧ ¬b < 2 ^ (n - 1) := by
    by_cases h : b < 2 ^ (n - 1) <;> simp [signedVal, h]
  generalize signedVal n a = sa at *
  generalize signedVal n b = sb at *
  rcases hw with rfl | rfl <;> cases op <;> simp only [ArithOp.exact] <;> omega

theorem Leaves.aluOut {op : ArithOp} {w : Width} {l : Loc} {m m' : Machine} {a b : ℕ} {cf : Bool}
    (ha : a < 2 ^ w.bits) (hb : b < 2 ^ w.bits)
    (h : Leaves w l m m' (op.exact a b cf)
      (op.exact (signedVal w.bits a) (signedVal w.bits b) cf)) :
    Sbt86.aluOut w.bits (op.exact a b cf) (op.exact (signedVal w.bits a) (signedVal w.bits b) cf) =
      ⟨(m'.read l).toNat, m'.r.getCF, m'.r.getZF, m'.r.getSF, m'.r.getOF⟩ := by
  obtain ⟨he, hs, hmod⟩ := exact_bounds op w a b cf ha hb
  rw [aluOut_shifted w m'.r _ _ h.uresult h.sresult he hs hmod, h.dest]

theorem restoreCF_flags (r r₀ : SBTRegs) :
    (r.restoreCF r₀.saveCF).getCF = r₀.getCF ∧ (r.restoreCF r₀.saveCF).getZF = r.getZF ∧
      (r.restoreCF r₀.saveCF).getSF = r.getSF ∧ (r.restoreCF r₀.saveCF).getOF = r.getOF := by
  have mask (k : BitVec 32) : (r.uresult &&& 0xFFFF#32 ||| r₀.uresult &&& 0x10000#32) &&& k =
      (r.uresult &&& (0xFFFF#32 &&& k)) ||| (r₀.uresult &&& (0x10000#32 &&& k)) := by
    rw [BitVec.and_or_distrib_right, BitVec.and_assoc, BitVec.and_assoc]
  have hCF : 0xFFFF#32 &&& 0x10000#32 = 0#32 := by decide
  have hZF : 0x10000#32 &&& 0xFFFF#32 = 0#32 := by decide
  have hSF : 0x10000#32 &&& 0x8000#32 = 0#32 := by decide
  have hSF' : 0xFFFF#32 &&& 0x8000#32 = 0x8000#32 := by decide
  simp only [SBTRegs.getCF, SBTRegs.getZF, SBTRegs.getSF, SBTRegs.getOF, SBTRegs.restoreCF,
    SBTRegs.saveCF, mask, hCF, hZF, hSF, hSF', BitVec.and_self, BitVec.and_zero, BitVec.or_zero,
    BitVec.zero_or, and_self]

theorem keepCF_exec {code : CStmt} {w : Width} {l : Loc} {m m' : Machine} {e s : ℤ}
    (h : code.exec { m with vars := Function.update m.vars .savedCF m.r.saveCF } = .ok m')
    (hl : Leaves w l { m with vars := Function.update m.vars .savedCF m.r.saveCF } m' e s) :
    (keepCF code).exec m =
      .ok { m' with r := m'.r.restoreCF m.r.saveCF, vars := m.vars } := by
  have hv : m'.vars .savedCF = m.r.saveCF := by simp only [hl.vars, Function.update_self]
  have hdecl : (CStmt.declare .savedCF .saveCF).exec m =
      .ok { m with vars := Function.update m.vars .savedCF m.r.saveCF } := rfl
  apply exec_block { m' with r := m'.r.restoreCF m.r.saveCF }
  rw [exec_ofList_cons _ hdecl, exec_ofList_cons _ h, ← hv]
  rfl

theorem codegenCmp_exec {w : Width} {a b : Operand} (ha : a.HasWidth w) (hp : a.IsPlace)
    (hb : b.HasWidth w) :
    ∃ code, codegenCmp a b = .ok code ∧ ∀ m : Machine, ∃ m' l,
      code.exec m = .ok m' ∧ a.loc m = some l ∧ (m'.read l).toNat = a.denote m ∧
      m'.r.uresult = w.shifted (BitVec.ofInt 32 (ArithOp.cmp.exact (a.denote m) (b.denote m) m.r.getCF)) ∧
      m'.r.sresult = w.shifted (BitVec.ofInt 32 (ArithOp.cmp.exact (signedVal w.bits (a.denote m))
        (signedVal w.bits (b.denote m)) m.r.getCF)) := by
  obtain ⟨ds, hds, hdse⟩ := (a.readsAs ha).signed
  obtain ⟨du, hdu, hdue⟩ := (a.readsAs ha).unsigned
  obtain ⟨ss, hss, hsse⟩ := (b.readsAs hb).signed
  obtain ⟨su, hsu, hsue⟩ := (b.readsAs hb).unsigned
  obtain ⟨lv, -, hloc⟩ := a.codegenW_ok ha hp
  refine ⟨_, by simp only [codegenCmp, hds, hss, hdu, hsu]; rfl, fun m => ?_⟩
  obtain ⟨l, hl, -, -, hread⟩ := hloc m
  have hS := computes_sub m ds ss _ _ (hdse m) (hsse m)
  let m₁ := m.withResult m.r.uresult ((CExpr.bin .sub ds ss).eval m).bits
  have h1 := (hdue m₁).trans (congrArg (fun n : ℕ => BitVec.ofInt 32 n) ((a.readsAs ha).stable m _ _))
  have h2 := (hsue m₁).trans (congrArg (fun n : ℕ => BitVec.ofInt 32 n) ((b.readsAs hb).stable m _ _))
  have hU := computes_sub m₁ du su _ _ h1 h2
  let m₂ := m₁.withResult ((CExpr.bin .sub du su).eval m₁).bits m₁.r.sresult
  refine ⟨m₂.withResult (w.shifted m₂.r.uresult) (w.shifted m₂.r.sresult), l, ?_, hl, ?_,
    congrArg w.shifted hU, congrArg w.shifted hS⟩
  · rw [exec_ofList_cons m₁ rfl, exec_ofList_cons m₂ rfl,
      exec_ofList_cons _ (resultShift_exec (width_of_hasWidth ha) m₂)]
    rfl
  · rw [hread, Machine.read_withResult, Machine.read_withResult, Machine.read_withResult]

def ArithOp.codegen : ArithOp → Operand → Operand → Gen CStmt
  | .add => codegenAdd
  | .adc => codegenAdc
  | .sub => codegenSub
  | .sbb => codegenSbb
  | .cmp => codegenCmp
  | .inc => fun dest _ => codegenInc dest
  | .dec => fun dest _ => codegenDec dest

theorem codegenArith_aluOut {f : CExpr → CExpr → CExpr} {op : ArithOp} (w : Width)
    {dest src : Operand} (hf : Computes f op.exact) (hd : dest.HasWidth w) (hp : dest.IsPlace)
    (hs : src.HasWidth w) :
    ∃ code, codegenArith f dest src = .ok code ∧ ∀ m : Machine, ∃ m' l,
      code.exec m = .ok m' ∧ dest.loc m = some l ∧
      aluOut w.bits (op.exact (dest.denote m) (src.denote m) m.r.getCF)
        (op.exact (signedVal w.bits (dest.denote m)) (signedVal w.bits (src.denote m)) m.r.getCF) =
          ⟨(m'.read l).toNat, m'.r.getCF, m'.r.getZF, m'.r.getSF, m'.r.getOF⟩ := by
  obtain ⟨code, hcode, hrun⟩ := codegenArith_exec hf hd hp (src.readsAs hs)
  refine ⟨code, hcode, fun m => ?_⟩
  obtain ⟨m', l, hm', hl, hleaves⟩ := hrun m
  exact ⟨m', l, hm', hl, hleaves.aluOut (dest.denote_lt hd m) (src.denote_lt hs m)⟩

theorem keepCF_aluOut {f : CExpr → CExpr → CExpr} {op₁ : ArithOp} (op : ArithOp) (w : Width)
    {dest : Operand}
    (hf : Computes f op₁.exact) (hop : ∀ a b cf, op₁.exact a 1 cf = op.exact a b cf)
    (hd : dest.HasWidth w) (hp : dest.IsPlace) :
    ∃ code, codegenArith f dest (.lit (.const 1)) = .ok code ∧ ∀ (m : Machine) (b : ℕ), ∃ m' l,
      (keepCF code).exec m = .ok m' ∧ dest.loc m = some l ∧
      { aluOut w.bits (op.exact (dest.denote m) b m.r.getCF)
          (op.exact (signedVal w.bits (dest.denote m)) (signedVal w.bits b) m.r.getCF) with
        cf := m.r.getCF } =
          ⟨(m'.read l).toNat, m'.r.getCF, m'.r.getZF, m'.r.getSF, m'.r.getOF⟩ := by
  obtain ⟨code, hcode, hrun⟩ := codegenArith_exec hf hd hp (readsAs_one w)
  refine ⟨code, hcode, fun m b => ?_⟩
  let m₀ : Machine := { m with vars := Function.update m.vars .savedCF m.r.saveCF }
  have hm₀ : m.SameOperands m₀ := ⟨rfl, rfl, rfl⟩
  obtain ⟨m', l, hm', hl, hleaves⟩ := hrun m₀
  have hone : signedVal w.bits 1 = 1 := by cases w <;> rfl
  have h1 : (1 : ℕ) < 2 ^ w.bits := by cases w <;> decide
  have halu := hleaves.aluOut (dest.denote_lt hd m₀) h1
  rw [dest.denote_congr hm₀, hone, Nat.cast_one, hop _ b, hop _ (signedVal w.bits b)] at halu
  obtain ⟨hcf, hzf, hsf, hof⟩ := restoreCF_flags m'.r m.r
  refine ⟨_, l, keepCF_exec hm' hleaves, (dest.loc_congr hm₀).symm.trans hl, ?_⟩
  have hread : ({ m' with r := m'.r.restoreCF m.r.saveCF, vars := m.vars } : Machine).read l =
      m'.read l := read_congr rfl rfl l
  rw [hread, hcf, hzf, hsf, hof]
  change { aluOut _ _ _ with cf := m.r.getCF } = _
  rw [halu]

/-- Every arithmetic instruction, on operands of one width: the C leaves in the destination
the 8086 result and in the flag accessors the 8086 flags. -/
theorem arith_simulates (op : ArithOp) (w : Width) (dest src : Operand) (hd : dest.HasWidth w)
    (hp : dest.IsPlace) (hs : src.HasWidth w) :
    ∃ code, op.codegen dest src = .ok code ∧ ∀ m : Machine, ∃ m' l,
      code.exec m = .ok m' ∧ dest.loc m = some l ∧
      op.cpu w.bits (dest.denote m) (src.denote m) m.r.getCF =
        ⟨(m'.read l).toNat, m'.r.getCF, m'.r.getZF, m'.r.getSF, m'.r.getOF⟩ := by
  cases op with
  | add => exact codegenArith_aluOut w computes_add hd hp hs
  | adc => exact codegenArith_aluOut w computes_adc hd hp hs
  | sub => exact codegenArith_aluOut w computes_sub hd hp hs
  | sbb => exact codegenArith_aluOut w computes_sbb hd hp hs
  | cmp =>
    obtain ⟨code, hcode, hrun⟩ := codegenCmp_exec hd hp hs
    refine ⟨code, hcode, fun m => ?_⟩
    obtain ⟨m', l, hm', hl, hread, hu, hs'⟩ := hrun m
    obtain ⟨he, hse, hmod⟩ := exact_bounds .cmp w _ _ m.r.getCF (dest.denote_lt hd m) (src.denote_lt hs m)
    refine ⟨m', l, hm', hl, ?_⟩
    rw [ArithOp.cpu, aluOut_shifted w m'.r _ _ hu hs' he hse hmod, hread]
  | inc =>
    obtain ⟨code, hcode, hrun⟩ := keepCF_aluOut .inc w computes_add (fun a b cf => rfl) hd hp
    exact ⟨keepCF code, by simp only [ArithOp.codegen, codegenInc, codegenAdd, hcode]; rfl,
      fun m => hrun m _⟩
  | dec =>
    obtain ⟨code, hcode, hrun⟩ := keepCF_aluOut .dec w computes_sub (fun a b cf => rfl) hd hp
    exact ⟨keepCF code, by simp only [ArithOp.codegen, codegenDec, codegenSub, hcode]; rfl,
      fun m => hrun m _⟩

theorem arith_simulates_adc_al_mem :
    let src := Operand.ind ⟨.ds, [.reg (.w .bx), .reg (.w .si)], some 1⟩
    ∃ code, ArithOp.adc.codegen (.reg (.b .al)) src = .ok code ∧ ∀ m : Machine, ∃ m' l,
      code.exec m = .ok m' ∧ Operand.loc m (.reg (.b .al)) = some l ∧
      ArithOp.adc.cpu 8 (Operand.denote m (.reg (.b .al))) (src.denote m) m.r.getCF =
        ⟨(m'.read l).toNat, m'.r.getCF, m'.r.getZF, m'.r.getSF, m'.r.getOF⟩ :=
  arith_simulates .adc .byte _ _ (by decide) trivial (by decide)

end NaviMisc.Sbt86
