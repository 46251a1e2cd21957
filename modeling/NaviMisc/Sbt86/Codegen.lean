import NaviMisc.Sbt86.CCode

/-!
The straight-line `codegen_*` methods of `Instruction`. User traces
(`DOSBinary.trace`) are not modelled: `_genTraces` emits the internal traces,
which refresh a cached segment pointer after its register is written.
-/

namespace NaviMisc.Sbt86

open CStmt (ofList)

inductive Access
  | r | w
  deriving DecidableEq

def Register.seg : Register → Option Seg
  | .w .cs => some .cs
  | .w .ds => some .ds
  | .w .es => some .es
  | .w .ss => some .ss
  | _ => none

def genTrace : Operand × Access → CStmt
  | (.reg n, .w) => match n.seg with
    | some seg => .loadSeg seg
    | none => .skip
  | _ => .skip

def genTraces (ops : List (Operand × Access)) : CStmt := ofList (ops.map genTrace)

def resultShift (dest : Operand) : CStmt :=
  if dest.width = some 1 then
    .seq (.setU (.bin .shl .uresult (.lit 8))) (.setS (.bin .shl .sresult (.lit 8)))
  else .skip

def repeatCode (cnt : Operand) (contents : CStmt) : Gen CStmt :=
  match cnt with
  | .lit l => if l.value = 1 then .ok (.block contents)
    else do return .block (.countdown (← l.codegen) contents)
  | _ => do return .block (.countdown (← cnt.codegen) contents)

def msbShift (o : Operand) : Gen ℕ :=
  match o.width with
  | some n => .ok (n * 8 - 1)
  | none => .error .unsupportedWidth

def codegenMov (dest src : Operand) : Gen CStmt := do
  return ofList [.assign (← dest.codegenW) (← src.codegen), genTraces [(src, .r), (dest, .w)]]

/-- The shape of `codegen_xor`, `codegen_or` and `codegen_and`. -/
def codegenLogic (op : BinOp) (dest src : Operand) : Gen CStmt := do
  return ofList [.setU (.bin op (← dest.codegen) (← src.codegen)),
    .assign (← dest.codegenW) .uresult, .setS (.lit 0), resultShift dest,
    genTraces [(src, .r), (dest, .r), (dest, .w)]]

def codegenXor : Operand → Operand → Gen CStmt := codegenLogic .xor

def codegenOr : Operand → Operand → Gen CStmt := codegenLogic .or

def codegenAnd : Operand → Operand → Gen CStmt := codegenLogic .and

/-- The shape of `codegen_add`, `codegen_adc`, `codegen_sub` and `codegen_sbb`: both result
words are computed by `f`, then the destination is stored. -/
def codegenArith (f : CExpr → CExpr → CExpr) (dest src : Operand) : Gen CStmt := do
  return ofList [.setS (f (← signed dest) (← signed src)), .setU (f (← u32 dest) (← u32 src)),
    .assign (← dest.codegenW) .uresult, resultShift dest,
    genTraces [(src, .r), (dest, .r), (dest, .w)]]

def codegenAdd : Operand → Operand → Gen CStmt :=
  codegenArith fun a b => .bin .add a b

def codegenAdc : Operand → Operand → Gen CStmt :=
  codegenArith fun a b => .bin .add (.bin .add a b) .getCF

def codegenSub : Operand → Operand → Gen CStmt :=
  codegenArith fun a b => .bin .sub a b

def codegenSbb : Operand → Operand → Gen CStmt :=
  codegenArith fun a b => .bin .sub a (.bin .add b .getCF)

def codegenShl (r cnt : Operand) : Gen CStmt := do
  let body := ofList [.setS (.lit 0), .setU (.bin .shl (.cast .u32 (← r.codegen)) (.lit 1)),
    .assign (← r.codegenW) .uresult, genTraces [(cnt, .r), (r, .r), (r, .w)]]
  return .seq (← repeatCode cnt body) (resultShift r)

def codegenShr (r cnt : Operand) : Gen CStmt := do
  let body := ofList [.setS (.lit 0),
    .setU (.bin .shl (.bin .and (← u32 r) (.lit 1)) (.lit 16)),
    .assign (← r.codegenW) (.bin .shr (← r.codegen) (.lit 1)),
    genTraces [(cnt, .r), (r, .r), (r, .w)]]
  repeatCode cnt body

def codegenSar (r cnt : Operand) : Gen CStmt := do
  let body := ofList [.setS (.lit 0),
    .setU (.bin .shl (.bin .and (← u32 r) (.lit 1)) (.lit 16)),
    .assign (← r.codegenW) (.bin .shr (.cast .i16 (← r.codegen)) (.lit 1)),
    genTraces [(cnt, .r), (r, .r), (r, .w)]]
  repeatCode cnt body

def codegenRor (r cnt : Operand) : Gen CStmt := do
  let x ← r.codegen
  let body := ofList [.setS (.lit 0),
    .setU (.bin .shl (.bin .and (.cast .u32 x) (.lit 1)) (.lit 16)),
    .assign (← r.codegenW)
      (.bin .add (.bin .shr x (.lit 1)) (.bin .shl x (.lit (← msbShift r)))),
    genTraces [(cnt, .r), (r, .r), (r, .w)]]
  repeatCode cnt body

def codegenRcr (r cnt : Operand) : Gen CStmt := do
  let x ← r.codegen
  let body := ofList [.declare .cf .getCF, .setS (.lit 0), .setU (.bin .shl x (.lit 16)),
    .assign (← r.codegenW)
      (.bin .add (.bin .shr x (.lit 1)) (.bin .shl (.var .cf) (.lit (← msbShift r)))),
    genTraces [(cnt, .r), (r, .r), (r, .w)]]
  repeatCode cnt body

def codegenRcl (r cnt : Operand) : Gen CStmt := do
  let body := ofList [.setS (.lit 0), .setU (.bin .add (.bin .shl (← u32 r) (.lit 1)) .getCF),
    .assign (← r.codegenW) .uresult, resultShift r, genTraces [(cnt, .r), (r, .r), (r, .w)]]
  repeatCode cnt body

def codegenXchg (a b : Operand) : Gen CStmt := do
  return .block (ofList [.declare .t (← a.codegen), .assign (← a.codegenW) (← b.codegen),
    .assign (← b.codegenW) (.var .t), genTraces [(a, .r), (b, .r), (a, .w), (b, .w)]])

def codegenImul (arg : Operand) : Gen CStmt := do
  return .assign (.reg (.w .ax)) (.bin .mul (.cast .i8 (.reg (.b .al))) (← arg.codegen))

def codegenMul (arg : Operand) : Gen CStmt := do
  return .assign (.reg (.w .ax)) (.bin .mul (.reg (.b .al)) (← arg.codegen))

def codegenDiv (arg : Operand) : Gen CStmt := do
  return ofList [.quot (.reg (.b .al)) (.reg (.w .ax)) (← arg.codegen),
    .rem (.reg (.b .ah)) (.reg (.w .ax)) (← arg.codegen)]

def codegenCmc : Gen CStmt := .ok (.ifElse .getCF .clearCF .setCF)

def codegenClc : Gen CStmt := .ok .clearCF

def codegenStc : Gen CStmt := .ok .setCF

def codegenCbw : Gen CStmt := .ok (.assign (.reg (.w .ax)) (.cast .i16 (.cast .i8 (.reg (.b .al)))))

def codegenCmp (a b : Operand) : Gen CStmt := do
  return ofList [.setS (.bin .sub (← signed a) (← signed b)),
    .setU (.bin .sub (← u32 a) (← u32 b)), resultShift a]

def codegenTest (a b : Operand) : Gen CStmt := do
  return ofList [.setU (.bin .and (← a.codegen) (← b.codegen)), .setS (.lit 0), resultShift a]

def keepCF (code : CStmt) : CStmt :=
  .block (ofList [.declare .savedCF .saveCF, code, .restoreCF .savedCF])

def codegenInc (arg : Operand) : Gen CStmt := do
  return keepCF (← codegenAdd arg (.lit (.const 1)))

def codegenDec (arg : Operand) : Gen CStmt := do
  return keepCF (← codegenSub arg (.lit (.const 1)))

def codegenNot (arg : Operand) : Gen CStmt := do
  return ofList [.assign (← arg.codegenW) (.compl (← arg.codegen)),
    genTraces [(arg, .r), (arg, .w)]]

def codegenNeg (arg : Operand) : Gen CStmt := do
  return ofList [.assign (← arg.codegenW) (.neg (← arg.codegen)), genTraces [(arg, .r), (arg, .w)]]

def codegenLes (dest src : Operand) : Gen CStmt :=
  match src with
  | .ind i =>
    if i.width = some 2 then do
      let segPtr := Operand.ind
        { segment := i.segment, offsets := i.offsets ++ [.lit (.const 2)], width := some 2 }
      let es := Operand.reg (.w .es)
      return ofList [.assign (← dest.codegenW) (← src.codegen),
        .assign (← es.codegenW) (← segPtr.codegen),
        genTraces [(src, .r), (segPtr, .r), (dest, .w), (es, .w)]]
    else .error .assertion
  | _ => .error .assertion

def advance (n : Reg16) (k : ℕ) : CStmt := .assign (.reg (.w n)) (.bin .add (.reg (.w n)) (.lit k))

def strSrc (width : ℕ) : Operand := .ind ⟨.ds, [.reg (.w .si)], some width⟩

def strDest (width : ℕ) : Operand := .ind ⟨.es, [.reg (.w .di)], some width⟩

def codegenMovsw : Gen CStmt := do
  return ofList [.assign (← (strDest 2).codegenW) (← (strSrc 2).codegen), advance .si 2,
    advance .di 2, genTraces [(strSrc 2, .r), (strDest 2, .w)]]

def codegenStosb : Gen CStmt := do
  return ofList [.assign (← (strDest 1).codegenW) (.reg (.b .al)), advance .di 1,
    genTraces [(strDest 1, .w)]]

def codegenStosw : Gen CStmt := do
  return ofList [.assign (← (strDest 2).codegenW) (.reg (.w .ax)), advance .di 2,
    genTraces [(strDest 2, .w)]]

def codegenScasb : Gen CStmt := do
  return ofList [← codegenCmp (.reg (.b .al)) (strDest 1), advance .di 1]

def codegenLodsb : Gen CStmt := do
  return ofList [.assign (.reg (.b .al)) (← (strSrc 1).codegen), advance .si 1,
    genTraces [(strSrc 1, .r)]]

def codegenRepStosw : Gen CStmt := do return .whileCX (← codegenStosw) false

def codegenRepMovsw : Gen CStmt := do return .whileCX (← codegenMovsw) false

def codegenRepStosb : Gen CStmt := do return .whileCX (← codegenStosb) false

def codegenRepScasb : Gen CStmt := do return .whileCX (← codegenScasb) true

def codegenPush (arg : Operand) : Gen CStmt := do
  return ofList [.pushw (← arg.codegen), genTraces [(arg, .r)]]

def codegenPop (arg : Operand) : Gen CStmt := do
  return ofList [.popw (← arg.codegenW), genTraces [(arg, .w)]]

def codegenPushaw : Gen CStmt := do
  let push (n : Reg16) := codegenPush (.reg (.w n))
  return ofList [← push .ax, ← push .cx, ← push .dx, ← push .bx, ← push .sp, ← push .bp,
    ← push .si, ← push .di]

def codegenPopaw : Gen CStmt := do
  let pop (n : Reg16) := codegenPop (.reg (.w n))
  return ofList [← codegenPush (.reg (.w .di)), ← pop .si, ← pop .bp, ← pop .sp, ← pop .bx,
    ← pop .dx, ← pop .cx, ← pop .ax]

def codegenPushf : Gen CStmt := .ok .pushf

def codegenPopf : Gen CStmt := .ok .popf

def codegenNop : Gen CStmt := .ok .skip

end NaviMisc.Sbt86
