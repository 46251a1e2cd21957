import NaviMisc.Sbt86.Machine

/-!
The fragment of C that the straight-line `codegen_*` methods emit, with its
meaning on a `Machine`. An operand narrower than `int` is promoted to a 32-bit
`int`; an operation is unsigned when one of its operands is a `uint32_t`.
-/

namespace NaviMisc.Sbt86

inductive CTy
  | u8 | i8 | u16 | i16 | int | u32
  deriving DecidableEq, Repr

structure CVal where
  isUnsigned : Bool
  bits : BitVec 32
  deriving DecidableEq

def CTy.convert : CTy → BitVec 32 → BitVec 32
  | .u8, x => (x.setWidth 8).setWidth 32
  | .i8, x => (x.setWidth 8).signExtend 32
  | .u16, x => (x.setWidth 16).setWidth 32
  | .i16, x => (x.setWidth 16).signExtend 32
  | .int, x | .u32, x => x

def CTy.cast (t : CTy) (v : CVal) : CVal := ⟨t == .u32, t.convert v.bits⟩

def Var.type : Var → CTy
  | .t => .u16
  | .cf => .int
  | .savedCF => .u32

inductive BinOp
  | add | sub | mul | and | or | xor | shl | shr | eq | ne | land | lor
  deriving DecidableEq, Repr

inductive CExpr
  | lit (n : ℕ)
  | reg (n : Register)
  -- `s.seg[(uint16_t)(off)]`
  | mem8 (seg : Seg) (off : CExpr)
  -- `R16(&s.seg[(uint16_t)(off)])`
  | mem16 (seg : Seg) (off : CExpr)
  | uresult | sresult
  | getCF | getZF | getSF | getOF | saveCF
  | var (x : Var)
  | cast (t : CTy) (e : CExpr)
  | neg (e : CExpr)
  | compl (e : CExpr)
  | not (e : CExpr)
  | bin (op : BinOp) (a b : CExpr)

def CVal.ofBool (b : Bool) : CVal := ⟨false, if b then 1 else 0⟩

def CVal.truth (v : CVal) : Bool := v.bits != 0#32

def BinOp.apply (op : BinOp) (a b : CVal) : CVal :=
  let u := a.isUnsigned || b.isUnsigned
  match op with
  | .add => ⟨u, a.bits + b.bits⟩
  | .sub => ⟨u, a.bits - b.bits⟩
  | .mul => ⟨u, a.bits * b.bits⟩
  | .and => ⟨u, a.bits &&& b.bits⟩
  | .or => ⟨u, a.bits ||| b.bits⟩
  | .xor => ⟨u, a.bits ^^^ b.bits⟩
  | .shl => ⟨a.isUnsigned, a.bits <<< b.bits.toNat⟩
  | .shr => ⟨a.isUnsigned,
      if a.isUnsigned then a.bits >>> b.bits.toNat else a.bits.sshiftRight b.bits.toNat⟩
  | .eq => .ofBool (a.bits == b.bits)
  | .ne => .ofBool (a.bits != b.bits)
  | .land => .ofBool (a.truth && b.truth)
  | .lor => .ofBool (a.truth || b.truth)

def Machine.ptr (m : Machine) (seg : Seg) (off : BitVec 32) : ℕ := m.s seg + (off.setWidth 16).toNat

def CExpr.eval (m : Machine) : CExpr → CVal
  | .lit n => ⟨false, BitVec.ofNat 32 n⟩
  | .reg n => ⟨false, m.getReg n⟩
  | .mem8 seg off => ⟨false, m.read (.mem8 (m.ptr seg (off.eval m).bits))⟩
  | .mem16 seg off => ⟨false, m.read (.mem16 (m.ptr seg (off.eval m).bits))⟩
  | .uresult => ⟨true, m.r.uresult⟩
  | .sresult => ⟨false, m.r.sresult⟩
  | .getCF => .ofBool m.r.getCF
  | .getZF => .ofBool m.r.getZF
  | .getSF => .ofBool m.r.getSF
  | .getOF => .ofBool m.r.getOF
  | .saveCF => ⟨true, m.r.saveCF⟩
  | .var x => ⟨x.type == .u32, m.vars x⟩
  | .cast t e => t.cast (e.eval m)
  | .neg e => let v := e.eval m; ⟨v.isUnsigned, -v.bits⟩
  | .compl e => let v := e.eval m; ⟨v.isUnsigned, ~~~v.bits⟩
  | .not e => .ofBool !(e.eval m).truth
  | .bin op a b => op.apply (a.eval m) (b.eval m)

inductive LVal
  | reg (n : Register)
  | mem8 (seg : Seg) (off : CExpr)
  | mem16 (seg : Seg) (off : CExpr)

def LVal.loc (m : Machine) : LVal → Loc
  | .reg n => .reg n
  | .mem8 seg off => .mem8 (m.ptr seg (off.eval m).bits)
  | .mem16 seg off => .mem16 (m.ptr seg (off.eval m).bits)

inductive CStmt
  | skip
  | seq (a b : CStmt)
  | block (body : CStmt)
  | declare (x : Var) (e : CExpr)
  | assign (lv : LVal) (e : CExpr)
  | setU (e : CExpr)
  | setS (e : CExpr)
  | setCF
  | clearCF
  | restoreCF (x : Var)
  | ifElse (c : CExpr) (a b : CStmt)
  -- `{ int c = cnt; while (c--) { body } }`
  | countdown (cnt : CExpr) (body : CStmt)
  -- `while (r.cx) { body r.cx--; }`, leaving early on a clear ZF when `whileZF`.
  | whileCX (body : CStmt) (whileZF : Bool)
  | quot (lv : LVal) (a b : CExpr)
  | rem (lv : LVal) (a b : CExpr)
  | loadSeg (seg : Seg)
  | pushw (e : CExpr)
  | popw (lv : LVal)
  | pushf
  | popf
  | tick (cycles : ℕ)

inductive Fault
  | stack (f : StackFault)
  | divideByZero
  | diverged
  deriving DecidableEq

def CStmt.ofList (l : List CStmt) : CStmt := l.foldr .seq .skip

abbrev Exec := Machine → Except Fault Machine

def Exec.repeated (body : Exec) : ℕ → Exec
  | 0, m => .ok m
  | n + 1, m => (body m).bind (Exec.repeated body n)

def Exec.whileCX (body : Exec) (whileZF : Bool) : ℕ → Exec
  | 0, m => if m.r.word .cx = 0 then .ok m else .error .diverged
  | n + 1, m =>
    if m.r.word .cx = 0 then .ok m
    else (body m).bind fun m' =>
      let m'' := { m' with r := m'.r.setWord .cx (m'.r.word .cx - 1) }
      if whileZF && !m''.r.getZF then .ok m'' else Exec.whileCX body whileZF n m''

def Machine.onStack {α : Type} (m : Machine) (res : SBTStack.Result α)
    (k : Machine → α → Machine) : Except Fault Machine :=
  match res with
  | (s, .ok a) => .ok (k { m with stack := s } a)
  | (_, .error e) => .error (.stack e)

def CStmt.exec : CStmt → Exec
  | .skip, m => .ok m
  | .seq a b, m => (a.exec m).bind b.exec
  | .block body, m => (body.exec m).map fun m' => { m' with vars := m.vars }
  | .declare x e, m =>
    .ok { m with vars := Function.update m.vars x (x.type.convert (e.eval m).bits) }
  | .assign lv e, m => .ok (m.write (lv.loc m) (e.eval m).bits)
  | .setU e, m => .ok (m.withResult (e.eval m).bits m.r.sresult)
  | .setS e, m => .ok (m.withResult m.r.uresult (e.eval m).bits)
  | .setCF, m => .ok { m with r := m.r.setCF }
  | .clearCF, m => .ok { m with r := m.r.clearCF }
  | .restoreCF x, m => .ok { m with r := m.r.restoreCF (m.vars x) }
  | .ifElse c a b, m => if (c.eval m).truth then a.exec m else b.exec m
  | .countdown cnt body, m => Exec.repeated body.exec (cnt.eval m).bits.toNat m
  | .whileCX body z, m => Exec.whileCX body.exec z (m.r.word .cx).toNat m
  | .quot lv a b, m =>
    if (b.eval m).bits = 0 then .error .divideByZero
    else .ok (m.write (lv.loc m) ((a.eval m).bits.sdiv (b.eval m).bits))
  | .rem lv a b, m =>
    if (b.eval m).bits = 0 then .error .divideByZero
    else .ok (m.write (lv.loc m) ((a.eval m).bits.srem (b.eval m).bits))
  | .loadSeg seg, m => .ok { m with s := Function.update m.s seg (memSeg (m.r.word seg.reg)) }
  | .pushw e, m => m.onStack (m.stack.pushw ((e.eval m).bits.setWidth 16)) fun m _ => m
  | .popw lv, m => m.onStack m.stack.popw fun m' v => m'.write (lv.loc m) (v.setWidth 32)
  | .pushf, m => m.onStack (m.stack.pushf m.r) fun m _ => m
  | .popf, m => m.onStack (m.stack.popf m.r) fun m r => { m with r := r }
  | .tick n, m => .ok { m with gClock := m.gClock + BitVec.ofNat 32 n }

end NaviMisc.Sbt86

/-!
The operands of scripts/sbt86.py (`Addr16`, `Literal`, `Register`, `Indirect`)
and the C each one generates for a read and for a write.
-/

namespace NaviMisc.Sbt86

structure Addr16 where
  segment : ℕ
  offset : ℕ
  linear : ℕ
  offset_lt : offset < 0x10000
  linear_eq : linear = segment * 16 + offset
  deriving DecidableEq

/-- `Addr16.__init__` from a segment and an offset: the excess of the offset moves to the segment. -/
def Addr16.ofParts (segment offset : ℕ) : Addr16 where
  segment := segment + offset / 0x10000 * 0x1000
  offset := offset % 0x10000
  linear := segment * 16 + offset
  offset_lt := Nat.mod_lt _ (by decide)
  linear_eq := by omega

def Addr16.add (a : Addr16) (x : ℕ) : Addr16 := .ofParts a.segment (a.offset + x)

@[simp] theorem Addr16.linear_add (a : Addr16) (x : ℕ) : (a.add x).linear = a.linear + x := by
  simp only [add, ofParts, a.linear_eq]
  omega

structure Literal where
  value : ℕ
  addr : Option Addr16
  width : Option ℕ
  dynamic : Bool
  deriving DecidableEq

def Literal.const (value : ℕ) : Literal := ⟨value, none, none, false⟩

inductive OffsetTerm
  | reg (n : Register)
  | lit (l : Literal)
  deriving DecidableEq

structure Indirect where
  segment : Seg
  offsets : List OffsetTerm
  width : Option ℕ
  deriving DecidableEq

inductive Operand
  | reg (n : Register)
  | lit (l : Literal)
  | ind (i : Indirect)
  | far (a : Addr16)
  deriving DecidableEq

inductive GenError
  | unsupportedOpcode
  | arity
  | unsupportedWidth
  | noLiteralAddr
  | notWritable
  | noOffset
  | assertion
  | dynamicBranch
  | noNextAddr
  | noCycleCount
  | notInteger
  deriving DecidableEq

abbrev Gen := Except GenError

def Operand.width : Operand → Option ℕ
  | .reg n => some n.width
  | .lit l => l.width
  | .ind i => i.width
  | .far _ => some 4

def memRead (seg : Seg) (width : Option ℕ) (off : CExpr) : Gen CExpr :=
  if width = some 1 then .ok (.mem8 seg off)
  else if width = some 2 then .ok (.mem16 seg off)
  else .error .unsupportedWidth

def memWrite (seg : Seg) (width : Option ℕ) (off : CExpr) : Gen LVal :=
  if width = some 1 then .ok (.mem8 seg off)
  else if width = some 2 then .ok (.mem16 seg off)
  else .error .unsupportedWidth

def Literal.codegen (l : Literal) : Gen CExpr :=
  if l.dynamic then
    match l.addr with
    | none => .error .noLiteralAddr
    | some a => memRead .cs l.width (.lit a.offset)
  else .ok (.lit l.value)

def OffsetTerm.codegen : OffsetTerm → Gen CExpr
  | .reg n => .ok (.reg n)
  | .lit l => l.codegen

def genSum (acc : CExpr) : List OffsetTerm → Gen CExpr
  | [] => .ok acc
  | t :: ts => do genSum (.bin .add acc (← t.codegen)) ts

def Indirect.genOffset (i : Indirect) : Gen CExpr :=
  match i.offsets with
  | [] => .error .noOffset
  | t :: ts => do genSum (← t.codegen) ts

def Operand.codegen : Operand → Gen CExpr
  | .reg n => .ok (.reg n)
  | .lit l => l.codegen
  | .ind i => do memRead i.segment i.width (← i.genOffset)
  | .far _ => .error .assertion

def Operand.codegenW : Operand → Gen LVal
  | .reg n => .ok (.reg n)
  | .lit _ => .error .notWritable
  | .ind i => do memWrite i.segment i.width (← i.genOffset)
  | .far _ => .error .assertion

def signed (o : Operand) : Gen CExpr := do
  return .cast (if o.width = some 1 then .i8 else .i16) (← o.codegen)

def u32 (o : Operand) : Gen CExpr := do
  return .cast .u32 (← o.codegen)

end NaviMisc.Sbt86
