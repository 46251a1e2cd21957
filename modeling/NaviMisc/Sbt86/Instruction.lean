import NaviMisc.Sbt86.Codegen

/-!
`Instruction` of scripts/sbt86.py after its line is parsed: where it continues
and branches to, the `codegen_*` methods that transfer control or reach the
hardware, and the cycle counts that `codegen` appends.
-/

namespace NaviMisc.Sbt86

inductive Op
  | mov | xor | or | and | add | adc | sub | sbb
  | shl | shr | sar | ror | rcr | rcl
  | xchg | imul | mul | div | cmc | clc | stc | cbw | cmp | test | inc | dec | not | neg | les
  | rep_stosw | rep_movsw | rep_stosb | rep_scasb | movsw | stosb | stosw | scasb | lodsb
  | push | pop | pushaw | popaw | pushfw | pushf | popfw | popf | nop | cli | sti
  | jz | jnz | jc | jnc | js | jns | ja | jnl | jl | jng | jna | jcxz
  | loop | jmp | call | ret | retf | iret
  | int | out | in_
  -- An opcode without a `codegen_*` method.
  | other (name : String)
  deriving DecidableEq

namespace Op

def isCondJump (op : Op) : Bool :=
  op ∈ [jz, jnz, jc, jnc, js, jns, ja, jnl, jl, jng, jna, jcxz]

def startsWithJ : Op → Bool
  | other name => name.front == 'j'
  | op => op.isCondJump || op == jmp

def endsFlow (op : Op) : Bool := op ∈ [jmp, ret, iret, retf]

def hasLabel (op : Op) : Bool := op.startsWithJ || op ∈ [call, loop]

def branches (op : Op) : Bool := op.endsFlow || op.hasLabel

end Op

structure Instruction where
  op : Op
  addr : Addr16
  -- The offset near branches are relative to: the segment base.
  base : Addr16
  args : List Operand
  -- 0 when a patch gives no encoding.
  encodingLength : ℕ
  deriving DecidableEq

namespace Instruction

def length (i : Instruction) : Option ℕ :=
  if i.encodingLength = 0 then none else some i.encodingLength

theorem length_pos {i : Instruction} {n : ℕ} (h : i.length = some n) : 0 < n := by
  rw [length] at h
  split at h
  · cases h
  · cases h
    omega

def labels (i : Instruction) : List Addr16 :=
  if i.op.hasLabel then
    match i.args with
    | .lit l :: _ => [i.base.add l.value]
    | .far a :: _ => [a]
    | _ => []
  else []

def nextAddrs (i : Instruction) : List Addr16 :=
  (if i.op.endsFlow then []
   else match i.length with
    | none => []
    | some n => [i.addr.add n]) ++ i.labels

end Instruction

/-- The C of one instruction: a statement, a transfer of control, or a call of the hardware. Labels
and functions are named by the linear address they stand for. -/
inductive Code
  | stmt (s : CStmt)
  | gotoIf (c : CExpr) (target : ℕ)
  | gotoLoop (target : ℕ)
  | goto (target : ℕ)
  | gotoSwitch (arg : CExpr) (cases : List (ℕ × ℕ)) (site : Addr16)
  | gotoRet
  | call (target : ℕ)
  | callSwitch (arg : CExpr) (cases : List (ℕ × ℕ)) (site : Addr16)
  | interrupt (n : ℕ)
  | out (port value : CExpr)
  | in_ (dest port : CExpr)

def Code.gotos : Code → List ℕ
  | .gotoIf _ t | .gotoLoop t | .goto t => [t]
  | .gotoSwitch _ cases _ => cases.map Prod.snd
  | _ => []

def Code.calls : Code → List ℕ
  | .call t => [t]
  | .callSwitch _ cases _ => cases.map Prod.snd
  | _ => []

inductive Method (α : Type)
  | nullary (code : Gen α)
  | unary (f : Operand → Gen α)
  | binary (f : Operand → Operand → Gen α)

def Method.call {α : Type} : Method α → List Operand → Gen α
  | .nullary code, [] => code
  | .unary f, [a] => f a
  | .binary f, [a, b] => f a b
  | _, _ => .error .arity

def Method.map {α β : Type} (g : α → β) : Method α → Method β
  | .nullary code => .nullary (code.map g)
  | .unary f => .unary fun a => (f a).map g
  | .binary f => .binary fun a b => (f a b).map g

theorem Method.call_map {α β : Type} (g : α → β) (m : Method α) (args : List Operand) :
    (m.map g).call args = (m.call args).map g := by
  cases m with
  | nullary code => cases args <;> rfl
  | unary f => match args with
    | [] | [_] | _ :: _ :: _ => rfl
  | binary f => match args with
    | [] | [_] | [_, _] | _ :: _ :: _ :: _ => rfl

def Op.statement : Op → Option (Method CStmt)
  | .mov => some (.binary codegenMov)
  | .xor => some (.binary codegenXor)
  | .or => some (.binary codegenOr)
  | .and => some (.binary codegenAnd)
  | .add => some (.binary codegenAdd)
  | .adc => some (.binary codegenAdc)
  | .sub => some (.binary codegenSub)
  | .sbb => some (.binary codegenSbb)
  | .shl => some (.binary codegenShl)
  | .shr => some (.binary codegenShr)
  | .sar => some (.binary codegenSar)
  | .ror => some (.binary codegenRor)
  | .rcr => some (.binary codegenRcr)
  | .rcl => some (.binary codegenRcl)
  | .xchg => some (.binary codegenXchg)
  | .imul => some (.unary codegenImul)
  | .mul => some (.unary codegenMul)
  | .div => some (.unary codegenDiv)
  | .cmc => some (.nullary codegenCmc)
  | .clc => some (.nullary codegenClc)
  | .stc => some (.nullary codegenStc)
  | .cbw => some (.nullary codegenCbw)
  | .cmp => some (.binary codegenCmp)
  | .test => some (.binary codegenTest)
  | .inc => some (.unary codegenInc)
  | .dec => some (.unary codegenDec)
  | .not => some (.unary codegenNot)
  | .neg => some (.unary codegenNeg)
  | .les => some (.binary codegenLes)
  | .rep_stosw => some (.nullary codegenRepStosw)
  | .rep_movsw => some (.nullary codegenRepMovsw)
  | .rep_stosb => some (.nullary codegenRepStosb)
  | .rep_scasb => some (.nullary codegenRepScasb)
  | .movsw => some (.nullary codegenMovsw)
  | .stosb => some (.nullary codegenStosb)
  | .stosw => some (.nullary codegenStosw)
  | .scasb => some (.nullary codegenScasb)
  | .lodsb => some (.nullary codegenLodsb)
  | .push => some (.unary codegenPush)
  | .pop => some (.unary codegenPop)
  | .pushaw => some (.nullary codegenPushaw)
  | .popaw => some (.nullary codegenPopaw)
  | .pushfw | .pushf => some (.nullary codegenPushf)
  | .popfw | .popf => some (.nullary codegenPopf)
  | .nop | .cli | .sti => some (.nullary codegenNop)
  | _ => none

namespace Instruction

def lastNext (i : Instruction) : Gen Addr16 :=
  match i.nextAddrs.getLast? with
  | some a => .ok a
  | none => .error .noNextAddr

def genBranch (c : CExpr) (i : Instruction) : Gen Code := do
  return .gotoIf c (← i.lastNext).linear

def codegenJz : Instruction → Gen Code := genBranch .getZF

def codegenJnz : Instruction → Gen Code := genBranch (.not .getZF)

def codegenJc : Instruction → Gen Code := genBranch .getCF

def codegenJnc : Instruction → Gen Code := genBranch (.not .getCF)

def codegenJs : Instruction → Gen Code := genBranch .getSF

def codegenJns : Instruction → Gen Code := genBranch (.not .getSF)

def codegenJa : Instruction → Gen Code := genBranch (.bin .land (.not .getCF) (.not .getZF))

def codegenJnl : Instruction → Gen Code := genBranch (.bin .eq .getSF .getOF)

def codegenJl : Instruction → Gen Code := genBranch (.bin .ne .getSF .getOF)

def codegenJng : Instruction → Gen Code := genBranch (.bin .lor .getZF (.bin .ne .getSF .getOF))

def codegenJna : Instruction → Gen Code := genBranch (.bin .lor .getCF .getZF)

def codegenJcxz : Instruction → Gen Code := genBranch (.not (.reg (.w .cx)))

def codegenLoop (i : Instruction) : Gen Code := do
  return .gotoLoop (← i.lastNext).linear

def switchCases (dynTargets : List Addr16) : List (ℕ × ℕ) :=
  dynTargets.map fun a => (a.offset, a.linear)

def genTransfer (static : ℕ → Code) (dynamic : CExpr → List (ℕ × ℕ) → Addr16 → Code)
    (i : Instruction) (dynTargets : List Addr16) (arg : Operand) : Gen Code :=
  match arg with
  | .lit _ | .far _ => do return static (← i.lastNext).linear
  | .reg _ | .ind _ =>
    if dynTargets = [] then .error .dynamicBranch
    else do return dynamic (← arg.codegen) (switchCases dynTargets) i.addr

def codegenJmp : Instruction → List Addr16 → Operand → Gen Code :=
  genTransfer .goto .gotoSwitch

def codegenCall : Instruction → List Addr16 → Operand → Gen Code :=
  genTransfer .call .callSwitch

def codegenRet : Gen Code := .ok .gotoRet

def codegenInt : Operand → Gen Code
  | .lit l => .ok (.interrupt l.value)
  | _ => .error .notInteger

def codegenOut (port value : Operand) : Gen Code := do
  return .out (← port.codegen) (← value.codegen)

def codegenIn (value port : Operand) : Gen Code := do
  return .in_ (← value.codegen) (← port.codegen)

end Instruction

def Op.branch : Op → Option (Instruction → Gen Code)
  | .jz => some Instruction.codegenJz
  | .jnz => some Instruction.codegenJnz
  | .jc => some Instruction.codegenJc
  | .jnc => some Instruction.codegenJnc
  | .js => some Instruction.codegenJs
  | .jns => some Instruction.codegenJns
  | .ja => some Instruction.codegenJa
  | .jnl => some Instruction.codegenJnl
  | .jl => some Instruction.codegenJl
  | .jng => some Instruction.codegenJng
  | .jna => some Instruction.codegenJna
  | .jcxz => some Instruction.codegenJcxz
  | .loop => some Instruction.codegenLoop
  | _ => none

/-- `getattr(self, "codegen_%s" % self.op, None)` -/
def Instruction.method (i : Instruction) (dynTargets : List Addr16) : Option (Method Code) :=
  match i.op with
  | .jmp => some (.unary (i.codegenJmp dynTargets))
  | .call => some (.unary (i.codegenCall dynTargets))
  | .ret | .retf => some (.nullary codegenRet)
  | .int => some (.unary codegenInt)
  | .out => some (.binary codegenOut)
  | .in_ => some (.binary codegenIn)
  | op => (op.branch.map fun f => .unary fun _ => f i).or (op.statement.map (Method.map .stmt))

inductive ArgClass
  | register | literal | indirect | addr16
  deriving DecidableEq

def Operand.class_ : Operand → ArgClass
  | .reg _ => .register
  | .lit _ => .literal
  | .ind _ => .indirect
  | .far _ => .addr16

def cycleTable (op : Op) (sig : List ArgClass) : Option ℕ :=
  if op.isCondJump then
    match sig with
    | [.literal] => some 16
    | _ => none
  else if op ∈ [Op.shl, .shr, .rcl, .rcr, .sar, .ror] then
    match sig with
    | [.register, .register] => some 12
    | [.indirect, .register] => some 32
    | [.indirect, .literal] => some 23
    | [.register, .literal] => some 2
    | _ => none
  else if op ∈ [Op.xor, .and, .or, .add, .sub, .adc, .sbb] then
    match sig with
    | [.register, .register] => some 3
    | [.indirect, .register] => some 24
    | [.register, .indirect] => some 13
    | [.register, .literal] => some 4
    | [.indirect, .literal] => some 23
    | _ => none
  else match op, sig with
    | .mov, [.register, .register] => some 2
    | .mov, [.indirect, .register] => some 13
    | .mov, [.register, .indirect] => some 12
    | .mov, [.indirect, .literal] => some 14
    | .mov, [.register, .literal] => some 4
    | .cmp, [.register, .register] => some 3
    | .cmp, [.indirect, .register] => some 13
    | .cmp, [.register, .indirect] => some 12
    | .cmp, [.indirect, .literal] => some 14
    | .cmp, [.register, .literal] => some 4
    | .test, [.register, .register] => some 3
    | .test, [.indirect, .register] => some 13
    | .test, [.register, .indirect] => some 13
    | .test, [.indirect, .literal] => some 11
    | .test, [.register, .literal] => some 5
    | .xchg, [.register, .register] => some 4
    | .xchg, [.indirect, .register] => some 25
    | .xchg, [.register, .indirect] => some 25
    | .imul, [.register] => some 89
    | .imul, [.indirect] => some 95
    | .mul, [.register] => some 73
    | .mul, [.indirect] => some 79
    | .div, [.register] => some 85
    | .div, [.indirect] => some 91
    | .not, [.register] => some 3
    | .not, [.indirect] => some 24
    | .neg, [.register] => some 3
    | .neg, [.indirect] => some 24
    | .inc, [.register] => some 3
    | .inc, [.indirect] => some 23
    | .dec, [.register] => some 3
    | .dec, [.indirect] => some 23
    | .les, [.register, .indirect] => some 24
    | .jmp, [.literal] => some 15
    | .loop, [.literal] => some 17
    | .call, [.literal] => some 23
    | .ret, [] => some 20
    | .out, [.literal, .register] => some 14
    | .out, [.register, .register] => some 12
    | .in_, [.register, .literal] => some 14
    | .in_, [.register, .register] => some 12
    | .push, [.register] => some 15
    | .push, [.indirect] => some 24
    | .pop, [.register] => some 12
    | .pop, [.indirect] => some 25
    | .cmc, [] => some 2
    | .clc, [] => some 2
    | .stc, [] => some 2
    | .cbw, [] => some 2
    | .int, [.literal] => some 0
    | .rep_stosb, [] => some 0
    | .rep_stosw, [] => some 0
    | .rep_movsw, [] => some 0
    | _, _ => none

namespace Instruction

def cycles (i : Instruction) (clockEnable : Bool) : Gen (Option ℕ) :=
  if clockEnable then
    match cycleTable i.op (i.args.map Operand.class_) with
    | some n => .ok (some n)
    | none => .error .noCycleCount
  else .ok none

def codegen (i : Instruction) (dynTargets : List Addr16) (clockEnable : Bool) :
    Gen (Code × Option ℕ) :=
  match i.method dynTargets with
  | none => .error .unsupportedOpcode
  | some f => do return (← f.call i.args, ← i.cycles clockEnable)

end Instruction

end NaviMisc.Sbt86
