import NaviMisc.Lib.Memory

/-!
The instructions of the processor that the interrupt routines are made of, in flat protected mode.
The operands stand in the order of the assembler: source before destination.
-/

namespace NaviMisc.Metalkit

open NaviMisc.Lib.WordMemory

inductive Reg
  | eax | ecx | edx | ebx | esp | ebp | esi | edi
  deriving DecidableEq

open Reg

structure Cpu where
  reg : Reg → Word
  eip : Word
  cs : BitVec 16
  eflags : Word
  mem : Bytes

inductive Instr
  | pusha
  | popa
  | pushf
  | push (imm : Word)
  | pop (dst : Reg)
  | mov (src dst : Reg)
  | movImm (imm : Word) (dst : Reg)
  | movLoad (disp : Word) (base dst : Reg)
  | lea (disp : Word) (base dst : Reg)
  | movCs
  | addImm (imm : Word) (dst : Reg)
  | subImm (imm : Word) (dst : Reg)
  | subMem (imm disp : Word) (base : Reg)
  | xor (src dst : Reg)
  | stosl
  | movsl
  | repMovsl
  | std
  | call (target : Reg)
  | ret
  | iret
  deriving DecidableEq

/-- An address relative to `esp` takes a second byte. -/
def baseSize (base : Reg) : ℕ := if base = esp then 2 else 1

def Instr.size : Instr → ℕ
  | push _ | movImm _ _ => 5
  | movLoad _ base _ | lea _ base _ => 2 + baseSize base
  | subMem _ _ base => 3 + baseSize base
  | movCs | addImm _ _ | subImm _ _ => 3
  | mov _ _ | xor _ _ | repMovsl | call _ => 2
  | _ => 1

namespace Cpu

def set (c : Cpu) (r : Reg) (w : Word) : Cpu :=
  { c with reg := fun x => if x = r then w else c.reg x }

def directionFlag (c : Cpu) : Bool := c.eflags.getLsbD 10

def push (c : Cpu) (w : Word) : Cpu :=
  { c with mem := store c.mem (c.reg esp - 4) w }.set esp (c.reg esp - 4)

def pop (c : Cpu) (dst : Reg) : Cpu :=
  (c.set esp (c.reg esp + 4)).set dst (load c.mem (c.reg esp))

def pushes (c : Cpu) (ws : List Word) : Cpu := ws.foldl push c

def pusha (c : Cpu) : Cpu := c.pushes ([eax, ecx, edx, ebx, esp, ebp, esi, edi].map c.reg)

/-- The word of `esp` is skipped. -/
def popa (c : Cpu) : Cpu :=
  let skipped := ((c.pop edi).pop esi).pop ebp
  ((((skipped.set esp (skipped.reg esp + 4)).pop ebx).pop edx).pop ecx).pop eax

def bit (b : Bool) (k : ℕ) : Word := (BitVec.ofBool b).setWidth 32 <<< k

def parity (w : Word) : Bool := ((List.range 8).countP fun k => w.getLsbD k) % 2 = 0

def statusMask : Word := 0x8d5

def setStatus (c : Cpu) (carry adjust overflow : Bool) (result : Word) : Cpu :=
  let status := bit carry 0 ||| bit (parity result) 2 ||| bit adjust 4 |||
    bit (result == 0) 6 ||| bit result.msb 7 ||| bit overflow 11
  { c with eflags := (c.eflags &&& ~~~statusMask) ||| (status &&& statusMask) }

def setAdd (c : Cpu) (x y : Word) : Cpu :=
  c.setStatus (x + y < x) (x.extractLsb' 0 4 + y.extractLsb' 0 4 < x.extractLsb' 0 4)
    (x.msb == y.msb && (x + y).msb != x.msb) (x + y)

def setSub (c : Cpu) (x y : Word) : Cpu :=
  c.setStatus (x < y) (x.extractLsb' 0 4 < y.extractLsb' 0 4)
    (x.msb != y.msb && (x - y).msb != x.msb) (x - y)

def stride (c : Cpu) : Word := if c.directionFlag then -4 else 4

def stos (c : Cpu) : Cpu :=
  { c with mem := store c.mem (c.reg edi) (c.reg eax) }.set edi (c.reg edi + c.stride)

def movs (c : Cpu) : Cpu :=
  ({ c with mem := store c.mem (c.reg edi) (load c.mem (c.reg esi)) }.set
    esi (c.reg esi + c.stride)).set edi (c.reg edi + c.stride)

def repMovs : ℕ → Cpu → Cpu
  | 0, c => c
  | n + 1, c => repMovs n (c.movs.set ecx (c.reg ecx - 1))

end Cpu

/-- The flags that the saved ones never have: VM and RF. -/
def pushfMask : Word := 0x00fcffff

def Instr.exec (c : Cpu) : Instr → Cpu
  | pusha => c.pusha
  | popa => c.popa
  | pushf => c.push (c.eflags &&& pushfMask)
  | push imm => c.push imm
  | pop dst => c.pop dst
  | mov src dst => c.set dst (c.reg src)
  | movImm imm dst => c.set dst imm
  | movLoad disp base dst => c.set dst (load c.mem (c.reg base + disp))
  | lea disp base dst => c.set dst (c.reg base + disp)
  | movCs => c.set eax ((c.reg eax).extractLsb' 16 16 ++ c.cs)
  | addImm imm dst => (c.setAdd (c.reg dst) imm).set dst (c.reg dst + imm)
  | subImm imm dst => (c.setSub (c.reg dst) imm).set dst (c.reg dst - imm)
  | subMem imm disp base =>
    let a := c.reg base + disp
    { c.setSub (load c.mem a) imm with mem := store c.mem a (load c.mem a - imm) }
  | xor src dst =>
    let w := c.reg dst ^^^ c.reg src
    (c.setStatus false false false w).set dst w
  | stosl => c.stos
  | movsl => c.movs
  | repMovsl => c.repMovs (c.reg ecx).toNat
  | std => { c with eflags := c.eflags ||| 1 <<< 10 }
  | call target => { c.push c.eip with eip := c.reg target }
  | ret => { c.set esp (c.reg esp + 4) with eip := load c.mem (c.reg esp) }
  | iret =>
    { c.set esp (c.reg esp + 12) with
      eip := load c.mem (c.reg esp)
      cs := (load c.mem (c.reg esp + 4)).setWidth 16
      eflags := load c.mem (c.reg esp + 8) }

abbrev Program := Word → Option Instr

def next (c : Cpu) (i : Instr) : Cpu := i.exec { c with eip := c.eip + BitVec.ofNat 32 i.size }

def step (prog : Program) (c : Cpu) : Option Cpu := (prog c.eip).map (next c)

def run (prog : Program) : ℕ → Cpu → Option Cpu
  | 0, c => some c
  | n + 1, c => (step prog c).bind (run prog n)

def Loaded (prog : Program) : Word → List Instr → Prop
  | _, [] => True
  | a, i :: is => prog a = some i ∧ Loaded prog (a + BitVec.ofNat 32 i.size) is

structure Gate where
  offsetLowSeg : Word
  flagsOffsetHigh : Word

namespace Gate

variable (g : Gate)

def offset : Word := g.flagsOffsetHigh.extractLsb' 16 16 ++ g.offsetLowSeg.extractLsb' 0 16

def segment : BitVec 16 := g.offsetLowSeg.extractLsb' 16 16

def isInterruptGate : Bool := g.flagsOffsetHigh.extractLsb' 8 5 == 14

end Gate

def interruptFlags (g : Gate) (eflags : Word) : Word :=
  eflags &&& ~~~0x34100 &&& if g.isInterruptGate then ~~~0x200 else ~~~0

/-- An interrupt without an error code, on the stack of the code that it interrupts. -/
def interrupt (g : Gate) (c : Cpu) : Cpu :=
  { c.pushes [c.eflags, c.cs.setWidth 32, c.eip] with
    eip := g.offset
    cs := g.segment
    eflags := interruptFlags g c.eflags }

end NaviMisc.Metalkit

/-!
What the instructions do to the registers and to the stack, and how code without jumps is run.
-/

namespace NaviMisc.Metalkit

open NaviMisc.Lib.WordMemory Reg Instr

variable {c : Cpu} {prog : Program} {x : Word} {vs ws : List Word} {n : ℕ}

namespace Cpu

@[simp] theorem reg_set (c : Cpu) (r : Reg) (w : Word) (y : Reg) :
    (c.set r w).reg y = if y = r then w else c.reg y := rfl

@[simp] theorem mem_set (c : Cpu) (r : Reg) (w : Word) : (c.set r w).mem = c.mem := rfl

@[simp] theorem eip_set (c : Cpu) (r : Reg) (w : Word) : (c.set r w).eip = c.eip := rfl

@[simp] theorem cs_set (c : Cpu) (r : Reg) (w : Word) : (c.set r w).cs = c.cs := rfl

@[simp] theorem eflags_set (c : Cpu) (r : Reg) (w : Word) : (c.set r w).eflags = c.eflags := rfl

@[simp] theorem directionFlag_set (c : Cpu) (r : Reg) (w : Word) :
    (c.set r w).directionFlag = c.directionFlag := rfl

@[simp] theorem directionFlag_setStatus (c : Cpu) (carry adjust overflow : Bool) (result : Word) :
    (c.setStatus carry adjust overflow result).directionFlag = c.directionFlag := by
  simp [directionFlag, setStatus, statusMask]

theorem pushes_cons (w : Word) : c.pushes (w :: ws) = (c.push w).pushes ws := rfl

theorem reg_pushes {r : Reg} (hr : r ≠ esp) : (c.pushes ws).reg r = c.reg r := by
  induction ws generalizing c with
  | nil => rfl
  | cons w ws ih => rw [pushes_cons, ih, push, reg_set, if_neg hr]

theorem esp_pushes : (c.pushes ws).reg esp = c.reg esp - BitVec.ofNat 32 (4 * ws.length) := by
  induction ws generalizing c with
  | nil => simp [pushes]
  | cons w ws ih =>
    rw [pushes_cons, ih, push, reg_set, if_pos rfl, List.length_cons, Nat.mul_add,
      BitVec.ofNat_add]
    bv_omega

theorem holds_pushes (h : Holds c.mem (c.reg esp) vs) (hn : 4 * (ws.length + vs.length) ≤ 2 ^ 32) :
    Holds (c.pushes ws).mem ((c.pushes ws).reg esp) (ws.reverse ++ vs) := by
  induction ws generalizing c vs with
  | nil => exact h
  | cons w ws ih =>
    rw [List.length_cons] at hn
    have hpush : Holds (c.push w).mem ((c.push w).reg esp) (w :: vs) := h.push (by omega) w
    have hpushes := ih hpush (by rw [List.length_cons]; omega)
    rw [pushes_cons, List.reverse_cons, List.append_assoc]
    exact hpushes

theorem mem_pushes (h : ¬Inside (c.reg esp - BitVec.ofNat 32 (4 * ws.length)) (4 * ws.length) x)
    (hn : 4 * ws.length ≤ 2 ^ 32) : (c.pushes ws).mem x = c.mem x := by
  induction ws generalizing c with
  | nil => rfl
  | cons w ws ih =>
    rw [List.length_cons] at h hn
    have hlast : ¬Inside (c.reg esp - 4) 4 x := by
      unfold Inside at *
      bv_omega
    have hrest : ¬Inside ((c.push w).reg esp - BitVec.ofNat 32 (4 * ws.length)) (4 * ws.length)
        x := by
      unfold Inside at *
      simp only [push, reg_set, if_true]
      bv_omega
    rw [pushes_cons, ih hrest (by omega)]
    exact store_outside c.mem w hlast

theorem popa_reg {w : Reg → Word} {v : Word} (h : Holds c.mem (c.reg esp)
    [w edi, w esi, w ebp, v, w ebx, w edx, w ecx, w eax]) {r : Reg} (hr : r ≠ esp) :
    c.popa.reg r = w r := by
  simp only [holds_cons] at h
  cases r <;> simp_all [popa, pop]

theorem popa_esp : c.popa.reg esp = c.reg esp + 32 := by
  simp only [popa, pop, reg_set, reduceCtorEq, if_false, if_true]
  bv_omega

@[simp] theorem popa_mem : c.popa.mem = c.mem := rfl

@[simp] theorem movs_directionFlag : c.movs.directionFlag = c.directionFlag := rfl

section RepMovs

theorem repMovs_mem (h : c.directionFlag = false) :
    (c.repMovs n).mem = copyUp c.mem (c.reg esi) (c.reg edi) n := by
  induction n generalizing c with
  | zero => rfl
  | succ n ih =>
    rw [repMovs, ih (by simpa using h)]
    simp [copyUp, movs, stride, h]

theorem repMovs_edi (h : c.directionFlag = false) :
    (c.repMovs n).reg edi = c.reg edi + BitVec.ofNat 32 (4 * n) := by
  induction n generalizing c with
  | zero => simp [repMovs]
  | succ n ih =>
    rw [repMovs, ih (by simpa using h), ← offset_succ]
    simp [movs, stride, h]

theorem repMovs_reg {r : Reg} (hesi : r ≠ esi) (hedi : r ≠ edi) (hecx : r ≠ ecx) :
    (c.repMovs n).reg r = c.reg r := by
  induction n generalizing c with
  | zero => rfl
  | succ n ih =>
    rw [repMovs, ih]
    simp [movs, hesi, hedi, hecx]

theorem repMovs_eip : (c.repMovs n).eip = c.eip := by
  induction n generalizing c with
  | zero => rfl
  | succ n ih => exact ih

theorem repMovs_eflags : (c.repMovs n).eflags = c.eflags := by
  induction n generalizing c with
  | zero => rfl
  | succ n ih => exact ih

end RepMovs

end Cpu

def Instr.straight : Instr → Bool
  | call _ | ret | iret => false
  | _ => true

def execs (c : Cpu) (is : List Instr) : Cpu := is.foldl next c

theorem execs_append (is js : List Instr) : execs c (is ++ js) = execs (execs c is) js :=
  List.foldl_append

theorem execs_singleton (i : Instr) : execs c [i] = next c i := rfl

theorem exec_eip {i : Instr} (h : i.straight = true) : (i.exec c).eip = c.eip := by
  cases i <;> first | rfl | exact Cpu.eip_pushes | exact Cpu.repMovs_eip | cases h

theorem next_eip {i : Instr} (h : i.straight = true) :
    (next c i).eip = c.eip + BitVec.ofNat 32 i.size := exec_eip h

theorem run_loaded {is : List Instr} (h : Loaded prog c.eip is)
    (his : is.dropLast.all Instr.straight = true) : run prog is.length c = some (execs c is) := by
  induction is generalizing c with
  | nil => rfl
  | cons i is ih =>
    have hstep : step prog c = some (next c i) := by rw [step, h.1, Option.map_some]
    rw [List.length_cons, run, hstep, Option.bind_some]
    cases is with
    | nil => rfl
    | cons j js =>
      rw [List.dropLast_cons_cons, List.all_cons, Bool.and_eq_true] at his
      apply ih _ his.2
      rw [next_eip his.1]
      exact h.2

theorem loaded_append {a : Word} {is js : List Instr} : Loaded prog a (is ++ js) ↔
    Loaded prog a is ∧ Loaded prog (a + BitVec.ofNat 32 (is.map Instr.size).sum) js := by
  induction is generalizing a with
  | nil => simp [Loaded]
  | cons i is ih =>
    rw [List.cons_append, Loaded, Loaded, ih, and_assoc, List.map_cons, List.sum_cons,
      BitVec.ofNat_add, BitVec.add_assoc]

end NaviMisc.Metalkit
