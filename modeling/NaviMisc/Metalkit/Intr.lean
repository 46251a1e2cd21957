import NaviMisc.Metalkit.X86

/-!
The routines that save and restore the state of a thread (intr.c), and the trampolines that wrap
the handlers of the interrupts. A trampoline is built as bytes, which are decoded here.
-/

namespace NaviMisc.Metalkit

open NaviMisc.Lib.WordMemory Reg Instr

structure IntrContext where
  edi : Word
  esi : Word
  ebp : Word
  esp : Word
  ebx : Word
  edx : Word
  ecx : Word
  eax : Word
  eip : Word
  cs : Word
  eflags : Word
  deriving DecidableEq

namespace IntrContext

def registers (ctx : IntrContext) : List Word :=
  [ctx.edi, ctx.esi, ctx.ebp, ctx.esp, ctx.ebx, ctx.edx, ctx.ecx, ctx.eax]

def words (ctx : IntrContext) : List Word := ctx.registers ++ [ctx.eip, ctx.cs, ctx.eflags]

def read (m : Bytes) (a : Word) : IntrContext where
  edi := load m a
  esi := load m (a + 4)
  ebp := load m (a + 8)
  esp := load m (a + 12)
  ebx := load m (a + 16)
  edx := load m (a + 20)
  ecx := load m (a + 24)
  eax := load m (a + 28)
  eip := load m (a + 32)
  cs := load m (a + 36)
  eflags := load m (a + 40)

end IntrContext

def Intr_SaveContext : List Instr := [
  pusha,
  -- A context has three words between the saved stack pointer and the registers, not one.
  subMem 8 12 esp,
  mov esp esi,
  movLoad 36 esp edi,
  movImm 9 ecx,
  repMovsl,
  xor eax eax,
  movCs,
  stosl,
  pushf,
  pop eax,
  stosl,
  popa,
  xor eax eax,
  ret]

def Intr_RestoreContext : List Instr := [
  movLoad 4 esp esi,
  movLoad 12 esi esp,
  subImm 24 esp,
  mov esp edi,
  movImm 9 ecx,
  repMovsl,
  popa,
  ret]

abbrev Byte := BitVec 8

structure IntrTrampolineType where
  code1 : BitVec 16
  arg : Word
  code2 : Byte
  handler : Word
  code3 : Word
  code4 : Word
  code5 : Word
  code6 : Word
  code7 : Word
  code8 : Word

def wordBytes (w : Word) : List Byte :=
  [w.extractLsb' 0 8, w.extractLsb' 8 8, w.extractLsb' 16 8, w.extractLsb' 24 8]

namespace IntrTrampolineType

def bytes (t : IntrTrampolineType) : List Byte :=
  [t.code1.extractLsb' 0 8, t.code1.extractLsb' 8 8] ++ wordBytes t.arg ++ [t.code2] ++
    wordBytes t.handler ++ wordBytes t.code3 ++ wordBytes t.code4 ++ wordBytes t.code5 ++
    wordBytes t.code6 ++ wordBytes t.code7 ++ wordBytes t.code8

end IntrTrampolineType

def BOOT_CODE_SEG : Word := 0x08

def Intr_Init.idt (trampolineAddr : Word) : Gate where
  offsetLowSeg := (trampolineAddr &&& (0x0000ffff : Word)) ||| (BOOT_CODE_SEG <<< 16)
  flagsOffsetHigh := (trampolineAddr &&& 0xffff0000) ||| 0x00008e00

def Intr_Init.tramp (IntrDefaultHandler i : Word) : IntrTrampolineType where
  code1 := 0x6860
  code2 := 0xb8
  code3 := 0x8b58d0ff
  code4 := 0x8d0c247c
  code5 := 0x83282474
  code6 := 0xa5fd08c7
  code7 := 0x8b61a5a5
  code8 := 0xcfec2464
  handler := IntrDefaultHandler
  arg := i

def Intr_SetHandler (t : IntrTrampolineType) (handler : Word) : IntrTrampolineType :=
  { t with handler := handler }

def Intr_GetContext (sp : Word) : Word :=
  let arg := sp + 4
  arg + 4

def Reg.ofBits (b : BitVec 3) : Reg :=
  match b.toNat with
  | 0 => eax
  | 1 => ecx
  | 2 => edx
  | 3 => ebx
  | 4 => esp
  | 5 => ebp
  | 6 => esi
  | _ => edi

def decodeWord (f : Word → Instr) : List Byte → Option (Instr × List Byte)
  | b₀ :: b₁ :: b₂ :: b₃ :: l => some (f (b₃ ++ b₂ ++ b₁ ++ b₀), l)
  | _ => none

/-- A displacement of one byte from `esp`: the second byte of the address names no index. -/
def decodeStack (f : Word → Reg → Reg → Instr) : List Byte → Option (Instr × List Byte)
  | modrm :: sib :: disp :: l =>
    if modrm.extractLsb' 6 2 = 1 ∧ modrm.extractLsb' 0 3 = 4 ∧ sib = 0x24 then
      some (f (disp.signExtend 32) esp (Reg.ofBits (modrm.extractLsb' 3 3)), l)
    else none
  | _ => none

def decodeAdd : List Byte → Option (Instr × List Byte)
  | modrm :: imm :: l =>
    if modrm.extractLsb' 3 5 = 0x18 then
      some (addImm (imm.signExtend 32) (Reg.ofBits (modrm.extractLsb' 0 3)), l)
    else none
  | _ => none

def decodeCall : List Byte → Option (Instr × List Byte)
  | modrm :: l =>
    if modrm.extractLsb' 3 5 = 0x1a then some (call (Reg.ofBits (modrm.extractLsb' 0 3)), l)
    else none
  | _ => none

def decode : List Byte → Option (Instr × List Byte)
  | [] => none
  | op :: l =>
    if op = 0x60 then some (pusha, l)
    else if op = 0x61 then some (popa, l)
    else if op = 0x68 then decodeWord push l
    else if op = 0x83 then decodeAdd l
    else if op = 0x8b then decodeStack movLoad l
    else if op = 0x8d then decodeStack lea l
    else if op = 0xa5 then some (movsl, l)
    else if op = 0xcf then some (iret, l)
    else if op = 0xfd then some (std, l)
    else if op = 0xff then decodeCall l
    else if op.extractLsb' 3 5 = 0x0b then some (pop (Reg.ofBits (op.extractLsb' 0 3)), l)
    else if op.extractLsb' 3 5 = 0x17 then
      decodeWord (fun w => movImm w (Reg.ofBits (op.extractLsb' 0 3))) l
    else none

def disassemble : ℕ → List Byte → Option (List Instr)
  | 0, l => if l = [] then some [] else none
  | n + 1, l => do
    let (i, l) ← decode l
    let is ← disassemble n l
    some (i :: is)

def trampolineEntry (arg handler : Word) : List Instr := [
  pusha,
  push arg,
  movImm handler eax,
  call eax]

def trampolineExit : List Instr := [
  pop eax,
  movLoad 12 esp edi,
  lea 40 esp esi,
  addImm 8 edi,
  std,
  movsl,
  movsl,
  movsl,
  popa,
  movLoad (-20) esp esp,
  iret]

section Sizes

variable {l l' : List Byte} {i : Instr}

end Sizes

theorem decodeWord_wordBytes (f : Word → Instr) (w : Word) (l : List Byte) :
    decodeWord f (wordBytes w ++ l) = some (f w, l) := by
  unfold wordBytes
  rw [List.cons_append, List.cons_append, List.cons_append, List.cons_append, decodeWord, bytes_eq]
  rfl

theorem disassemble_cons {n : ℕ} {l l' : List Byte} {i : Instr} {is : List Instr}
    (h : decode l = some (i, l')) (his : disassemble n l' = some is) :
    disassemble (n + 1) l = some (i :: is) := by
  simp only [disassemble, h, his, Option.bind_eq_bind, Option.bind_some]

theorem disassemble_tramp (i handler IntrDefaultHandler : Word) :
    disassemble 15 (Intr_SetHandler (Intr_Init.tramp IntrDefaultHandler i) handler).bytes =
      some (trampolineEntry i handler ++ trampolineExit) := by
  have hexit : disassemble 12 (wordBytes 0x8b58d0ff ++ (wordBytes 0x8d0c247c ++
      (wordBytes 0x83282474 ++ (wordBytes 0xa5fd08c7 ++ (wordBytes 0x8b61a5a5 ++
        wordBytes 0xcfec2464))))) = some (call eax :: trampolineExit) := by decide
  have hcode1 : [(0x6860 : BitVec 16).extractLsb' 0 8, (0x6860 : BitVec 16).extractLsb' 8 8] =
      [(0x60 : Byte), 0x68] := by decide
  unfold IntrTrampolineType.bytes Intr_SetHandler Intr_Init.tramp
  dsimp only
  rw [hcode1]
  simp only [List.append_assoc, List.cons_append, List.nil_append]
  have hpusha : ∀ l, decode (0x60 :: l) = some (pusha, l) := fun l => by simp [decode]
  have hpush : ∀ l, decode (0x68 :: l) = decodeWord push l := fun l => by simp [decode]
  have hmov : ∀ l, decode (0xb8 :: l) = decodeWord (fun w => movImm w eax) l := fun l => by
    simp [decode, Reg.ofBits]
  apply disassemble_cons (hpusha _)
  apply disassemble_cons ((hpush _).trans (decodeWord_wordBytes push i _))
  exact disassemble_cons ((hmov _).trans (decodeWord_wordBytes _ handler _)) hexit

@[simp]
theorem offset_idt (a : Word) : (Intr_Init.idt a).offset = a := by
  have hhigh : (Intr_Init.idt a).flagsOffsetHigh.extractLsb' 16 16 = a.extractLsb' 16 16 := by
    have hmask : (0xffff0000 : Word).extractLsb' 16 16 = BitVec.allOnes 16 := by decide
    rw [Intr_Init.idt, BitVec.extractLsb'_or, BitVec.extractLsb'_and, hmask, BitVec.and_allOnes]
    exact BitVec.or_zero
  have hlow : (Intr_Init.idt a).offsetLowSeg.extractLsb' 0 16 = a.extractLsb' 0 16 := by
    have hmask : (0x0000ffff : Word).extractLsb' 0 16 = BitVec.allOnes 16 := by decide
    rw [Intr_Init.idt, BitVec.extractLsb'_or, BitVec.extractLsb'_and, hmask, BitVec.and_allOnes]
    exact BitVec.or_zero
  rw [Gate.offset, hhigh, hlow]
  refine BitVec.eq_of_getLsbD_eq fun k hk => ?_
  simp only [BitVec.getLsbD_append, BitVec.getLsbD_extractLsb']
  grind

end NaviMisc.Metalkit
