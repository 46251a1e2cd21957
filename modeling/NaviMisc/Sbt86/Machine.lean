import NaviMisc.Lib.Bits

/-!
`SBTRegs` of include/sbt86.h: the register unions, the two result words that
stand for the 8086 flags, and the inline flag accessors.
-/

namespace NaviMisc.Sbt86

open Lib.Bits

inductive Reg16
  | ax | bx | cx | dx | si | di | cs | ds | es | ss | bp | sp
  deriving DecidableEq, Repr

inductive Reg8
  | al | ah | bl | bh | cl | ch | dl | dh
  deriving DecidableEq, Repr

def Reg8.home : Reg8 → Reg16
  | .al | .ah => .ax
  | .bl | .bh => .bx
  | .cl | .ch => .cx
  | .dl | .dh => .dx

def Reg8.isHigh : Reg8 → Bool
  | .ah | .bh | .ch | .dh => true
  | _ => false

structure SBTRegs where
  word : Reg16 → BitVec 16
  uresult : BitVec 32
  sresult : BitVec 32

namespace SBTRegs

def byte (r : SBTRegs) (b : Reg8) : BitVec 8 :=
  if b.isHigh then (r.word b.home).extractLsb' 8 8 else (r.word b.home).extractLsb' 0 8

def setWord (r : SBTRegs) (n : Reg16) (v : BitVec 16) : SBTRegs :=
  { r with word := fun m => if m = n then v else r.word m }

def setByte (r : SBTRegs) (b : Reg8) (v : BitVec 8) : SBTRegs :=
  r.setWord b.home
    (if b.isHigh then v ++ (r.word b.home).extractLsb' 0 8
     else (r.word b.home).extractLsb' 8 8 ++ v)

def getZF (r : SBTRegs) : Bool := r.uresult &&& 0xFFFF#32 == 0#32

def getSF (r : SBTRegs) : Bool := r.uresult &&& 0x8000#32 != 0#32

def getOF (r : SBTRegs) : Bool := (r.sresult.sshiftRight 1 ^^^ r.sresult) &&& 0x8000#32 != 0#32

def getCF (r : SBTRegs) : Bool := r.uresult &&& 0x10000#32 != 0#32

def setCF (r : SBTRegs) : SBTRegs := { r with uresult := r.uresult ||| 0x10000#32 }

def clearCF (r : SBTRegs) : SBTRegs := { r with uresult := r.uresult &&& 0xFFFF#32 }

def saveCF (r : SBTRegs) : BitVec 32 := r.uresult &&& 0x10000#32

def restoreCF (r : SBTRegs) (saved : BitVec 32) : SBTRegs :=
  { r with uresult := (r.uresult &&& 0xFFFF#32) ||| saved }

@[simp] theorem word_setWord (r : SBTRegs) (n m : Reg16) (v : BitVec 16) :
    (r.setWord n v).word m = if m = n then v else r.word m := rfl

theorem toNat_byte_low (r : SBTRegs) (b : Reg8) (h : b.isHigh = false) :
    (r.byte b).toNat = (r.word b.home).toNat % 256 := by
  simp [byte, h]

@[simp] theorem byte_setByte (r : SBTRegs) (b : Reg8) (v : BitVec 8) :
    (r.setByte b v).byte b = v := by
  cases h : b.isHigh
  · simp only [byte, setByte, h, word_setWord, if_true, Bool.false_eq_true, if_false]
    exact BitVec.extractLsb'_append_eq_right
  · simp only [byte, setByte, h, word_setWord, if_true]
    exact BitVec.extractLsb'_append_eq_left

theorem getCF_eq (r : SBTRegs) : r.getCF = bit r.uresult.toNat 16 :=
  and_twoPow_bne_zero r.uresult 16 (by decide)

theorem getSF_eq (r : SBTRegs) : r.getSF = bit r.uresult.toNat 15 :=
  and_twoPow_bne_zero r.uresult 15 (by decide)

theorem getZF_eq (r : SBTRegs) : r.getZF = decide (r.uresult.toNat % 65536 = 0) :=
  and_mask_beq_zero r.uresult 16 (by decide)

theorem getOF_eq (r : SBTRegs) :
    r.getOF = (bit r.sresult.toNat 16 ^^ bit r.sresult.toNat 15) := by
  have h := and_twoPow_bne_zero (r.sresult.sshiftRight 1 ^^^ r.sresult) 15 (by decide)
  rw [getOF, show 0x8000#32 = BitVec.twoPow 32 15 from rfl, h, ← getLsbD_eq_bit, BitVec.getLsbD_xor,
    BitVec.getLsbD_sshiftRight, ← getLsbD_eq_bit, ← getLsbD_eq_bit]
  rfl

end SBTRegs

end NaviMisc.Sbt86

/-!
`SBTStack` of include/sbt86.h. Every array access goes through `slot`, so an
index outside the arrays is visible as a fault of its own; the assertions are
the other faults. The state is returned with the fault, as the assertions fire
after `top` has moved.
-/

namespace NaviMisc.Sbt86

inductive Tag
  | invalid | word | flags | retaddr
  deriving DecidableEq, Repr

inductive StackFault
  | overflow | tagMismatch | retaddrMismatch
  | outOfBounds (index : BitVec 32)
  deriving DecidableEq, Repr

def STACK_SIZE : ℕ := 512

def RET_VERIFICATION : BitVec 16 := 0xBEEF

structure SBTStack where
  top : BitVec 32
  tags : Fin STACK_SIZE → Tag
  words : Fin STACK_SIZE → BitVec 32
  flags : Fin STACK_SIZE → BitVec 32 × BitVec 32

namespace SBTStack

abbrev Result (α : Type) := SBTStack × Except StackFault α

def slot (i : BitVec 32) : Except StackFault (Fin STACK_SIZE) :=
  if h : i.toNat < STACK_SIZE then .ok ⟨i.toNat, h⟩ else .error (.outOfBounds i)

def reset (s : SBTStack) : SBTStack := { s with top := 0 }

def push (s : SBTStack) (tag : Tag) (fill : Fin STACK_SIZE → SBTStack → SBTStack) : Result Unit :=
  if s.top.toNat < STACK_SIZE then
    match slot s.top with
    | .error e => (s, .error e)
    | .ok i => ({ fill i s with tags := Function.update s.tags i tag, top := s.top + 1 }, .ok ())
  else (s, .error .overflow)

def pushw (s : SBTStack) (word : BitVec 16) : Result Unit :=
  s.push .word fun i s => { s with words := Function.update s.words i (word.setWidth 32) }

def pushf (s : SBTStack) (reg : SBTRegs) : Result Unit :=
  s.push .flags fun i s => { s with flags := Function.update s.flags i (reg.uresult, reg.sresult) }

def pushret (s : SBTStack) : Result Unit := s.push .retaddr fun _ s => s

def pop {α : Type} (s : SBTStack) (tag : Tag) (read : Fin STACK_SIZE → α) : Result α :=
  let s' := { s with top := s.top - 1 }
  match slot s'.top with
  | .error e => (s', .error e)
  | .ok i => if s.tags i = tag then (s', .ok (read i)) else (s', .error .tagMismatch)

def popw (s : SBTStack) : Result (BitVec 16) :=
  s.pop .word fun i => (s.words i).setWidth 16

def popf (s : SBTStack) (reg : SBTRegs) : Result SBTRegs :=
  s.pop .flags fun i => { reg with uresult := (s.flags i).1, sresult := (s.flags i).2 }

def popret (s : SBTStack) : Result Unit := s.pop .retaddr fun _ => ()

def preSaveRet (s : SBTStack) : Result Unit :=
  match slot (s.top - 1) with
  | .error e => (s, .error e)
  | .ok i =>
    if s.tags i = .retaddr then
      ({ s with
          words := Function.update s.words i (RET_VERIFICATION.setWidth 32)
          tags := Function.update s.tags i .word }, .ok ())
    else (s, .error .tagMismatch)

def postRestoreRet (s : SBTStack) : Result Unit :=
  match slot (s.top - 1) with
  | .error e => (s, .error e)
  | .ok i =>
    if s.tags i = .word then
      if s.words i = RET_VERIFICATION.setWidth 32 then
        ({ s with tags := Function.update s.tags i .retaddr }, .ok ())
      else (s, .error .retaddrMismatch)
    else (s, .error .tagMismatch)

end SBTStack

end NaviMisc.Sbt86

/-!
The state a translated routine runs on: the cached registers `r`, the cached
segment pointers `s`, the process memory, the typed stack, the clock, and the
local variables of the emitted blocks.
-/

namespace NaviMisc.Sbt86

inductive Seg
  | cs | ds | es | ss
  deriving DecidableEq, Repr

def Seg.reg : Seg → Reg16
  | .cs => .cs
  | .ds => .ds
  | .es => .es
  | .ss => .ss

inductive Var
  | t | cf | savedCF
  deriving DecidableEq, Repr

structure Machine where
  r : SBTRegs
  s : Seg → ℕ
  mem : ℕ → BitVec 8
  stack : SBTStack
  gClock : BitVec 32
  vars : Var → BitVec 32

def MEM_SIZE : ℕ := 128 * 1024

def MAX_SEGMENT : ℕ := (MEM_SIZE - 0x10000) / 16

/-- `SBTProcess::memSeg`, as an offset into the process memory. -/
def memSeg (seg : BitVec 16) : ℕ :=
  (if seg.toNat > MAX_SEGMENT then MAX_SEGMENT else seg.toNat) * 16

inductive Register
  | w (n : Reg16)
  | b (n : Reg8)
  deriving DecidableEq, Repr

def Register.width : Register → ℕ
  | .w _ => 2
  | .b _ => 1

inductive Loc
  | reg (n : Register)
  | mem8 (p : ℕ)
  | mem16 (p : ℕ)
  deriving DecidableEq, Repr

namespace Machine

def cleared : Machine where
  r := ⟨fun _ => 0, 0, 0⟩
  s := fun _ => 0
  mem := fun _ => 0
  stack := ⟨0, fun _ => .invalid, fun _ => 0, fun _ => (0, 0)⟩
  gClock := 0
  vars := fun _ => 0

def getReg (m : Machine) : Register → BitVec 32
  | .w n => (m.r.word n).setWidth 32
  | .b n => (m.r.byte n).setWidth 32

def setReg (m : Machine) (n : Register) (v : BitVec 32) : Machine :=
  match n with
  | .w n => { m with r := m.r.setWord n (v.setWidth 16) }
  | .b n => { m with r := m.r.setByte n (v.setWidth 8) }

def write8 (m : Machine) (p : ℕ) (v : BitVec 8) : Machine :=
  { m with mem := Function.update m.mem p v }

def read16 (m : Machine) (p : ℕ) : BitVec 16 := m.mem (p + 1) ++ m.mem p

def write16 (m : Machine) (p : ℕ) (x : BitVec 16) : Machine :=
  (m.write8 p (x.extractLsb' 0 8)).write8 (p + 1) (x.extractLsb' 8 8)

def read (m : Machine) : Loc → BitVec 32
  | .reg n => m.getReg n
  | .mem8 p => (m.mem p).setWidth 32
  | .mem16 p => (m.read16 p).setWidth 32

def write (m : Machine) (l : Loc) (v : BitVec 32) : Machine :=
  match l with
  | .reg n => m.setReg n v
  | .mem8 p => m.write8 p (v.setWidth 8)
  | .mem16 p => m.write16 p (v.setWidth 16)

def withResult (m : Machine) (u s : BitVec 32) : Machine :=
  { m with r := { m.r with uresult := u, sresult := s } }

end Machine

def Loc.bits : Loc → ℕ
  | .reg n => 8 * n.width
  | .mem8 _ => 8
  | .mem16 _ => 16

namespace Machine

theorem read16_write16 (m : Machine) (p : ℕ) (x : BitVec 16) : (m.write16 p x).read16 p = x := by
  simp only [read16, write16, write8, Function.update_self]
  rw [Function.update_of_ne (by omega), Function.update_self]
  exact BitVec.extractLsb'_append_extractLsb'

theorem toNat_read_write (m : Machine) (l : Loc) (v : BitVec 32) :
    ((m.write l v).read l).toNat = v.toNat % 2 ^ l.bits := by
  have h8 := Nat.mod_lt v.toNat (y := 2 ^ 8) (by decide)
  have h16 := Nat.mod_lt v.toNat (y := 2 ^ 16) (by decide)
  cases l with
  | reg n =>
    cases n with
    | w n =>
      simp only [write, setReg, read, getReg, SBTRegs.word_setWord, if_true, BitVec.toNat_setWidth,
        Loc.bits, Register.width]
      omega
    | b n =>
      simp only [write, setReg, read, getReg, SBTRegs.byte_setByte, BitVec.toNat_setWidth,
        Loc.bits, Register.width]
      omega
  | mem8 p =>
    simp only [write, write8, read, Function.update_self, BitVec.toNat_setWidth, Loc.bits]
    omega
  | mem16 p =>
    simp only [write, read, read16_write16, BitVec.toNat_setWidth, Loc.bits]
    omega

theorem toNat_read_lt (m : Machine) (l : Loc) : (m.read l).toNat < 2 ^ l.bits := by
  have widen {w : ℕ} (x : BitVec w) : (x.setWidth 32).toNat < 2 ^ w := by
    rw [BitVec.toNat_setWidth]
    exact (Nat.mod_le _ _).trans_lt x.isLt
  cases l with
  | reg n =>
    cases n with
    | w n => exact widen (m.r.word n)
    | b n => exact widen (m.r.byte n)
  | mem8 p => exact widen (m.mem p)
  | mem16 p => exact widen (m.read16 p)

@[simp] theorem read_withResult (m : Machine) (u s : BitVec 32) (l : Loc) :
    (m.withResult u s).read l = m.read l := by
  cases l with
  | reg n => cases n <;> rfl
  | mem8 p => rfl
  | mem16 p => rfl

end Machine

end NaviMisc.Sbt86
