import Mathlib.Logic.Function.Basic
import Mathlib.Data.Nat.Notation
import Mathlib.Tactic.Simps.Basic
import Mathlib.Tactic.SplitIfs

/-!
Instructions of the PIC microcontrollers, on file registers of any kind, and 16-bit arithmetic that
is put together of them.
-/

namespace NaviMisc.Lib.Pic

abbrev Byte := BitVec 8

/-- The flags stand outside of the file, and indirect access is to a memory of its own, with the
addresses that were read. -/
structure Cpu (ρ : Type*) where
  w : Byte
  c : Bool
  z : Bool
  irp : Bool
  fsr : Byte
  file : ρ → Byte
  memory : BitVec 9 → Byte
  reads : List (BitVec 9)

namespace Cpu

variable {ρ : Type*} (s : Cpu ρ) (r : ρ) (k : Byte)

def indirect : BitVec 9 := BitVec.ofBool s.irp ++ s.fsr

@[simps] def movwfFsr : Cpu ρ := { s with fsr := s.w }

@[simps] def bcfIrp : Cpu ρ := { s with irp := false }

@[simps] def bsfIrp : Cpu ρ := { s with irp := true }

@[simps] def movfIndf : Cpu ρ :=
  { s with
    w := s.memory s.indirect
    z := s.memory s.indirect = 0
    reads := s.reads ++ [s.indirect] }

@[simps] def movwfIndf : Cpu ρ := { s with memory := Function.update s.memory s.indirect s.w }

def bit (b : ℕ) : Bool := (s.file r).getLsbD b

def btfsc_c (next : Cpu ρ → Cpu ρ) : Cpu ρ := if s.c then next s else s

def btfss_c (next : Cpu ρ → Cpu ρ) : Cpu ρ := if s.c then s else next s

def btfsc (r : ρ) (b : ℕ) (next : Cpu ρ → Cpu ρ) : Cpu ρ := if s.bit r b then next s else s

def btfss (r : ρ) (b : ℕ) (next : Cpu ρ → Cpu ρ) : Cpu ρ := if s.bit r b then s else next s

section Skip

variable {α : Type*} (f : Cpu ρ → α) (next : Cpu ρ → Cpu ρ) (a : ρ) (b : ℕ) (m : BitVec 9)

theorem apply_btfsc_c : f (s.btfsc_c next) = if s.c then f (next s) else f s := apply_ite f ..

theorem apply_btfss_c : f (s.btfss_c next) = if s.c then f s else f (next s) := apply_ite f ..

theorem apply_btfss : f (s.btfss r b next) = if s.bit r b then f s else f (next s) := apply_ite f ..

theorem apply_btfsc : f (s.btfsc r b next) = if s.bit r b then f (next s) else f s := apply_ite f ..

@[simp] theorem btfsc_c_w : (s.btfsc_c next).w = if s.c then (next s).w else s.w :=
  apply_btfsc_c s (·.w) next

@[simp] theorem btfsc_c_file :
    (s.btfsc_c next).file a = if s.c then (next s).file a else s.file a :=
  apply_btfsc_c s (·.file a) next

@[simp] theorem btfsc_c_memory :
    (s.btfsc_c next).memory m = if s.c then (next s).memory m else s.memory m :=
  apply_btfsc_c s (·.memory m) next

@[simp] theorem btfsc_c_flag : (s.btfsc_c next).c = if s.c then (next s).c else s.c :=
  apply_btfsc_c s (·.c) next

@[simp] theorem btfsc_c_reads : (s.btfsc_c next).reads = if s.c then (next s).reads else s.reads :=
  apply_btfsc_c s (·.reads) next

@[simp] theorem btfss_c_w : (s.btfss_c next).w = if s.c then s.w else (next s).w :=
  apply_btfss_c s (·.w) next

@[simp] theorem btfss_c_file :
    (s.btfss_c next).file a = if s.c then s.file a else (next s).file a :=
  apply_btfss_c s (·.file a) next

@[simp] theorem btfss_c_memory :
    (s.btfss_c next).memory m = if s.c then s.memory m else (next s).memory m :=
  apply_btfss_c s (·.memory m) next

@[simp] theorem btfss_c_reads : (s.btfss_c next).reads = if s.c then s.reads else (next s).reads :=
  apply_btfss_c s (·.reads) next

@[simp] theorem btfsc_w : (s.btfsc r b next).w = if s.bit r b then (next s).w else s.w :=
  apply_btfsc s r (·.w) next b

@[simp] theorem btfsc_file :
    (s.btfsc r b next).file a = if s.bit r b then (next s).file a else s.file a :=
  apply_btfsc s r (·.file a) next b

@[simp] theorem btfsc_memory :
    (s.btfsc r b next).memory m = if s.bit r b then (next s).memory m else s.memory m :=
  apply_btfsc s r (·.memory m) next b

@[simp] theorem btfsc_irp : (s.btfsc r b next).irp = if s.bit r b then (next s).irp else s.irp :=
  apply_btfsc s r (·.irp) next b

@[simp] theorem btfsc_flag : (s.btfsc r b next).c = if s.bit r b then (next s).c else s.c :=
  apply_btfsc s r (·.c) next b

@[simp] theorem btfsc_reads :
    (s.btfsc r b next).reads = if s.bit r b then (next s).reads else s.reads :=
  apply_btfsc s r (·.reads) next b

@[simp] theorem btfss_w : (s.btfss r b next).w = if s.bit r b then s.w else (next s).w :=
  apply_btfss s r (·.w) next b

@[simp] theorem btfss_file :
    (s.btfss r b next).file a = if s.bit r b then s.file a else (next s).file a :=
  apply_btfss s r (·.file a) next b

@[simp] theorem btfss_memory :
    (s.btfss r b next).memory m = if s.bit r b then s.memory m else (next s).memory m :=
  apply_btfss s r (·.memory m) next b

@[simp] theorem btfss_reads :
    (s.btfss r b next).reads = if s.bit r b then s.reads else (next s).reads :=
  apply_btfss s r (·.reads) next b

end Skip

variable [DecidableEq ρ]

@[simps] def movlw : Cpu ρ := { s with w := k }

@[simps] def movwf : Cpu ρ := { s with file := Function.update s.file r s.w }

@[simps] def movf : Cpu ρ := { s with w := s.file r, z := s.file r = 0 }

@[simps] def addwf : Cpu ρ :=
  { s with
    w := s.file r + s.w
    c := 256 ≤ (s.file r).toNat + s.w.toNat
    z := s.file r + s.w = 0 }

@[simps] def addwf_f : Cpu ρ :=
  { s with
    file := Function.update s.file r (s.file r + s.w)
    c := 256 ≤ (s.file r).toNat + s.w.toNat
    z := s.file r + s.w = 0 }

@[simps] def subwf : Cpu ρ :=
  { s with w := s.file r - s.w, c := s.w.toNat ≤ (s.file r).toNat, z := s.file r - s.w = 0 }

@[simps] def subwf_f : Cpu ρ :=
  { s with
    file := Function.update s.file r (s.file r - s.w)
    c := s.w.toNat ≤ (s.file r).toNat
    z := s.file r - s.w = 0 }

@[simps] def sublw : Cpu ρ :=
  { s with w := k - s.w, c := s.w.toNat ≤ k.toNat, z := k - s.w = 0 }

@[simps] def addlw : Cpu ρ :=
  { s with w := k + s.w, c := 256 ≤ k.toNat + s.w.toNat, z := k + s.w = 0 }

@[simps] def xorlw : Cpu ρ := { s with w := s.w ^^^ k, z := s.w ^^^ k = 0 }

/-- The carry is left alone. -/
@[simps] def incf_f : Cpu ρ :=
  { s with file := Function.update s.file r (s.file r + 1), z := s.file r + 1 = 0 }

@[simps] def decf_f : Cpu ρ :=
  { s with file := Function.update s.file r (s.file r - 1), z := s.file r - 1 = 0 }

/-- The flags are left alone. -/
@[simps] def decfsz_f : Cpu ρ := { s with file := Function.update s.file r (s.file r - 1) }

@[simps] def decf : Cpu ρ := { s with w := s.file r - 1, z := s.file r - 1 = 0 }

@[simps] def clrf : Cpu ρ := { s with file := Function.update s.file r 0, z := true }

@[simps] def rrf_f : Cpu ρ :=
  { s with
    file := Function.update s.file r
      (s.file r >>> 1 ||| if s.c then 128#8 else 0#8)
    c := (s.file r)[0] }

@[simps] def bsf (b : ℕ) : Cpu ρ :=
  { s with file := Function.update s.file r (s.file r ||| BitVec.twoPow 8 b) }

@[simps] def bcf (b : ℕ) : Cpu ρ :=
  { s with file := Function.update s.file r (s.file r &&& ~~~BitVec.twoPow 8 b) }

end Cpu

section Word

variable (a1 a0 b1 b0 : Byte)

def word (hi lo : Byte) : ℕ := 256 * hi.toNat + lo.toNat

theorem toNat_one : (1 : Byte).toNat = 1 := rfl

theorem word_lt : word a1 a0 < 65536 := by
  have := a1.isLt
  have := a0.isLt
  unfold word
  omega

theorem word_sub :
    word ((if b0.toNat ≤ a0.toNat then a1 else a1 - 1) - b1) (a0 - b0) =
      (word a1 a0 + 65536 - word b1 b0) % 65536 := by
  have := a1.isLt
  have := a0.isLt
  have := b1.isLt
  have := b0.isLt
  split_ifs <;> simp only [word, BitVec.toNat_sub, toNat_one] <;> omega

theorem word_add :
    word (if 256 ≤ a0.toNat + b0.toNat then a1 + b1 + 1 else a1 + b1) (a0 + b0) =
      (word a1 a0 + word b1 b0) % 65536 := by
  have := a1.isLt
  have := a0.isLt
  have := b1.isLt
  have := b0.isLt
  split_ifs <;> simp only [word, BitVec.toNat_add, toNat_one] <;> omega

theorem word_lt_word : word a1 a0 < word b1 b0 ↔
    ¬b1.toNat ≤ a1.toNat ∨ a1 - b1 = 0#8 ∧ ¬b0.toNat ≤ a0.toNat := by
  have := a0.isLt
  have := b0.isLt
  have hsub : a1 - b1 = 0#8 ↔ a1.toNat = b1.toNat := by
    have hzero : (0#8).toNat = 0 := rfl
    have := a1.isLt
    have := b1.isLt
    rw [← BitVec.toNat_inj, BitVec.toNat_sub, hzero]
    omega
  rw [hsub]
  unfold word
  omega

theorem rotate_high : ∀ a : Byte, ∀ c : Bool,
    (a >>> 1 ||| if c then 128#8 else 0#8) &&& ~~~BitVec.twoPow 8 7 = a >>> 1 := by
  decide

theorem toNat_rotate : ∀ a : Byte, ∀ c : Bool,
    (a >>> 1 ||| if c then 128#8 else 0#8).toNat = a.toNat / 2 + 128 * c.toNat := by
  decide

theorem toNat_getElem : ∀ a : Byte, a[0].toNat = a.toNat % 2 := by
  decide

theorem word_half : word (a1 >>> 1) (a0 >>> 1 ||| if a1[0] then 128#8 else 0#8) =
    word a1 a0 / 2 := by
  have := toNat_getElem a1
  rw [word, toNat_rotate, BitVec.toNat_ushiftRight, Nat.shiftRight_eq_div_pow]
  unfold word
  omega

end Word

end NaviMisc.Lib.Pic
