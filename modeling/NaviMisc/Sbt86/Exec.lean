import NaviMisc.Sbt86.Codegen
import NaviMisc.Sbt86.Denote

/-!
The 8086 arithmetic, shift and multiply instructions on operands of `w` bits: the result is the
exact one modulo `2 ^ w`, carry and overflow say that the unsigned or the signed
reading of the result is not the exact value.
-/

namespace NaviMisc.Sbt86

def signedVal (w n : ℕ) : ℤ := if n < 2 ^ (w - 1) then n else (n : ℤ) - 2 ^ w

structure AluOut where
  result : ℕ
  cf : Bool
  zf : Bool
  sf : Bool
  of : Bool
  deriving DecidableEq

def aluOut (w : ℕ) (exact signedExact : ℤ) : AluOut :=
  let n := (exact % 2 ^ w).toNat
  { result := n
    cf := decide ((n : ℤ) ≠ exact)
    zf := decide (n = 0)
    sf := decide (2 ^ (w - 1) ≤ n)
    of := decide (signedVal w n ≠ signedExact) }

inductive ArithOp
  | add | adc | sub | sbb | cmp | inc | dec
  deriving DecidableEq, Repr

def ArithOp.exact (op : ArithOp) (a b : ℤ) (cf : Bool) : ℤ :=
  match op with
  | .add => a + b
  | .adc => a + b + cf.toNat
  | .sub | .cmp => a - b
  | .sbb => a - (b + cf.toNat)
  | .inc => a + 1
  | .dec => a - 1

/-- `cmp` keeps its first operand, `inc` and `dec` keep the carry. -/
def ArithOp.cpu (op : ArithOp) (w a b : ℕ) (cf : Bool) : AluOut :=
  let out := aluOut w (op.exact a b cf) (op.exact (signedVal w a) (signedVal w b) cf)
  match op with
  | .cmp => { out with result := a }
  | .inc | .dec => { out with cf := cf }
  | _ => out

inductive ShiftOp
  | shl | shr | sar | ror | rcl | rcr
  deriving DecidableEq, Repr

def ShiftOp.step (op : ShiftOp) (w : ℕ) (p : ℕ × Bool) : ℕ × Bool :=
  let low := decide (p.1 % 2 = 1)
  let high := decide (2 ^ (w - 1) ≤ p.1)
  match op with
  | .shl => (2 * p.1 % 2 ^ w, high)
  | .shr => (p.1 / 2, low)
  | .sar => (p.1 / 2 + high.toNat * 2 ^ (w - 1), low)
  | .ror => (p.1 / 2 + low.toNat * 2 ^ (w - 1), low)
  | .rcl => ((2 * p.1 + p.2.toNat) % 2 ^ w, high)
  | .rcr => (p.1 / 2 + p.2.toNat * 2 ^ (w - 1), low)

def ShiftOp.setsZS : ShiftOp → Bool
  | .shl | .shr | .sar => true
  | .ror | .rcl | .rcr => false

inductive MulOp
  | mul | imul | div
  deriving DecidableEq, Repr

def MulOp.Completes (op : MulOp) (ax d : ℕ) : Prop := op = .div → d ≠ 0 ∧ ax / d ≤ 255

def MulOp.cpu (op : MulOp) (ax d : ℕ) : ℕ :=
  match op with
  | .mul => ax % 256 * d
  | .imul => (signedVal 8 (ax % 256) * signedVal 8 d % 2 ^ 16).toNat
  | .div => ax / d + 256 * (ax % d)

end NaviMisc.Sbt86

/-!
How the flag accessors read the two result words of an operation, once the
8-bit results have been shifted left by 8.
-/

namespace NaviMisc.Sbt86

open Lib.Bits

def Width.shifted (w : Width) (x : BitVec 32) : BitVec 32 :=
  match w with
  | .byte => x <<< 8
  | .word => x

theorem bit_shifted (w : Width) (x : BitVec 32) (i : ℕ) (hi : i ≤ 16) :
    bit (w.shifted x).toNat (16 - w.bits + i) = bit x.toNat i := by
  cases w with
  | byte => exact bit_shiftLeft x 8 i (by omega)
  | word => simp [Width.shifted, Width.bits]

theorem getCF_shifted (w : Width) (r : SBTRegs) (u : BitVec 32) (h : r.uresult = w.shifted u) :
    r.getCF = bit u.toNat w.bits := by
  have hi : 16 - w.bits + w.bits = 16 := by cases w <;> rfl
  rw [r.getCF_eq, h, ← bit_shifted w u w.bits (by cases w <;> decide), hi]

theorem getSF_shifted (w : Width) (r : SBTRegs) (u : BitVec 32) (h : r.uresult = w.shifted u) :
    r.getSF = bit u.toNat (w.bits - 1) := by
  have hi : 16 - w.bits + (w.bits - 1) = 15 := by cases w <;> rfl
  rw [r.getSF_eq, h, ← bit_shifted w u (w.bits - 1) (by cases w <;> decide), hi]

theorem getZF_shifted (w : Width) (r : SBTRegs) (u : BitVec 32) (h : r.uresult = w.shifted u) :
    r.getZF = decide (u.toNat % 2 ^ w.bits = 0) := by
  rw [r.getZF_eq, h]
  cases w with
  | byte =>
    have hs := toNat_shiftLeft_mod u 8 8 (by decide)
    apply decide_eq_decide.mpr
    change (u <<< 8).toNat % 2 ^ 16 = 0 ↔ u.toNat % 2 ^ 8 = 0
    omega
  | word => rfl

theorem getOF_shifted (w : Width) (r : SBTRegs) (s : BitVec 32) (h : r.sresult = w.shifted s) :
    r.getOF = (bit s.toNat w.bits ^^ bit s.toNat (w.bits - 1)) := by
  have hi : 16 - w.bits + w.bits = 16 := by cases w <;> rfl
  have hj : 16 - w.bits + (w.bits - 1) = 15 := by cases w <;> rfl
  rw [r.getOF_eq, h, ← bit_shifted w s w.bits (by cases w <;> decide), hi,
    ← bit_shifted w s (w.bits - 1) (by cases w <;> decide), hj]

theorem aluOut_shifted (w : Width) (r : SBTRegs) (e s : ℤ)
    (hu : r.uresult = w.shifted (BitVec.ofInt 32 e)) (hs : r.sresult = w.shifted (BitVec.ofInt 32 s))
    (he : -2 ^ w.bits ≤ e ∧ e < 2 ^ (w.bits + 1)) (hse : -2 ^ w.bits ≤ s ∧ s < 2 ^ w.bits)
    (hmod : (e - s) % 2 ^ w.bits = 0) :
    aluOut w.bits e s = ⟨(BitVec.ofInt 32 e).toNat % 2 ^ w.bits, r.getCF, r.getZF, r.getSF, r.getOF⟩ := by
  rw [getCF_shifted w r _ hu, getZF_shifted w r _ hu, getSF_shifted w r _ hu,
    getOF_shifted w r _ hs]
  have hx : ((e % 2 ^ w.bits).toNat : ℤ) = e % 2 ^ w.bits :=
    Int.toNat_of_nonneg (Int.emod_nonneg _ (by cases w <;> decide))
  have hu' : ((BitVec.ofInt 32 e).toNat : ℤ) = e % 2 ^ 32 := by
    rw [BitVec.toNat_ofInt]
    exact Int.toNat_of_nonneg (Int.emod_nonneg _ (by decide))
  have hs' : ((BitVec.ofInt 32 s).toNat : ℤ) = s % 2 ^ 32 := by
    rw [BitVec.toNat_ofInt]
    exact Int.toNat_of_nonneg (Int.emod_nonneg _ (by decide))
  generalize (BitVec.ofInt 32 e).toNat = u at *
  generalize (BitVec.ofInt 32 s).toNat = v at *
  clear hu hs
  have hw : w.bits = 8 ∨ w.bits = 16 := w.bits_cases
  generalize w.bits = n at *
  have hof : (bit v n ^^ bit v (n - 1)) = decide ¬(v / 2 ^ n % 2 = 1 ↔ v / 2 ^ (n - 1) % 2 = 1) := by
    by_cases h1 : v / 2 ^ n % 2 = 1 <;> by_cases h2 : v / 2 ^ (n - 1) % 2 = 1 <;> simp [bit, h1, h2]
  rw [hof]
  simp only [aluOut, bit, AluOut.mk.injEq, decide_eq_decide]
  rcases hw with rfl | rfl <;> refine ⟨?_, ?_, ?_, ?_, ?_⟩
  all_goals (try unfold signedVal); omega

end NaviMisc.Sbt86

/-!
Execution rules for the emitted statements: sequencing, the trailing traces, and
what leaves an operand's meaning alone.
-/

namespace NaviMisc.Sbt86

theorem exec_ofList_cons {a : CStmt} {l : List CStmt} {m : Machine} (m' : Machine)
    (h : a.exec m = .ok m') :
    (CStmt.ofList (a :: l)).exec m = (CStmt.ofList l).exec m' := by
  change (a.exec m).bind (CStmt.ofList l).exec = _
  rw [h]
  rfl

theorem exec_seq {a b : CStmt} {m m' : Machine} (h : a.exec m = .ok m') :
    (CStmt.seq a b).exec m = b.exec m' := by
  change (a.exec m).bind b.exec = _
  rw [h]
  rfl

theorem exec_block {a : CStmt} {m : Machine} (m' : Machine) (h : a.exec m = .ok m') :
    (CStmt.block a).exec m = .ok { m' with vars := m.vars } := by
  change (a.exec m).map _ = _
  rw [h]
  rfl

theorem genTrace_exec (p : Operand × Access) (m : Machine) :
    ∃ s, (genTrace p).exec m = .ok { m with s := s } := by
  obtain ⟨o, a⟩ := p
  cases o with
  | reg n =>
    cases a with
    | r => exact ⟨m.s, rfl⟩
    | w =>
      simp only [genTrace]
      cases n.seg with
      | none => exact ⟨m.s, rfl⟩
      | some seg => exact ⟨_, rfl⟩
  | lit l => exact ⟨m.s, rfl⟩
  | ind i => exact ⟨m.s, rfl⟩
  | far a => exact ⟨m.s, rfl⟩

theorem genTraces_exec (ops : List (Operand × Access)) (m : Machine) :
    ∃ s, (genTraces ops).exec m = .ok { m with s := s } := by
  induction ops generalizing m with
  | nil => exact ⟨m.s, rfl⟩
  | cons p ops ih =>
    obtain ⟨s, hs⟩ := genTrace_exec p m
    obtain ⟨s', hs'⟩ := ih { m with s := s }
    exact ⟨s', (exec_ofList_cons _ hs).trans hs'⟩

theorem resultShift_exec {dest : Operand} {w : Width} (h : dest.width = some w.bytes) (m : Machine) :
    (resultShift dest).exec m =
      .ok (m.withResult (w.shifted m.r.uresult) (w.shifted m.r.sresult)) := by
  cases w <;> simp only [resultShift, h, Width.bytes] <;> rfl

theorem width_of_hasWidth {o : Operand} {w : Width} (h : o.HasWidth w) : o.width = some w.bytes := by
  cases o with
  | reg n => exact congrArg some h
  | lit l => exact h.1
  | ind i => exact h.1
  | far a => exact h.elim

structure Machine.SameOperands (m m' : Machine) : Prop where
  word : m'.r.word = m.r.word
  s : m'.s = m.s
  mem : m'.mem = m.mem

theorem sameOperands_withResult (m : Machine) (u s : BitVec 32) :
    m.SameOperands (m.withResult u s) := ⟨rfl, rfl, rfl⟩

section congr

variable {m m' : Machine}

theorem read_congr (hw : m'.r.word = m.r.word) (hm : m'.mem = m.mem) (l : Loc) :
    m'.read l = m.read l := by
  cases l with
  | reg n => cases n <;> simp only [Machine.read, Machine.getReg, SBTRegs.byte, hw]
  | mem8 p => simp only [Machine.read, hm]
  | mem16 p => simp only [Machine.read, Machine.read16, hm]

theorem getReg_congr (hw : m'.r.word = m.r.word) (n : Register) : m'.getReg n = m.getReg n := by
  cases n <;> simp only [Machine.getReg, SBTRegs.byte, hw]

theorem Literal.denote_congr (h : m.SameOperands m') (l : Literal) : l.denote m' = l.denote m := by
  simp only [Literal.denote, h.s, read_congr h.word h.mem]

theorem OffsetTerm.denote_congr (h : m.SameOperands m') (t : OffsetTerm) :
    t.denote m' = t.denote m := by
  cases t with
  | reg n => simp only [OffsetTerm.denote, getReg_congr h.word]
  | lit l => exact Literal.denote_congr h l

theorem Indirect.ea_congr (h : m.SameOperands m') (i : Indirect) : i.ea m' = i.ea m := by
  simp only [Indirect.ea, funext (OffsetTerm.denote_congr h)]

theorem Indirect.loc_congr (h : m.SameOperands m') (i : Indirect) : i.loc m' = i.loc m := by
  simp only [Indirect.loc, h.s, i.ea_congr h]

theorem Operand.loc_congr (h : m.SameOperands m') (o : Operand) : o.loc m' = o.loc m := by
  cases o with
  | ind i => exact congrArg some (i.loc_congr h)
  | _ => rfl

theorem Operand.denote_congr (h : m.SameOperands m') (o : Operand) :
    o.denote m' = o.denote m := by
  cases o with
  | reg n => simp only [Operand.denote, getReg_congr h.word]
  | lit l => exact Literal.denote_congr h l
  | ind i => simp only [Operand.denote, i.loc_congr h, read_congr h.word h.mem]
  | far a => rfl

def OffsetTerm.Uses (k : Reg16) : OffsetTerm → Prop
  | .reg (.w n) => n = k
  | .reg (.b n) => n.home = k
  | .lit _ => False

theorem OffsetTerm.denote_of_not_uses {k : Reg16} (hw : ∀ n, n ≠ k → m'.r.word n = m.r.word n)
    (hs : m'.s = m.s) (hm : m'.mem = m.mem) {t : OffsetTerm} (h : ¬t.Uses k) :
    t.denote m' = t.denote m := by
  cases t with
  | reg n =>
    cases n with
    | w n => simp only [OffsetTerm.denote, Machine.getReg, hw n h]
    | b n => simp only [OffsetTerm.denote, Machine.getReg, SBTRegs.byte, hw n.home h]
  | lit l =>
    simp only [OffsetTerm.denote, Literal.denote, hs]
    split
    · unfold memLoc
      split_ifs <;> simp only [Machine.read, Machine.read16, hm]
    · rfl

theorem Indirect.ea_of_not_uses {k : Reg16} (hw : ∀ n, n ≠ k → m'.r.word n = m.r.word n)
    (hs : m'.s = m.s) (hm : m'.mem = m.mem) {i : Indirect} (h : ∀ t ∈ i.offsets, ¬t.Uses k) :
    i.ea m' = i.ea m := by
  unfold Indirect.ea
  rw [List.map_congr_left fun t ht => t.denote_of_not_uses hw hs hm (h t ht)]

end congr

theorem Machine.write_frame {α : Type} (m : Machine) (f : Machine → α)
    (hword : ∀ (m : Machine) n v, f { m with r := m.r.setWord n v } = f m)
    (hmem : ∀ (m : Machine) mem, f { m with mem := mem } = f m) (l : Loc) (v : BitVec 32) :
    f (m.write l v) = f m := by
  cases l with
  | reg n =>
    cases n with
    | w n => exact hword m n _
    | b n => exact hword m n.home _
  | mem8 p => exact hmem m _
  | mem16 p => exact (hmem (m.write8 p _) _).trans (hmem m _)

theorem uresult_write (m : Machine) (l : Loc) (v : BitVec 32) :
    (m.write l v).r.uresult = m.r.uresult :=
  m.write_frame (fun m => m.r.uresult) (fun _ _ _ => rfl) (fun _ _ => rfl) l v

theorem sresult_write (m : Machine) (l : Loc) (v : BitVec 32) :
    (m.write l v).r.sresult = m.r.sresult :=
  m.write_frame (fun m => m.r.sresult) (fun _ _ _ => rfl) (fun _ _ => rfl) l v

theorem withResult_write (m : Machine) (u s v : BitVec 32) (l : Loc) :
    ((m.withResult u s).write l v).withResult u s = (m.withResult u s).write l v := by
  have hu := uresult_write (m.withResult u s) l v
  have hs := sresult_write (m.withResult u s) l v
  exact congrArg₂ (((m.withResult u s).write l v).withResult) hu.symm hs.symm

end NaviMisc.Sbt86
