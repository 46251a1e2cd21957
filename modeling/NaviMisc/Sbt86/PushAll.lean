import NaviMisc.Sbt86.Exec

/-!
What `codegen_pushaw` and `codegen_popaw` do to the registers and to the stack.
-/

namespace NaviMisc.Sbt86

namespace SBTStack

variable {s : SBTStack} {d : ℕ}

def slotsAbove (s : SBTStack) (d : ℕ) : List (BitVec 16) → Prop
  | [] => True
  | w :: l => (∃ h : d + l.length < STACK_SIZE, s.tags ⟨d + l.length, h⟩ = .word ∧
      s.words ⟨d + l.length, h⟩ = w.setWidth 32) ∧ s.slotsAbove d l

structure Above (s : SBTStack) (d : ℕ) (l : List (BitVec 16)) : Prop where
  top : s.top.toNat = d + l.length
  slots : s.slotsAbove d l

structure SameBelow (s s' : SBTStack) (d : ℕ) : Prop where
  tags : ∀ i : Fin STACK_SIZE, i.val < d → s'.tags i = s.tags i
  words : ∀ i : Fin STACK_SIZE, i.val < d → s'.words i = s.words i
  flags : ∀ i : Fin STACK_SIZE, i.val < d → s'.flags i = s.flags i

theorem SameBelow.trans {s' s'' : SBTStack} (h : s.SameBelow s' d) (h' : s'.SameBelow s'' d) :
    s.SameBelow s'' d := by
  constructor
  · exact fun i hi => (h'.tags i hi).trans (h.tags i hi)
  · exact fun i hi => (h'.words i hi).trans (h.words i hi)
  · exact fun i hi => (h'.flags i hi).trans (h.flags i hi)

theorem SameBelow.mono {s' : SBTStack} {e : ℕ} (h : s.SameBelow s' e) (hde : d ≤ e) :
    s.SameBelow s' d := by
  constructor
  · exact fun i hi => h.tags i (hi.trans_le hde)
  · exact fun i hi => h.words i (hi.trans_le hde)
  · exact fun i hi => h.flags i (hi.trans_le hde)

theorem slotsAbove.congr {s' : SBTStack} {e : ℕ} (h : s.SameBelow s' e) {l : List (BitVec 16)}
    (hl : s.slotsAbove d l) (he : d + l.length ≤ e) : s'.slotsAbove d l := by
  induction l with
  | nil => trivial
  | cons w l ih =>
    obtain ⟨⟨hi, htag, hword⟩, hl⟩ := hl
    simp only [List.length_cons] at he
    have hlt : d + l.length < e := by omega
    refine ⟨⟨hi, ?_, ?_⟩, ih hl hlt.le⟩
    · rw [h.tags ⟨_, hi⟩ hlt, htag]
    · rw [h.words ⟨_, hi⟩ hlt, hword]

theorem pushw_above {l : List (BitVec 16)} (h : s.Above d l) (hfree : d + l.length < STACK_SIZE)
    (w : BitVec 16) : ∃ s', s.pushw w = (s', .ok ()) ∧ s'.Above d (w :: l) ∧
      s.SameBelow s' (d + l.length) := by
  obtain ⟨htop, hl⟩ := h
  have hlt : s.top.toNat < STACK_SIZE := by rwa [htop]
  have hslot : slot s.top = .ok ⟨d + l.length, hfree⟩ := by
    simp only [slot, htop, hfree, dite_true]
  have hsame : ∀ top, s.SameBelow
      { s with
        tags := Function.update s.tags ⟨d + l.length, hfree⟩ .word
        words := Function.update s.words ⟨d + l.length, hfree⟩ (w.setWidth 32)
        top := top } (d + l.length) := by
    intro top
    have hne : ∀ i : Fin STACK_SIZE, i.val < d + l.length → i ≠ ⟨d + l.length, hfree⟩ := by
      rintro i hi rfl
      exact Nat.lt_irrefl _ hi
    constructor
    · exact fun i hi => Function.update_of_ne (hne i hi) ..
    · exact fun i hi => Function.update_of_ne (hne i hi) ..
    · exact fun i hi => rfl
  refine ⟨_, by rw [pushw, push, if_pos hlt, hslot], ⟨?_, ⟨hfree, ?_, ?_⟩, ?_⟩, hsame _⟩
  · change (s.top + 1).toNat = _
    rw [BitVec.toNat_add, htop, List.length_cons]
    simp only [STACK_SIZE] at hfree
    simp
    omega
  · exact Function.update_self ..
  · exact Function.update_self ..
  · exact hl.congr (hsame _) le_rfl

theorem popw_above {w : BitVec 16} {l : List (BitVec 16)} (h : s.Above d (w :: l)) :
    ∃ s', s.popw = (s', .ok w) ∧ s'.Above d l ∧ s.SameBelow s' STACK_SIZE := by
  obtain ⟨htop, ⟨hi, htag, hword⟩, hl⟩ := h
  have hsub : (s.top - 1).toNat = d + l.length := by
    rw [List.length_cons] at htop
    simp only [STACK_SIZE] at hi
    rw [BitVec.toNat_sub_of_le (by simp [BitVec.le_def]; omega), htop]
    simp
  have hslot : slot (s.top - 1) = .ok ⟨d + l.length, hi⟩ := by
    simp only [slot, hsub, hi, dite_true]
  have hsame : ∀ top, s.SameBelow { s with top := top } STACK_SIZE :=
    fun _ => ⟨fun _ _ => rfl, fun _ _ => rfl, fun _ _ => rfl⟩
  refine ⟨{ s with top := s.top - 1 }, ?_, ⟨hsub, hl.congr (hsame _) hi.le⟩, hsame _⟩
  rw [popw, pop]
  simp only [hslot, htag, if_true, hword]
  simp

end SBTStack

section moves

variable {m : Machine} {d : ℕ}

def pushCode (n : Reg16) : CStmt :=
  CStmt.ofList [.pushw (.reg (.w n)), genTraces [(.reg (.w n), .r)]]

def popCode (n : Reg16) : CStmt :=
  CStmt.ofList [.popw (.reg (.w n)), genTraces [(.reg (.w n), .w)]]

theorem pushCode_exec {l : List (BitVec 16)} (h : m.stack.Above d l)
    (hfree : d + l.length < STACK_SIZE) (n : Reg16) : ∃ m', (pushCode n).exec m = .ok m' ∧
      m'.r = m.r ∧ m'.stack.Above d (m.r.word n :: l) ∧
      m.stack.SameBelow m'.stack (d + l.length) := by
  obtain ⟨s', hpush, habove, hsame⟩ := SBTStack.pushw_above h hfree (m.r.word n)
  obtain ⟨segs, hsegs⟩ := genTraces_exec [(.reg (.w n), .r)] { m with stack := s' }
  refine ⟨{ m with stack := s', s := segs }, ?_, rfl, habove, hsame⟩
  have hstep : (CStmt.pushw (.reg (.w n))).exec m = .ok { m with stack := s' } := by
    have hword : ((CExpr.reg (.w n)).eval m).bits.setWidth 16 = m.r.word n := by
      simp [CExpr.eval, Machine.getReg]
    change m.onStack (m.stack.pushw (((CExpr.reg (.w n)).eval m).bits.setWidth 16)) _ = _
    rw [hword, hpush]
    rfl
  rw [pushCode, exec_ofList_cons _ hstep, exec_ofList_cons _ hsegs]
  rfl

theorem popCode_exec {w : BitVec 16} {l : List (BitVec 16)} (h : m.stack.Above d (w :: l))
    (n : Reg16) : ∃ m', (popCode n).exec m = .ok m' ∧ m'.r = m.r.setWord n w ∧
      m'.stack.Above d l ∧ m.stack.SameBelow m'.stack STACK_SIZE := by
  obtain ⟨s', hpop, habove, hsame⟩ := SBTStack.popw_above h
  obtain ⟨segs, hsegs⟩ :=
    genTraces_exec [(.reg (.w n), .w)] { m with stack := s', r := m.r.setWord n w }
  refine ⟨{ m with stack := s', r := m.r.setWord n w, s := segs }, ?_, rfl, habove, hsame⟩
  have hstep : (CStmt.popw (.reg (.w n))).exec m =
      .ok { m with stack := s', r := m.r.setWord n w } := by
    change m.onStack m.stack.popw _ = _
    rw [hpop]
    simp [Machine.onStack, LVal.loc, Machine.write, Machine.setReg]
  rw [popCode, exec_ofList_cons _ hstep, exec_ofList_cons _ hsegs]
  rfl

theorem pushCode_full (h : m.stack.top.toNat = STACK_SIZE) (n : Reg16) :
    (pushCode n).exec m = .error (.stack .overflow) := by
  have hstep : (CStmt.pushw (.reg (.w n))).exec m = .error (.stack .overflow) := by
    change m.onStack (m.stack.pushw _) _ = _
    rw [SBTStack.pushw, SBTStack.push, if_neg (by omega)]
    rfl
  change ((CStmt.pushw (.reg (.w n))).exec m).bind _ = _
  rw [hstep]
  rfl

theorem pushes_exec {l : List (BitVec 16)} (h : m.stack.Above d l) (ns : List Reg16)
    (hfree : d + l.length + ns.length ≤ STACK_SIZE) : ∃ m',
      (CStmt.ofList (ns.map pushCode)).exec m = .ok m' ∧ m'.r = m.r ∧
      m'.stack.Above d ((ns.map m.r.word).reverse ++ l) ∧
      m.stack.SameBelow m'.stack (d + l.length) := by
  induction ns generalizing m l with
  | nil => exact ⟨m, rfl, rfl, h, ⟨fun _ _ => rfl, fun _ _ => rfl, fun _ _ => rfl⟩⟩
  | cons n ns ih =>
    rw [List.length_cons] at hfree
    obtain ⟨m₁, hn, hr, habove, hsame⟩ := pushCode_exec h (by omega) n
    obtain ⟨m₂, hns, hr', habove', hsame'⟩ := ih habove (by rw [List.length_cons]; omega)
    refine ⟨m₂, ?_, hr'.trans hr, ?_, hsame.trans (hsame'.mono (by simp))⟩
    · rw [List.map_cons, exec_ofList_cons _ hn, hns]
    · simpa [hr] using habove'

theorem pops_exec {ns : List Reg16} {ws l : List (BitVec 16)} (h : m.stack.Above d (ws ++ l))
    (hlen : ws.length = ns.length) : ∃ m',
      (CStmt.ofList (ns.map popCode)).exec m = .ok m' ∧
      m'.r = (ns.zip ws).foldl (fun r p => r.setWord p.1 p.2) m.r ∧ m'.stack.Above d l ∧
      m.stack.SameBelow m'.stack STACK_SIZE := by
  induction ns generalizing m ws with
  | nil =>
    obtain rfl := List.eq_nil_of_length_eq_zero hlen
    exact ⟨m, rfl, rfl, h, ⟨fun _ _ => rfl, fun _ _ => rfl, fun _ _ => rfl⟩⟩
  | cons n ns ih =>
    cases ws with
    | nil => simp at hlen
    | cons w ws =>
      obtain ⟨m₁, hn, hr, habove, hsame⟩ := popCode_exec h n
      obtain ⟨m₂, hns, hr', habove', hsame'⟩ := ih habove (by simpa using hlen)
      refine ⟨m₂, ?_, ?_, habove', hsame.trans hsame'⟩
      · rw [List.map_cons, exec_ofList_cons _ hn, hns]
      · rw [hr', hr, List.zip_cons_cons, List.foldl_cons]

end moves

theorem codegenPushaw_eq : codegenPushaw =
    .ok (CStmt.ofList ([.ax, .cx, .dx, .bx, .sp, .bp, .si, .di].map pushCode)) := rfl

theorem codegenPopaw_eq : codegenPopaw =
    .ok (.seq (pushCode .di) (CStmt.ofList ([.si, .bp, .sp, .bx, .dx, .cx, .ax].map popCode))) :=
  rfl

/-- The stack and the registers (but for `sp`) are as they were. -/
structure Machine.Restored (m m' : Machine) : Prop where
  words : ∀ n ∈ [Reg16.ax, .cx, .dx, .bx, .bp, .si, .di], m'.r.word n = m.r.word n
  top : m'.stack.top = m.stack.top
  below : m.stack.SameBelow m'.stack m.stack.top.toNat

def Machine.RoundTrip (m : Machine) : Prop :=
  ∃ push pop, codegenPushaw = .ok push ∧ codegenPopaw = .ok pop ∧
    ∃ m', (CStmt.seq push pop).exec m = .ok m' ∧ m.Restored m'

section never

variable {m : Machine}

theorem pushaw_exec (h : m.stack.top.toNat + 8 ≤ STACK_SIZE) : ∃ m',
    (CStmt.ofList ([.ax, .cx, .dx, .bx, .sp, .bp, .si, .di].map pushCode)).exec m = .ok m' ∧
      m'.r = m.r ∧ m'.stack.Above m.stack.top.toNat
        ([Reg16.di, .si, .bp, .sp, .bx, .dx, .cx, .ax].map m.r.word) := by
  have hnil : m.stack.Above m.stack.top.toNat [] := ⟨rfl, trivial⟩
  obtain ⟨m', hexec, hr, habove, -⟩ := pushes_exec hnil [.ax, .cx, .dx, .bx, .sp, .bp, .si, .di] h
  exact ⟨m', hexec, hr, by simpa using habove⟩

theorem pushaw_popaw_exec (h : m.stack.top.toNat + 9 ≤ STACK_SIZE) : ∃ push pop m',
    codegenPushaw = .ok push ∧ codegenPopaw = .ok pop ∧ (CStmt.seq push pop).exec m = .ok m' ∧
      m'.stack.Above m.stack.top.toNat [m.r.word .cx, m.r.word .ax] ∧
      [Reg16.di, .si, .bp, .sp, .bx, .dx, .cx, .ax].map m'.r.word =
        [Reg16.di, .di, .di, .si, .bp, .sp, .bx, .dx].map m.r.word := by
  obtain ⟨m₁, hpushes, hr₁, habove₁⟩ := pushaw_exec (by omega : m.stack.top.toNat + 8 ≤ _)
  obtain ⟨m₂, hpush, hr₂, habove₂, -⟩ := pushCode_exec habove₁ (Nat.lt_of_succ_le h) .di
  rw [hr₁] at hr₂ habove₂
  have hwords : m₂.stack.Above m.stack.top.toNat ([Reg16.di, .di, .si, .bp, .sp, .bx, .dx].map
      m.r.word ++ [Reg16.cx, .ax].map m.r.word) := by
    simpa using habove₂
  obtain ⟨m₃, hpops, hr₃, habove₃, -⟩ :=
    pops_exec hwords (rfl : _ = [Reg16.si, .bp, .sp, .bx, .dx, .cx, .ax].length)
  refine ⟨_, _, m₃, codegenPushaw_eq, codegenPopaw_eq, ?_, habove₃, ?_⟩
  · rw [exec_seq hpushes, exec_seq hpush, hpops]
  · rw [hr₃, hr₂]
    rfl

/-- `codegen_popaw` finds one word more than `codegen_pushaw` left, and pops one less. -/
theorem pushaw_popaw_never (h : m.stack.top.toNat + 8 ≤ STACK_SIZE) : ¬m.RoundTrip := by
  rintro ⟨push, pop, hpush, hpop, m', hexec, hm'⟩
  rcases Nat.lt_or_ge (m.stack.top.toNat + 8) STACK_SIZE with hlt | hge
  · obtain ⟨push', pop', m'', hpush', hpop', hexec', habove, -⟩ := pushaw_popaw_exec hlt
    obtain rfl := Except.ok.inj (hpush.symm.trans hpush')
    obtain rfl := Except.ok.inj (hpop.symm.trans hpop')
    obtain rfl := Except.ok.inj (hexec.symm.trans hexec')
    have htop := habove.top
    rw [hm'.top] at htop
    simp at htop
  · obtain ⟨m₁, hpushes, -, habove⟩ := pushaw_exec h
    have hfull := habove.top.trans (h.antisymm hge)
    obtain rfl := Except.ok.inj (hpush.symm.trans codegenPushaw_eq)
    obtain rfl := Except.ok.inj (hpop.symm.trans codegenPopaw_eq)
    rw [exec_seq hpushes] at hexec
    change ((pushCode .di).exec m₁).bind _ = _ at hexec
    rw [pushCode_full hfull] at hexec
    cases hexec

theorem pushaw_popaw_never_cleared : Machine.cleared.stack.top.toNat + 8 ≤ STACK_SIZE ∧
    ¬Machine.cleared.RoundTrip := ⟨by decide, pushaw_popaw_never (by decide)⟩

def Machine.oneInDi : Machine :=
  { Machine.cleared with r := Machine.cleared.r.setWord .di 1 }

theorem popaw_shifts_di : Machine.oneInDi.stack.top.toNat + 8 ≤ STACK_SIZE ∧
    ¬Machine.oneInDi.RoundTrip := by
  refine ⟨by decide, ?_⟩
  rintro ⟨push, pop, hpush, hpop, m', hexec, hm'⟩
  obtain ⟨push', pop', m'', hpush', hpop', hexec', -, hwords⟩ :=
    pushaw_popaw_exec (m := Machine.oneInDi) (by decide)
  obtain rfl := Except.ok.inj (hpush.symm.trans hpush')
  obtain rfl := Except.ok.inj (hpop.symm.trans hpop')
  obtain rfl := Except.ok.inj (hexec.symm.trans hexec')
  have hsi : m'.r.word .si = 1 := by
    simp only [List.map_cons, List.cons.injEq] at hwords
    exact hwords.2.1
  exact absurd (hsi.symm.trans (hm'.words .si (by decide))) (by decide)

end never

end NaviMisc.Sbt86
