import NaviMisc.SpiMemEmulator.Sram

/-!
What holds of the controller in every run, and that its clients share one memory.
-/

namespace NaviMisc.SpiMemEmulator

open NaviMisc.Lib
open NaviMisc.Lib.AtomicObject

namespace SramBoard

def isRead : SramOp → Bool
  | .read _ => true
  | .write _ _ => false

def pendingOp (b : SramBoard) (c : SramClient) : Option SramOp :=
  if b.ctrl.pending c then some (b.request c) else none

def session (b : SramBoard) : Session SramClient Content SramOp := ⟨b.content, b.pendingOp⟩

/-- All that has begun and finished is a history of one memory, with the bytes that are stored and
the requests that are pending. -/
def Linearized (initial : Content) (b : SramBoard) : Prop :=
  history SramOp.effect ⟨initial, fun _ => none⟩ b.log = some b.session

def Finishing (c : SramClient) (r : SramCtrl) : Prop := r.state = .rd3 c ∨ r.state = .wr4 c

instance (c : SramClient) (r : SramCtrl) : Decidable (Finishing c r) :=
  inferInstanceAs (Decidable (_ ∨ _))

def Fresh (b : SramBoard) : Prop :=
  ∀ c, b.ctrl.state = .wr2 c →
    kept b.ctrl.addr b.ctrl.wordRd = kept b.ctrl.addr (b.word b.ctrl.addr)

def Reading (c : SramClient) (b : SramBoard) : Prop :=
  b.ctrl.pendingRd c = true ∧ b.request c = .read b.ctrl.addr

def Writing (c : SramClient) (data : Byte) (b : SramBoard) : Prop :=
  b.ctrl.pendingWr c = true ∧ b.request c = .write b.ctrl.addr data

def Phase (late : Bool) (b : SramBoard) : Prop :=
  match b.ctrl.state with
  | .idle => b.ctrl.we = false
  | .rd1 c => b.Reading c ∧ b.ctrl.we = false ∧ b.ctrl.oe = true
  | .rd2 c => b.Reading c ∧ b.ctrl.we = false ∧ b.ctrl.oe = true ∧ b.ctrl.sramOutDrv = false ∧
      (b.chip b.ctrl.addr).selected = some (b.word b.ctrl.addr)
  | .rd3 c => b.Reading c ∧ b.ctrl.we = false ∧ b.ctrl.wordRd = b.word b.ctrl.addr
  | .wr1 c => (∃ data, b.Writing c data) ∧ b.ctrl.we = false ∧ b.ctrl.oe = true ∧
      b.ctrl.sramOutDrv = false
  | .wr2 c => (∃ data, b.Writing c data) ∧ b.ctrl.we = false ∧
      (late = false → b.ctrl.wordRd = b.word b.ctrl.addr)
  | .wr3 c => ∃ data, b.Writing c data ∧ b.ctrl.we = false ∧
      b.ctrl.sramOut = merged b.ctrl.addr data (b.word b.ctrl.addr)
  | .wr4 c => ∃ data, b.Writing c data ∧ b.ctrl.we = true ∧ b.ctrl.sramOutDrv = true ∧
      b.ctrl.sramOut = merged b.ctrl.addr data (b.word b.ctrl.addr)

structure Invariant (late : Bool) (b : SramBoard) : Prop where
  read : ∀ c, b.ctrl.pendingRd c = true → isRead (b.request c) = true
  write : ∀ c, b.ctrl.pendingWr c = true → isRead (b.request c) = false
  phase : b.Phase late

variable {late : Bool} {b : SramBoard} {t : SramTick} {c : SramClient}

theorem pendingRd_clock (b : SramBoard) (t : SramTick) (c : SramClient) :
    (b.clock late t).ctrl.pendingRd c =
      setResetFlipflop (t.port c).beginRd (b.ctrl.finishRd c) (b.ctrl.pendingRd c) := by
  change (b.ctrl.clock _ _ _).pendingRd c = _
  rw [SramCtrl.clock]
  cases b.ctrl.state <;> rfl

theorem pendingWr_clock (b : SramBoard) (t : SramTick) (c : SramClient) :
    (b.clock late t).ctrl.pendingWr c =
      setResetFlipflop (t.port c).beginWr (b.ctrl.finishWr c) (b.ctrl.pendingWr c) := by
  change (b.ctrl.clock _ _ _).pendingWr c = _
  rw [SramCtrl.clock]
  cases b.ctrl.state <;> rfl

theorem request_clock (b : SramBoard) (t : SramTick) (c : SramClient) :
    (b.clock late t).request c = (begins (t.port c)).getD (b.request c) := rfl

theorem Disciplined.keeps (h : b.Disciplined t) (hpending : b.ctrl.pending c = true) :
    (b.clock late t).request c = b.request c ∧
      (b.clock late t).ctrl.pendingRd c = (b.ctrl.pendingRd c && !b.ctrl.finishRd c) ∧
        (b.clock late t).ctrl.pendingWr c = (b.ctrl.pendingWr c && !b.ctrl.finishWr c) := by
  obtain ⟨hbegins, -⟩ := (h c).2 hpending
  have hport : (t.port c).beginRd = false ∧ (t.port c).beginWr = false := by
    rw [begins] at hbegins
    split_ifs at hbegins with hrd hwr
    exact ⟨Bool.eq_false_iff.mpr hrd, Bool.eq_false_iff.mpr hwr⟩
  rw [request_clock, hbegins, pendingRd_clock, pendingWr_clock, hport.1, hport.2]
  refine ⟨rfl, ?_, ?_⟩
  · cases b.ctrl.finishRd c <;> simp [setResetFlipflop]
  · cases b.ctrl.finishWr c <;> simp [setResetFlipflop]

theorem Disciplined.begins_iff (h : b.Disciplined t) (c : SramClient) :
    ((t.port c).beginRd = true ↔ ∃ address, begins (t.port c) = some (.read address)) ∧
      ((t.port c).beginWr = true ↔ ∃ address data, begins (t.port c) = some (.write address data)) := by
  have hone := (h c).1
  rw [begins]
  cases hrd : (t.port c).beginRd <;> cases hwr : (t.port c).beginWr <;> simp [hrd, hwr] at hone ⊢

theorem Reading.clock (h : b.Reading c) (ht : b.Disciplined t) (hstate : b.ctrl.state ≠ .rd3 c)
    (haddr : (b.clock late t).ctrl.addr = b.ctrl.addr) : (b.clock late t).Reading c := by
  have hpending : b.ctrl.pending c = true := by rw [SramCtrl.pending, h.1, Bool.true_or]
  obtain ⟨hrequest, hrd, -⟩ := @Disciplined.keeps late b t c ht hpending
  have hfinish : b.ctrl.finishRd c = false := beq_eq_false_iff_ne.mpr hstate
  constructor
  · rw [hrd, h.1, hfinish]
    rfl
  · rw [hrequest, haddr, h.2]

theorem Writing.clock {data : Byte} (h : b.Writing c data) (ht : b.Disciplined t)
    (hstate : b.ctrl.state ≠ .wr4 c) (haddr : (b.clock late t).ctrl.addr = b.ctrl.addr) :
    (b.clock late t).Writing c data := by
  have hpending : b.ctrl.pending c = true := by rw [SramCtrl.pending, h.1, Bool.or_true]
  obtain ⟨hrequest, -, hwr⟩ := @Disciplined.keeps late b t c ht hpending
  have hfinish : b.ctrl.finishWr c = false := beq_eq_false_iff_ne.mpr hstate
  constructor
  · rw [hwr, h.1, hfinish]
    rfl
  · rw [hrequest, haddr, h.2]

theorem Invariant.reading (h : b.Invariant late) (ht : b.Disciplined t)
    (hpending : b.ctrl.pendingRd c = true) (hstate : b.ctrl.state = .idle)
    (haddr : (b.clock late t).ctrl.addr = (t.port c).addr) : (b.clock late t).Reading c := by
  have hany : b.ctrl.pending c = true := by rw [SramCtrl.pending, hpending, Bool.true_or]
  obtain ⟨hrequest, hrd, -⟩ := @Disciplined.keeps late b t c ht hany
  have hfinish : b.ctrl.finishRd c = false := by rw [SramCtrl.finishRd, hstate]; rfl
  have hholds := ((ht c).2 hany).2
  have hread := h.read c hpending
  constructor
  · rw [hrd, hpending, hfinish]
    rfl
  · rw [hrequest, haddr]
    cases hop : b.request c with
    | read address =>
      rw [hop] at hholds
      rw [show (t.port c).addr = address from hholds]
    | write address data =>
      rw [hop] at hread
      cases hread

theorem Invariant.writing (h : b.Invariant late) (ht : b.Disciplined t)
    (hpending : b.ctrl.pendingWr c = true) (hstate : b.ctrl.state = .idle)
    (haddr : (b.clock late t).ctrl.addr = (t.port c).addr) :
    ∃ data, (b.clock late t).Writing c data := by
  have hany : b.ctrl.pending c = true := by rw [SramCtrl.pending, hpending, Bool.or_true]
  obtain ⟨hrequest, -, hwr⟩ := @Disciplined.keeps late b t c ht hany
  have hfinish : b.ctrl.finishWr c = false := by rw [SramCtrl.finishWr, hstate]; rfl
  have hholds := ((ht c).2 hany).2
  have hwrite := h.write c hpending
  cases hop : b.request c with
  | read address =>
    rw [hop] at hwrite
    cases hwrite
  | write address data =>
    rw [hop] at hholds
    refine ⟨data, ?_, ?_⟩
    · rw [hwr, hpending, hfinish]
      rfl
    · rw [hrequest, haddr, hop, show (t.port c).addr = address from hholds.1]

theorem Writing.dataWr {data : Byte} (h : b.Writing c data) (ht : b.Disciplined t) :
    (t.port c).dataWr = data := by
  have hany : b.ctrl.pending c = true := by rw [SramCtrl.pending, h.1, Bool.or_true]
  have hholds := ((ht c).2 hany).2
  rw [h.2] at hholds
  exact hholds.2

theorem addr_clock (h : b.ctrl.state ≠ .idle) : (b.clock late t).ctrl.addr = b.ctrl.addr := by
  change (b.ctrl.clock _ _ _).addr = _
  rw [SramCtrl.clock]
  cases hstate : b.ctrl.state <;> first | rfl | exact absurd hstate h

theorem phase_idle (h : b.Invariant late) (ht : b.Disciplined t) (hstate : b.ctrl.state = .idle) :
    (b.clock late t).Phase late := by
  have hwe : (b.clock late t).ctrl.we = false := by simp only [clock, SramCtrl.clock, hstate]
  have hdrv : (b.clock late t).ctrl.sramOutDrv = false := by
    simp only [clock, SramCtrl.clock, hstate]
  have hoe : (b.clock late t).ctrl.oe = (b.ctrl.pending .c1 || b.ctrl.pending .c2) := by
    simp only [clock, SramCtrl.clock, hstate]
  have haddr : (b.clock late t).ctrl.addr =
      if b.ctrl.pending .c1 then (t.port .c1).addr
      else if b.ctrl.pending .c2 then (t.port .c2).addr else t.x20 := by
    simp only [clock, SramCtrl.clock, hstate]
  have hnext : (b.clock late t).ctrl.state =
      if b.ctrl.pendingRd .c1 then .rd1 .c1
      else if b.ctrl.pendingWr .c1 then .wr1 .c1
      else if b.ctrl.pendingRd .c2 then .rd1 .c2
      else if b.ctrl.pendingWr .c2 then .wr1 .c2
      else .idle := by
    simp only [clock, SramCtrl.clock, hstate]
  rw [SramCtrl.pending, SramCtrl.pending] at hoe haddr
  rw [Phase, hnext]
  by_cases hrd1 : b.ctrl.pendingRd .c1 = true
  · rw [hrd1] at haddr hoe
    rw [if_pos hrd1]
    exact ⟨h.reading ht hrd1 hstate haddr, hwe, hoe⟩
  rw [Bool.not_eq_true] at hrd1
  rw [hrd1, Bool.false_or] at haddr hoe
  by_cases hwr1 : b.ctrl.pendingWr .c1 = true
  · rw [hwr1] at haddr hoe
    rw [if_neg (Bool.eq_false_iff.mp hrd1), if_pos hwr1]
    exact ⟨h.writing ht hwr1 hstate haddr, hwe, hoe, hdrv⟩
  rw [Bool.not_eq_true] at hwr1
  rw [hwr1, if_neg Bool.false_ne_true] at haddr
  rw [hwr1, Bool.false_or] at hoe
  rw [if_neg (Bool.eq_false_iff.mp hrd1), if_neg (Bool.eq_false_iff.mp hwr1)]
  by_cases hrd2 : b.ctrl.pendingRd .c2 = true
  · rw [hrd2] at haddr hoe
    rw [if_pos hrd2]
    exact ⟨h.reading ht hrd2 hstate haddr, hwe, hoe⟩
  rw [Bool.not_eq_true] at hrd2
  rw [hrd2, Bool.false_or] at haddr hoe
  rw [if_neg (Bool.eq_false_iff.mp hrd2)]
  by_cases hwr2 : b.ctrl.pendingWr .c2 = true
  · rw [hwr2] at haddr hoe
    rw [if_pos hwr2]
    exact ⟨h.writing ht hwr2 hstate haddr, hwe, hoe, hdrv⟩
  · rw [if_neg hwr2]
    exact hwe

theorem Invariant.phase_clock (h : b.Invariant late) (ht : b.Disciplined t) (hfresh : b.Fresh) :
    (b.clock late t).Phase late := by
  have hphase := h.phase
  rw [Phase] at hphase
  cases hstate : b.ctrl.state with
  | idle => exact phase_idle h ht hstate
  | rd1 c =>
    rw [hstate] at hphase
    obtain ⟨hreading, hwe, hoe⟩ := hphase
    have haddr := @addr_clock late b t (by rw [hstate]; exact SramState.noConfusion)
    have hnext : (b.clock late t).ctrl.state = .rd2 c := by
      simp only [clock, SramCtrl.clock, hstate]
    rw [Phase, hnext]
    refine ⟨hreading.clock ht (by rw [hstate]; exact SramState.noConfusion) haddr, ?_, ?_, ?_, ?_⟩
    · simp only [clock, SramCtrl.clock, hstate]
    · simp only [clock, SramCtrl.clock, hstate]
    · simp only [clock, SramCtrl.clock, hstate]
    · rw [haddr, (content_clock_of_idle hwe).2]
      exact selected_clock hoe
  | rd2 c =>
    rw [hstate] at hphase
    obtain ⟨hreading, hwe, hoe, hdrv, hselected⟩ := hphase
    have haddr := @addr_clock late b t (by rw [hstate]; exact SramState.noConfusion)
    have hnext : (b.clock late t).ctrl.state = .rd3 c := by
      simp only [clock, SramCtrl.clock, hstate]
    rw [Phase, hnext]
    refine ⟨hreading.clock ht (by rw [hstate]; exact SramState.noConfusion) haddr, ?_, ?_⟩
    · simp only [clock, SramCtrl.clock, hstate]
    · rw [wordRd_clock haddr, haddr, (content_clock_of_idle hwe).2]
      cases late
      · exact io_of_prompt hdrv hoe
      · exact io_of_late hdrv hselected
  | rd3 c =>
    have hnext : (b.clock late t).ctrl.state = .idle := by
      simp only [clock, SramCtrl.clock, hstate]
    rw [Phase, hnext]
    simp only [clock, SramCtrl.clock, hstate]
  | wr1 c =>
    rw [hstate] at hphase
    obtain ⟨⟨data, hwriting⟩, hwe, hoe, hdrv⟩ := hphase
    have haddr := @addr_clock late b t (by rw [hstate]; exact SramState.noConfusion)
    have hnext : (b.clock late t).ctrl.state = .wr2 c := by
      simp only [clock, SramCtrl.clock, hstate]
    rw [Phase, hnext]
    refine ⟨⟨data, hwriting.clock ht (by rw [hstate]; exact SramState.noConfusion) haddr⟩, ?_, ?_⟩
    · simp only [clock, SramCtrl.clock, hstate]
    · rintro rfl
      rw [wordRd_clock haddr, haddr, (content_clock_of_idle hwe).2]
      exact io_of_prompt hdrv hoe
  | wr2 c =>
    rw [hstate] at hphase
    obtain ⟨⟨data, hwriting⟩, hwe, -⟩ := hphase
    have haddr := @addr_clock late b t (by rw [hstate]; exact SramState.noConfusion)
    have hnext : (b.clock late t).ctrl.state = .wr3 c := by
      simp only [clock, SramCtrl.clock, hstate]
    have hout : (b.clock late t).ctrl.sramOut = merged b.ctrl.addr data b.ctrl.wordRd := by
      simp only [clock, SramCtrl.clock, hstate, byteIndex_zero, hwriting.dataWr ht, merged, kept]
      split_ifs <;> rfl
    rw [Phase, hnext]
    refine ⟨data, hwriting.clock ht (by rw [hstate]; exact SramState.noConfusion) haddr, ?_, ?_⟩
    · simp only [clock, SramCtrl.clock, hstate]
    · rw [hout, haddr, (content_clock_of_idle hwe).2, merged, merged, hfresh c hstate]
  | wr3 c =>
    rw [hstate] at hphase
    obtain ⟨data, hwriting, hwe, hout⟩ := hphase
    have haddr := @addr_clock late b t (by rw [hstate]; exact SramState.noConfusion)
    have hnext : (b.clock late t).ctrl.state = .wr4 c := by
      simp only [clock, SramCtrl.clock, hstate]
    have hout' : (b.clock late t).ctrl.sramOut = b.ctrl.sramOut := by
      simp only [clock, SramCtrl.clock, hstate]
    rw [Phase, hnext]
    refine ⟨data, hwriting.clock ht (by rw [hstate]; exact SramState.noConfusion) haddr, ?_, ?_, ?_⟩
    · simp only [clock, SramCtrl.clock, hstate]
    · simp only [clock, SramCtrl.clock, hstate]
    · rw [hout', haddr, (content_clock_of_idle hwe).2, hout]
  | wr4 c =>
    have hnext : (b.clock late t).ctrl.state = .idle := by
      simp only [clock, SramCtrl.clock, hstate]
    rw [Phase, hnext]
    simp only [clock, SramCtrl.clock, hstate]

theorem setResetFlipflop_eq_true {syncSet syncReset out : Bool}
    (h : setResetFlipflop syncSet syncReset out = true) :
    syncSet = true ∨ syncSet = false ∧ syncReset = false ∧ out = true := by
  cases syncSet <;> cases syncReset <;> simp [setResetFlipflop] at h ⊢
  exact h

theorem Invariant.clock (h : b.Invariant late) (ht : b.Disciplined t) (hfresh : b.Fresh) :
    (b.clock late t).Invariant late where
  read c hrd := by
    rw [pendingRd_clock] at hrd
    rcases setResetFlipflop_eq_true hrd with hbegin | ⟨-, -, hpending⟩
    · obtain ⟨address, hbegins⟩ := (ht.begins_iff c).1.mp hbegin
      rw [request_clock, hbegins]
      rfl
    · have hany : b.ctrl.pending c = true := by rw [SramCtrl.pending, hpending, Bool.true_or]
      rw [(@Disciplined.keeps late b t c ht hany).1]
      exact h.read c hpending
  write c hwr := by
    rw [pendingWr_clock] at hwr
    rcases setResetFlipflop_eq_true hwr with hbegin | ⟨-, -, hpending⟩
    · obtain ⟨address, data, hbegins⟩ := (ht.begins_iff c).2.mp hbegin
      rw [request_clock, hbegins]
      rfl
    · have hany : b.ctrl.pending c = true := by rw [SramCtrl.pending, hpending, Bool.or_true]
      rw [(@Disciplined.keeps late b t c ht hany).1]
      exact h.write c hpending
  phase := h.phase_clock ht hfresh

theorem Invariant.reset (content1 content2 : BitVec 18 → BitVec 16) (request : SramClient → SramOp) :
    (reset content1 content2 request).Invariant late where
  read c hrd := by cases hrd
  write c hwr := by cases hwr
  phase := rfl

end SramBoard

end NaviMisc.SpiMemEmulator
