import NaviMisc.SpiMemEmulator.SpiBytes

/-!
What a clock does to the view of the board, with and without an edge of the SPI clock.
-/

namespace NaviMisc.SpiMemEmulator

namespace SpiMachine

variable {r : SpiMachine} {x x' mosiReg memDataRd : Byte} {memFinish : Bool}

structure Idles (memFinish : Bool) (memDataRd : Byte) (r r' : SpiMachine) : Prop where
  state : r'.state = r.state
  memAddr : r'.memAddr = r.memAddr
  writeEnable : r'.writeEnable = r.writeEnable
  memBeginWr : r'.memBeginWr = false
  memBeginRd : r'.memBeginRd = false
  strobe : r'.misoLoadStrobe = (r.state == .done || r.state == .cmdReadData && memFinish)
  done : r.state = .done → r'.misoLoadData = 0xff
  read : r.state = .cmdReadData → memFinish = true → r'.misoLoadData = memDataRd

theorem idles_clock :
    r.Idles memFinish memDataRd (r.clock x x' false false mosiReg memFinish memDataRd) := by
  obtain ⟨state, strobe, load, wr, rd, address, dataWr, enable⟩ := r
  cases state <;> constructor <;> simp +contextual [clock]

end SpiMachine

namespace SpiBoard

def view (b : SpiBoard) : SpiView where
  bitCount := b.emu.shift.bitCount
  mosiReg := b.emu.shift.mosiReg
  misoReg :=
    if b.emu.machine.state = .done then 0xff
    else if b.emu.machine.misoLoadStrobe then b.emu.machine.misoLoadData
    else if b.emu.machine.memBeginRd || b.reading then
      written b.emu.machine b.content b.emu.machine.memAddr
    else b.emu.shift.misoReg
  misoOut := b.emu.shift.misoOut
  samples := b.samples
  core := {
    state := b.emu.machine.state
    memAddr := b.emu.machine.memAddr
    writeEnable := b.emu.machine.writeEnable
    content := written b.emu.machine b.content
    accesses := b.accesses ++ begun b.emu.machine }

structure Pending (b : SpiBoard) : Prop where
  byteStrobe : b.emu.shift.byteStrobe = false
  unfinished : b.Unfinished → b.emu.machine.state = .cmdReadData ∧
    b.emu.machine.misoLoadStrobe = false ∧ b.emu.machine.memBeginWr = false
  begun : b.emu.machine.memBeginRd = true → b.reading = false

structure Still (b : SpiBoard) : Prop where
  memBeginWr : b.emu.machine.memBeginWr = false
  memBeginRd : b.emu.machine.memBeginRd = false
  reading : b.reading = false
  load : b.emu.machine.misoLoadStrobe = true →
    b.emu.machine.misoLoadData = 0xff ∧ b.emu.shift.misoReg = 0xff
  done : b.emu.machine.state = .done → b.emu.shift.misoReg = 0xff

structure Calm (b : SpiBoard) : Prop extends b.Still where
  byteStrobe : b.emu.shift.byteStrobe = false

structure Quiet (b : SpiBoard) : Prop where
  cs : b.emu.spiDffCs.dOut = false
  clk : b.emu.spiDffClk.dOut = b.emu.spiClkPrev

variable {b : SpiBoard}

theorem Quiet.posedge (h : b.Quiet) : b.emu.spiClkPosedge = false := by
  rw [SpiMemEmu.spiClkPosedge, h.clk, Bool.and_not_self]

theorem Quiet.negedge (h : b.Quiet) : b.emu.spiClkNegedge = false := by
  rw [SpiMemEmu.spiClkNegedge, h.clk, Bool.not_and_self]

theorem Calm.pending (h : b.Calm) : b.Pending where
  byteStrobe := h.byteStrobe
  unfinished hread := by
    rcases hread with hbegin | hreading
    · rw [h.memBeginRd] at hbegin
      cases hbegin
    · rw [h.reading] at hreading
      cases hreading
  begun _ := h.reading

theorem shift_quiet (h : b.Quiet) (t : SpiTick) :
    (b.clock t).emu.shift = { b.emu.shift with
      misoReg :=
        if b.emu.machine.misoLoadStrobe then b.emu.machine.misoLoadData else b.emu.shift.misoReg
      byteStrobe := false } := by
  change SpiShift.clock _ _ _ _ _ _ b.emu.shift = _
  rw [SpiShift.clock, h.cs, h.posedge, h.negedge]
  cases b.emu.machine.misoLoadStrobe <;> rfl

theorem idles_selected (hcs : b.emu.spiDffCs.dOut = false)
    (hstrobe : b.emu.shift.byteStrobe = false) (t : SpiTick) :
    b.emu.machine.Idles (b.reading && t.finish) (b.content b.emu.machine.memAddr)
      (b.clock t).emu.machine := by
  change SpiMachine.Idles _ _ _ (SpiMachine.clock _ _ _ _ _ _ _ b.emu.machine)
  rw [hcs, hstrobe]
  exact SpiMachine.idles_clock

theorem written_of_idle {r : SpiMachine} (h : r.memBeginWr = false) (content : Content) :
    written r content = content := by
  rw [written, h]
  rfl

theorem begun_of_idle {r : SpiMachine} (h : r.memBeginWr = false) (h' : r.memBeginRd = false) :
    begun r = [] := by
  rw [SpiBoard.begun, h, h']
  rfl

theorem core_selected (hcs : b.emu.spiDffCs.dOut = false)
    (hstrobe : b.emu.shift.byteStrobe = false) (t : SpiTick) :
    (b.clock t).view.core = b.view.core := by
  have hidles := idles_selected hcs hstrobe t
  have hcontent : (b.clock t).content = written b.emu.machine b.content := rfl
  have haccesses : (b.clock t).accesses = b.accesses ++ begun b.emu.machine := rfl
  simp only [view, hidles.state, hidles.memAddr, hidles.writeEnable,
    written_of_idle hidles.memBeginWr, begun_of_idle hidles.memBeginWr hidles.memBeginRd, hcontent,
    haccesses, List.append_nil]

theorem Pending.misoReg_quiet (h : b.Pending) (hquiet : b.Quiet) (t : SpiTick) :
    (b.clock t).view.misoReg = b.view.misoReg := by
  have hshift := shift_quiet hquiet t
  have hidles := idles_selected hquiet.cs h.byteStrobe t
  have hreading : (b.clock t).reading = (b.emu.machine.memBeginRd || b.reading && !t.finish) := rfl
  have hcontent : (b.clock t).content = written b.emu.machine b.content := rfl
  simp only [view, hidles.state, hidles.memAddr, hidles.memBeginRd,
    written_of_idle hidles.memBeginWr, hidles.strobe, hreading, hcontent, hshift]
  by_cases hdone : b.emu.machine.state = .done
  · rw [if_pos hdone, if_pos hdone]
  rw [if_neg hdone, if_neg hdone]
  cases hbegin : b.emu.machine.memBeginRd with
  | true =>
    obtain ⟨hstate, hstrobe, -⟩ := h.unfinished (Or.inl hbegin)
    simp [hstate, hstrobe, h.begun hbegin]
  | false =>
    cases hread : b.reading with
    | true =>
      obtain ⟨hstate, hstrobe, hwr⟩ := h.unfinished (Or.inr hread)
      rw [hread] at hidles
      cases hfinish : t.finish with
      | true =>
        rw [hfinish] at hidles
        simp [hstate, hstrobe, hidles.read hstate rfl, written_of_idle hwr]
      | false => simp [hstate, hstrobe]
    | false => simp [hdone]

theorem Pending.quiet (h : b.Pending) (hquiet : b.Quiet) (t : SpiTick) :
    (b.clock t).Pending ∧ (b.clock t).view = { b.view with samples := (b.clock t).samples } := by
  have hshift := shift_quiet hquiet t
  have hidles := idles_selected hquiet.cs h.byteStrobe t
  have hreading : (b.clock t).reading = (b.emu.machine.memBeginRd || b.reading && !t.finish) := rfl
  constructor
  · constructor
    · rw [hshift]
    · intro hunfinished
      rw [Unfinished, hidles.memBeginRd, hreading, Bool.or_eq_true, Bool.and_eq_true] at hunfinished
      rw [hidles.state, hidles.strobe]
      rcases hunfinished with hbegin | hbegin | ⟨hread, hfinish⟩
      · cases hbegin
      · have hnot := h.begun hbegin
        obtain ⟨hstate, -, -⟩ := h.unfinished (Or.inl hbegin)
        rw [hstate, hnot]
        exact ⟨rfl, rfl, hidles.memBeginWr⟩
      · obtain ⟨hstate, -, -⟩ := h.unfinished (Or.inr hread)
        rw [Bool.not_eq_true'] at hfinish
        rw [hstate, hfinish, Bool.and_false]
        exact ⟨rfl, rfl, hidles.memBeginWr⟩
    · rw [hidles.memBeginRd]
      exact fun h => by cases h
  · apply SpiView.ext
    · simp only [view, hshift]
    · simp only [view, hshift]
    · exact h.misoReg_quiet hquiet t
    · simp only [view, hshift]
    · rfl
    · exact core_selected hquiet.cs h.byteStrobe t

theorem Still.selected (h : b.Still) (hcs : b.emu.spiDffCs.dOut = false)
    (hstrobe : b.emu.shift.byteStrobe = false) (t : SpiTick)
    (hones : b.emu.shift.misoReg = 0xff → (b.clock t).emu.shift.misoReg = 0xff) :
    (b.clock t).Still := by
  have hidles := idles_selected hcs hstrobe t
  have hreading : (b.clock t).reading = (b.emu.machine.memBeginRd || b.reading && !t.finish) := rfl
  rw [h.memBeginRd, h.reading] at hreading
  rw [h.reading] at hidles
  constructor
  · exact hidles.memBeginWr
  · exact hidles.memBeginRd
  · exact hreading
  · intro hload
    rw [hidles.strobe, Bool.false_and, Bool.and_false, Bool.or_false, beq_iff_eq] at hload
    exact ⟨hidles.done hload, hones (h.done hload)⟩
  · intro hdone
    rw [hidles.state] at hdone
    exact hones (h.done hdone)

theorem Still.misoReg_view (h : b.Still) : b.view.misoReg = b.emu.shift.misoReg := by
  simp only [view, h.memBeginRd, h.reading, Bool.or_false, if_neg Bool.false_ne_true]
  by_cases hdone : b.emu.machine.state = .done
  · rw [if_pos hdone, h.done hdone]
  · rw [if_neg hdone]
    by_cases hload : b.emu.machine.misoLoadStrobe = true
    · rw [if_pos hload, (h.load hload).1, (h.load hload).2]
    · rw [if_neg hload]

theorem Still.misoReg_quiet (h : b.Still) (hquiet : b.Quiet) (t : SpiTick) :
    (b.clock t).emu.shift.misoReg = b.emu.shift.misoReg := by
  rw [shift_quiet hquiet t]
  by_cases hload : b.emu.machine.misoLoadStrobe = true
  · simp [hload, h.load hload]
  · simp [hload]

theorem Calm.quiet (h : b.Calm) (hquiet : b.Quiet) (t : SpiTick) : (b.clock t).Calm where
  toStill := h.selected hquiet.cs h.byteStrobe t fun hones => by rwa [h.misoReg_quiet hquiet t]
  byteStrobe := by rw [shift_quiet hquiet t]

theorem Pending.calm (h : b.Pending) (hfinished : ¬b.Unfinished) (hquiet : b.Quiet) (t t' : SpiTick)
    (hquiet' : (b.clock t).Quiet) : ((b.clock t).clock t').Calm := by
  rw [Unfinished, not_or, Bool.not_eq_true, Bool.not_eq_true] at hfinished
  have hstrobe : (b.clock t).emu.shift.byteStrobe = false := by rw [shift_quiet hquiet t]
  have hidles := idles_selected hquiet.cs h.byteStrobe t
  have hreading : (b.clock t).reading = (b.emu.machine.memBeginRd || b.reading && !t.finish) := rfl
  rw [hfinished.1, hfinished.2] at hreading
  rw [hfinished.2] at hidles
  by_cases hdone : b.emu.machine.state = .done
  · have hload : (b.clock t).emu.machine.misoLoadStrobe = true := by
      rw [hidles.strobe, hdone]
      rfl
    have hones : ((b.clock t).clock t').emu.shift.misoReg = 0xff := by
      rw [shift_quiet hquiet' t', hload]
      exact hidles.done hdone
    have hidles' := idles_selected hquiet'.cs hstrobe t'
    have hreading' : ((b.clock t).clock t').reading =
      ((b.clock t).emu.machine.memBeginRd || (b.clock t).reading && !t'.finish) := rfl
    rw [hidles.memBeginRd, hreading] at hreading'
    refine ⟨⟨hidles'.memBeginWr, hidles'.memBeginRd, hreading', fun _ => ⟨?_, hones⟩, fun _ => hones⟩,
      by rw [shift_quiet hquiet' t']⟩
    exact hidles'.done (hidles.state.trans hdone)
  · have hcalm : (b.clock t).Calm := by
      refine ⟨⟨hidles.memBeginWr, hidles.memBeginRd, hreading, fun hload => ?_, fun hdone' => ?_⟩,
        hstrobe⟩
      · rw [hidles.strobe, Bool.false_and, Bool.and_false, Bool.or_false, beq_iff_eq] at hload
        exact absurd hload hdone
      · exact absurd (hidles.state.symm.trans hdone') hdone
    exact hcalm.quiet hquiet' t'

theorem Calm.posedge (h : b.Calm) (hcs : b.emu.spiDffCs.dOut = false)
    (hposedge : b.emu.spiClkPosedge = true) (t : SpiTick) :
    (b.clock t).Still ∧ (b.clock t).emu.shift.byteStrobe = (b.view.bitCount == 7) ∧
      (b.clock t).view =
        { b.view.shiftIn b.emu.spiDffMosi.dOut with samples := (b.clock t).samples } := by
  have hshift : (b.clock t).emu.shift = { b.emu.shift with
      bitCount := b.emu.shift.bitCount + 1
      mosiReg := b.emu.shift.mosiReg.shiftConcat b.emu.spiDffMosi.dOut
      byteStrobe := b.emu.shift.bitCount == 7 } := by
    change SpiShift.clock _ _ _ _ _ _ b.emu.shift = _
    rw [SpiShift.clock, hcs, hposedge]
    rfl
  have hstill : (b.clock t).Still :=
    h.selected hcs h.byteStrobe t fun hones => by rw [hshift]; exact hones
  refine ⟨hstill, by rw [hshift]; rfl, ?_⟩
  apply SpiView.ext
  · simp only [view, hshift, SpiView.shiftIn]
  · simp only [view, hshift, SpiView.shiftIn]
  · rw [hstill.misoReg_view, hshift]
    exact h.misoReg_view.symm
  · simp only [view, hshift, SpiView.shiftIn]
  · rfl
  · exact core_selected hcs h.byteStrobe t

theorem Calm.negedge (h : b.Calm) (hcs : b.emu.spiDffCs.dOut = false)
    (hposedge : b.emu.spiClkPosedge = false) (hnegedge : b.emu.spiClkNegedge = true) (t : SpiTick) :
    (b.clock t).Calm ∧
      (b.clock t).view = { b.view.shiftOut with samples := (b.clock t).samples } := by
  have hshift : (b.clock t).emu.shift = { b.emu.shift with
      misoReg := b.emu.shift.misoReg.shiftConcat true
      misoOut := b.emu.shift.misoReg.msb
      byteStrobe := false } := by
    change SpiShift.clock _ _ _ _ _ _ b.emu.shift = _
    rw [SpiShift.clock, hcs, hposedge, hnegedge]
    rfl
  have hstill : (b.clock t).Still :=
    h.selected hcs h.byteStrobe t fun hones => by rw [hshift, hones]; rfl
  refine ⟨⟨hstill, by rw [hshift]⟩, ?_⟩
  apply SpiView.ext
  · simp only [view, hshift, SpiView.shiftOut]
  · simp only [view, hshift, SpiView.shiftOut]
  · rw [hstill.misoReg_view, hshift]
    exact congrArg (BitVec.shiftConcat · true) h.misoReg_view.symm
  · rw [SpiView.shiftOut, h.misoReg_view]
    simp only [view, hshift]
  · rfl
  · exact core_selected hcs h.byteStrobe t

theorem Still.deselected (h : b.Still) (hcs : b.emu.spiDffCs.dOut = true) (t : SpiTick) :
    (b.clock t).Calm ∧
      (b.clock t).view = { b.view.deselect with samples := (b.clock t).samples } := by
  have hshift : (b.clock t).emu.shift = .reset := by
    change SpiShift.clock _ _ _ _ _ _ b.emu.shift = _
    rw [SpiShift.clock, hcs]
    rfl
  have hmachine : (b.clock t).emu.machine = { b.emu.machine with
      state := .waitForCmd, misoLoadStrobe := true, misoLoadData := 0xff
      memBeginWr := false, memBeginRd := false, memDataWr := 0 } := by
    change SpiMachine.clock _ _ _ _ _ _ _ b.emu.machine = _
    rw [SpiMachine.clock, hcs]
    rfl
  have hreading : (b.clock t).reading = (b.emu.machine.memBeginRd || b.reading && !t.finish) := rfl
  rw [h.memBeginRd, h.reading] at hreading
  constructor
  · refine ⟨⟨?_, ?_, hreading, fun _ => ⟨?_, ?_⟩, fun _ => ?_⟩, ?_⟩ <;>
      simp only [hmachine, hshift, SpiShift.reset]
  · have hcontent : (b.clock t).content = written b.emu.machine b.content := rfl
    have haccesses : (b.clock t).accesses = b.accesses ++ begun b.emu.machine := rfl
    rw [SpiView.deselect, SpiCore.deselect]
    simp [view, hmachine, hshift, hcontent, haccesses, SpiShift.reset, written, begun]

theorem Still.respond (h : b.Still) (hstrobe : b.emu.shift.byteStrobe = true) (hquiet : b.Quiet)
    (t : SpiTick) :
    (b.clock t).Pending ∧
      (b.clock t).view = { b.view.respond with samples := (b.clock t).samples } := by
  have hshift := shift_quiet hquiet t
  have hmiso := h.misoReg_quiet hquiet t
  have hview := h.misoReg_view
  have hmachine : (b.clock t).emu.machine = b.emu.machine.clock t.x t.x' false true
      b.emu.shift.mosiReg (b.reading && t.finish) (b.content b.emu.machine.memAddr) := by
    change SpiMachine.clock _ _ _ _ _ _ _ b.emu.machine = _
    rw [hquiet.cs, hstrobe]
  have hreading : (b.clock t).reading = (b.emu.machine.memBeginRd || b.reading && !t.finish) := rfl
  have hcontent : (b.clock t).content = written b.emu.machine b.content := rfl
  have haccesses : (b.clock t).accesses = b.accesses ++ begun b.emu.machine := rfl
  rw [h.memBeginRd, h.reading] at hreading
  rw [written_of_idle h.memBeginWr] at hcontent
  rw [begun_of_idle h.memBeginWr h.memBeginRd, List.append_nil] at haccesses
  have hidle : b.reading = false := h.reading
  constructor
  · refine ⟨by rw [hshift], ?_, fun _ => hreading⟩
    rw [Unfinished, hmachine, hreading]
    cases hstate : b.emu.machine.state <;> simp [SpiMachine.clock, hstate, hidle]
  · have hcore : b.view.core = ⟨b.emu.machine.state, b.emu.machine.memAddr,
        b.emu.machine.writeEnable, b.content, b.accesses⟩ := by
      simp only [view, written_of_idle h.memBeginWr, begun_of_idle h.memBeginWr h.memBeginRd,
        List.append_nil]
    have hmosi : b.view.mosiReg = b.emu.shift.mosiReg := rfl
    rw [SpiView.respond, hcore, hmosi, hview, ← hmiso]
    apply SpiView.ext
    · simp only [view, hshift]
    · simp only [view, hshift]
    · have hrdsr : SpiState.ofCmd I_RDSR ≠ .done := by decide
      by_cases hcmd : b.emu.shift.mosiReg = I_RDSR
      all_goals
        cases hstate : b.emu.machine.state <;>
          simp [view, hmachine, hreading, hcontent, hstate, hidle, hcmd, hrdsr, SpiMachine.clock,
            SpiCore.respond, SpiCore.read, SpiCore.write, written]
    · simp only [view, hshift]
    · rfl
    · cases hstate : b.emu.machine.state <;>
        simp [view, hmachine, hcontent, haccesses, hstate, SpiMachine.clock, SpiCore.respond,
          SpiCore.read, SpiCore.write, written, begun]

end SpiBoard

end NaviMisc.SpiMemEmulator
