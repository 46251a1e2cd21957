import NaviMisc.Lib.Runs
import NaviMisc.SpiMemEmulator.SpiEdges

/-!
Transactions on the lines of the bus, and that the emulator answers them as the memory does.
-/

namespace NaviMisc.SpiMemEmulator

open NaviMisc.Lib
open NaviMisc.Lib.ShiftRegister

def SpiTick.At (clk cs : Bool) (t : SpiTick) : Prop := t.spiClk = clk ∧ t.spiCs = cs

structure Level (clk cs : Bool) (ticks : List SpiTick) : Prop where
  length : 4 ≤ ticks.length
  lines : ∀ t ∈ ticks, t.At clk cs

inductive Bits : List Bool → List SpiTick → Prop
  | nil : Bits [] []
  | cons {mosi : Bool} {bits : List Bool} {t : SpiTick} {high low ticks : List SpiTick} :
      Level true false (t :: high) → t.spiMosi = mosi → Level false false low → Bits bits ticks →
        Bits (mosi :: bits) (t :: high ++ low ++ ticks)

inductive Transactions : List (List Byte) → List SpiTick → Prop
  | nil {idle : List SpiTick} : Level false true idle → Transactions [] idle
  | cons {bytes : List Byte} {transactions : List (List Byte)}
      {idle selected ticks later : List SpiTick} :
      Level false true idle → Level false false selected →
        Bits (bytes.flatMap highFirst) ticks → Transactions transactions later →
          Transactions (bytes :: transactions) (idle ++ selected ++ ticks ++ later)

theorem Level.cases {clk cs : Bool} {ticks : List SpiTick} (h : Level clk cs ticks) : ∃ t₀ t₁ t₂ t₃ rest,
    ticks = t₀ :: t₁ :: t₂ :: t₃ :: rest ∧ t₀.At clk cs ∧ t₁.At clk cs ∧ t₂.At clk cs ∧
      t₃.At clk cs ∧ ∀ t ∈ rest, t.At clk cs := by
  obtain ⟨hlength, hlines⟩ := h
  match ticks with
  | t₀ :: t₁ :: t₂ :: t₃ :: rest =>
    simp only [List.forall_mem_cons] at hlines
    exact ⟨t₀, t₁, t₂, t₃, rest, rfl, hlines⟩

namespace SpiBoard

structure Lines (clk cs : Bool) (b : SpiBoard) : Prop where
  spiDffClk : b.emu.spiDffClk = ⟨clk, clk⟩
  spiClkPrev : b.emu.spiClkPrev = clk
  spiDffCs : b.emu.spiDffCs = ⟨cs, cs⟩
  spiClk : b.spiClk = clk

variable {b : SpiBoard} {clk cs : Bool} {ticks : List SpiTick} {t t₀ t₁ t₂ : SpiTick}

theorem lines_clock (h₀ : t₀.At clk cs) (h₁ : t₁.At clk cs) (h₂ : t₂.At clk cs) (b : SpiBoard) :
    (((b.clock t₀).clock t₁).clock t₂).Lines clk cs := by
  obtain ⟨rfl, rfl⟩ := h₀
  have hclk : (((b.clock t₀).clock t₁).clock t₂).emu.spiDffClk = ⟨t₂.spiClk, t₁.spiClk⟩ := rfl
  have hcs : (((b.clock t₀).clock t₁).clock t₂).emu.spiDffCs = ⟨t₂.spiCs, t₁.spiCs⟩ := rfl
  constructor
  · rw [hclk, h₁.1, h₂.1]
  · rfl
  · rw [hcs, h₁.2, h₂.2]
  · exact h₂.1

theorem Lines.clock (h : b.Lines clk cs) (ht : t.At clk cs) : (b.clock t).Lines clk cs := by
  have hclk : (b.clock t).emu.spiDffClk = ⟨t.spiClk, b.emu.spiDffClk.intermediate⟩ := rfl
  have hcs : (b.clock t).emu.spiDffCs = ⟨t.spiCs, b.emu.spiDffCs.intermediate⟩ := rfl
  constructor
  · rw [hclk, h.spiDffClk, ht.1]
  · exact congrArg DFlipflopPair.dOut h.spiDffClk
  · rw [hcs, h.spiDffCs, ht.2]
  · exact ht.1

theorem Lines.quiet (h : b.Lines clk false) : b.Quiet := by
  constructor
  · rw [h.spiDffCs]
  · rw [h.spiDffClk, h.spiClkPrev]

theorem Lines.quiet_clock (h : b.Lines clk false) (t : SpiTick) : (b.clock t).Quiet := by
  constructor
  · exact congrArg DFlipflopPair.intermediate h.spiDffCs
  · change b.emu.spiDffClk.intermediate = b.emu.spiDffClk.dOut
    rw [h.spiDffClk]

theorem samples_clock (h : t.spiClk = false ∨ b.spiClk = true) :
    (b.clock t).samples = b.samples := by
  have hsamples : (b.clock t).samples = b.samples ++
    if t.spiClk && !b.spiClk then (b.emu.spiMiso t.spiCs).toList else [] := rfl
  rw [hsamples]
  rcases h with h | h <;> simp [h]

theorem Pending.clock (h : b.Pending) (hquiet : b.Quiet)
    (ht : t.spiClk = false ∨ b.spiClk = true) :
    (b.clock t).Pending ∧ (b.clock t).view = b.view := by
  obtain ⟨hpending, hview⟩ := h.quiet hquiet t
  rw [samples_clock ht] at hview
  exact ⟨hpending, hview⟩

theorem Lines.samples (h : b.Lines clk cs) (ht : t.At clk cs) :
    t.spiClk = false ∨ b.spiClk = true := by
  rw [ht.1, h.spiClk]
  cases clk
  · exact Or.inl rfl
  · exact Or.inr rfl

theorem Pending.run (h : b.Pending) (hlines : b.Lines clk false)
    (hticks : ∀ t ∈ ticks, t.At clk false) :
    (ticks.foldl SpiBoard.clock b).Pending ∧ (ticks.foldl SpiBoard.clock b).Lines clk false ∧
      (ticks.foldl SpiBoard.clock b).view = b.view := by
  induction ticks generalizing b with
  | nil => exact ⟨h, hlines, rfl⟩
  | cons t ticks ih =>
    rw [List.forall_mem_cons] at hticks
    obtain ⟨hpending, hview⟩ := h.clock hlines.quiet (hlines.samples hticks.1)
    rw [← hview]
    exact ih hpending (hlines.clock hticks.1) hticks.2

theorem Calm.run (h : b.Calm) (hlines : b.Lines clk false)
    (hticks : ∀ t ∈ ticks, t.At clk false) :
    (ticks.foldl SpiBoard.clock b).Calm ∧ (ticks.foldl SpiBoard.clock b).Lines clk false ∧
      (ticks.foldl SpiBoard.clock b).view = b.view := by
  refine ⟨?_, (h.pending.run hlines hticks).2⟩
  induction ticks generalizing b with
  | nil => exact h
  | cons t ticks ih =>
    rw [List.forall_mem_cons] at hticks
    exact ih (h.quiet hlines.quiet t) (hlines.clock hticks.1) hticks.2

theorem Calm.deselect (h : b.Calm) (hcs : b.emu.spiDffCs.dOut = true) (ht : t.spiClk = false) :
    (b.clock t).Calm ∧ (b.clock t).view = b.view.deselect := by
  obtain ⟨hcalm, hview⟩ := h.deselected hcs t
  rw [samples_clock (Or.inl ht)] at hview
  exact ⟨hcalm, hview⟩

theorem Calm.run_deselected (h : b.Calm) (hlines : b.Lines false true)
    (hticks : ∀ t ∈ ticks, t.At false true) (hview : b.view.deselect = b.view) :
    (ticks.foldl SpiBoard.clock b).Calm ∧ (ticks.foldl SpiBoard.clock b).Lines false true ∧
      (ticks.foldl SpiBoard.clock b).view = b.view := by
  induction ticks generalizing b with
  | nil => exact ⟨h, hlines, rfl⟩
  | cons t ticks ih =>
    rw [List.forall_mem_cons] at hticks
    obtain ⟨hcalm, hview'⟩ := h.deselect (by rw [hlines.spiDffCs]) hticks.1.1
    rw [hview] at hview'
    rw [← hview'] at hview
    rw [← hview']
    exact ih hcalm (hlines.clock hticks.1) hticks.2 (by rw [hview, hview'])

theorem Calm.high (h : b.Calm) (hlines : b.Lines false false) {high : List SpiTick}
    (hlevel : Level true false (t :: high)) :
    let b' := (t :: high).foldl SpiBoard.clock b
    b'.Pending ∧ b'.Lines true false ∧ b'.view = b.view.rise t.spiMosi := by
  obtain ⟨t₀, t₁, t₂, t₃, rest, heq, h₀, h₁, h₂, h₃, hrest⟩ := hlevel.cases
  obtain ⟨rfl, rfl⟩ := List.cons.inj heq
  let b₁ := b.clock t
  let b₂ := b₁.clock t₁
  let b₃ := b₂.clock t₂
  -- The edge is seen at the third clock.
  have hcalm₁ : b₁.Calm := h.quiet hlines.quiet t
  have hview₁ : b₁.view = b.view.sample := by
    rw [(h.pending.quiet hlines.quiet t).2, SpiView.sample]
    have hsamples : (b.clock t).samples = b.samples ++
      if t.spiClk && !b.spiClk then (b.emu.spiMiso t.spiCs).toList else [] := rfl
    rw [hsamples, h₀.1, h₀.2, hlines.spiClk]
    rfl
  have hcalm₂ : b₂.Calm := hcalm₁.quiet (hlines.quiet_clock _) t₁
  have hview₂ : b₂.view = b.view.sample :=
    (hcalm₁.pending.clock (hlines.quiet_clock _) (Or.inr h₀.1)).2.trans hview₁
  have hposedge : b₂.emu.spiClkPosedge = true := by
    change (t.spiClk && !b.emu.spiDffClk.intermediate) = true
    rw [h₀.1, hlines.spiDffClk]
    rfl
  obtain ⟨hstill₃, hstrobe₃, hview₃⟩ := hcalm₂.posedge h₀.2 hposedge t₂
  have hlines₃ : b₃.Lines true false := lines_clock h₀ h₁ h₂ b
  have hmosi : b₂.emu.spiDffMosi.dOut = t.spiMosi := rfl
  have hsamples₃ : b₃.samples = b₂.view.samples := samples_clock (Or.inr h₁.1)
  have hview₃' : b₃.view = b.view.sample.shiftIn t.spiMosi := by
    rw [hview₃, hsamples₃, hmosi, hview₂]
    rfl
  have hpending : (b₃.clock t₃).Pending ∧ (b₃.clock t₃).view = b.view.rise t.spiMosi := by
    rw [hview₂] at hstrobe₃
    rw [SpiView.rise, ← hview₃']
    by_cases hlast : b.view.bitCount = 7
    · rw [if_pos hlast]
      have hstrobe : b₃.emu.shift.byteStrobe = true :=
        hstrobe₃.trans (beq_iff_eq.mpr hlast)
      obtain ⟨hpending, hview⟩ := hstill₃.respond hstrobe hlines₃.quiet t₃
      rw [samples_clock (hlines₃.samples h₃)] at hview
      exact ⟨hpending, hview⟩
    · rw [if_neg hlast]
      have hstrobe : b₃.emu.shift.byteStrobe = false :=
        hstrobe₃.trans (beq_eq_false_iff_ne.mpr hlast)
      exact (Calm.pending ⟨hstill₃, hstrobe⟩).clock hlines₃.quiet (hlines₃.samples h₃)
  obtain ⟨hpending', hlines', hview'⟩ := hpending.1.run (hlines₃.clock h₃) hrest
  exact ⟨hpending', hlines', hview'.trans hpending.2⟩

theorem Pending.low (h : b.Pending) (hlines : b.Lines true false) (hfinished : ¬b.Unfinished)
    {low : List SpiTick} (hlevel : Level false false low) :
    let b' := low.foldl SpiBoard.clock b
    b'.Calm ∧ b'.Lines false false ∧ b'.view = b.view.shiftOut := by
  obtain ⟨t₀, t₁, t₂, t₃, rest, rfl, h₀, h₁, h₂, h₃, hrest⟩ := hlevel.cases
  let b₁ := b.clock t₀
  let b₂ := b₁.clock t₁
  let b₃ := b₂.clock t₂
  obtain ⟨hpending₁, hview₁⟩ := h.clock hlines.quiet (Or.inl h₀.1)
  have hcalm₂ : b₂.Calm := h.calm hfinished hlines.quiet t₀ t₁ (hlines.quiet_clock t₀)
  have hview₂ : b₂.view = b.view := (hpending₁.clock (hlines.quiet_clock _) (Or.inl h₁.1)).2.trans hview₁
  have hposedge : b₂.emu.spiClkPosedge = false := by
    change (t₀.spiClk && !b.emu.spiDffClk.intermediate) = false
    rw [h₀.1]
    rfl
  have hnegedge : b₂.emu.spiClkNegedge = true := by
    change (!t₀.spiClk && b.emu.spiDffClk.intermediate) = true
    rw [h₀.1, hlines.spiDffClk]
    rfl
  obtain ⟨hcalm₃, hview₃⟩ := hcalm₂.negedge h₀.2 hposedge hnegedge t₂
  have hsamples₃ : b₃.samples = b₂.view.samples := samples_clock (Or.inl h₂.1)
  have hview₃' : b₃.view = b.view.shiftOut := by
    rw [hview₃, hsamples₃, hview₂]
    rfl
  have hlines₃ : b₃.Lines false false := lines_clock h₀ h₁ h₂ b
  obtain ⟨hcalm', hlines', hview'⟩ := hcalm₃.run hlines₃ (List.forall_mem_cons.mpr ⟨h₃, hrest⟩)
  exact ⟨hcalm', hlines', hview'.trans hview₃'⟩

theorem Calm.idle (h : b.Calm) (hlines : b.Lines false false) {idle : List SpiTick}
    (hlevel : Level false true idle) :
    let b' := idle.foldl SpiBoard.clock b
    b'.Calm ∧ b'.Lines false true ∧ b'.view = b.view.deselect := by
  obtain ⟨t₀, t₁, t₂, t₃, rest, rfl, h₀, h₁, h₂, h₃, hrest⟩ := hlevel.cases
  let b₁ := b.clock t₀
  let b₂ := b₁.clock t₁
  let b₃ := b₂.clock t₂
  have hcalm₁ : b₁.Calm := h.quiet hlines.quiet t₀
  have hview₁ : b₁.view = b.view := (h.pending.clock hlines.quiet (Or.inl h₀.1)).2
  have hcalm₂ : b₂.Calm := hcalm₁.quiet (hlines.quiet_clock _) t₁
  have hview₂ : b₂.view = b.view := (hcalm₁.pending.clock (hlines.quiet_clock _) (Or.inl h₁.1)).2.trans hview₁
  obtain ⟨hcalm₃, hview₃⟩ := hcalm₂.deselect h₀.2 h₂.1
  rw [hview₂] at hview₃
  have hlines₃ : b₃.Lines false true := lines_clock h₀ h₁ h₂ b
  obtain ⟨hcalm', hlines', hview'⟩ :=
    hcalm₃.run_deselected hlines₃ (List.forall_mem_cons.mpr ⟨h₃, hrest⟩) (by rw [hview₃]; rfl)
  exact ⟨hcalm', hlines', hview'.trans hview₃⟩

theorem Calm.select (h : b.Calm) (hlines : b.Lines false true) (hview : b.view.deselect = b.view)
    {selected : List SpiTick} (hlevel : Level false false selected) :
    let b' := selected.foldl SpiBoard.clock b
    b'.Calm ∧ b'.Lines false false ∧ b'.view = b.view := by
  obtain ⟨t₀, t₁, t₂, t₃, rest, rfl, h₀, h₁, h₂, h₃, hrest⟩ := hlevel.cases
  let b₁ := b.clock t₀
  let b₂ := b₁.clock t₁
  let b₃ := b₂.clock t₂
  obtain ⟨hcalm₁, hview₁⟩ := h.deselect (by rw [hlines.spiDffCs]) h₀.1
  rw [hview] at hview₁
  have hcs₁ : b₁.emu.spiDffCs.dOut = true := congrArg DFlipflopPair.intermediate hlines.spiDffCs
  obtain ⟨hcalm₂, hview₂⟩ := hcalm₁.deselect hcs₁ h₁.1
  rw [hview₁, hview] at hview₂
  have hquiet₂ : b₂.Quiet := by
    constructor
    · exact h₀.2
    · change t₀.spiClk = b.emu.spiDffClk.intermediate
      rw [h₀.1, hlines.spiDffClk]
  have hcalm₃ : b₃.Calm := hcalm₂.quiet hquiet₂ t₂
  have hview₃ : b₃.view = b.view := (hcalm₂.pending.clock hquiet₂ (Or.inl h₂.1)).2.trans hview₂
  have hlines₃ : b₃.Lines false false := lines_clock h₀ h₁ h₂ b
  obtain ⟨hcalm', hlines', hview'⟩ := hcalm₃.run hlines₃ (List.forall_mem_cons.mpr ⟨h₃, hrest⟩)
  exact ⟨hcalm', hlines', hview'.trans hview₃⟩

theorem Calm.bits {bits : List Bool} (hbits : Bits bits ticks) (h : b.Calm)
    (hlines : b.Lines false false) (htime : Runs.Meets clock InTime b ticks) :
    let b' := ticks.foldl SpiBoard.clock b
    b'.Calm ∧ b'.Lines false false ∧ b'.view = bits.foldl SpiView.bit b.view := by
  induction hbits generalizing b with
  | nil => exact ⟨h, hlines, rfl⟩
  | @cons mosi bits t high low ticks hhigh hmosi hlow hbits ih =>
    rw [Runs.meets_append, Runs.meets_append] at htime
    obtain ⟨hpending, hlines₁, hview₁⟩ := h.high hlines hhigh
    have hfinished : ¬((t :: high).foldl SpiBoard.clock b).Unfinished := by
      obtain ⟨t', _, _, _, _, rfl, ht', _⟩ := hlow.cases
      refine htime.1.2.1 ?_
      rw [ht'.1, hlines₁.spiClk]
      exact Bool.false_ne_true
    obtain ⟨hcalm, hlines₂, hview₂⟩ := hpending.low hlines₁ hfinished hlow
    rw [List.foldl_append] at htime
    obtain ⟨hcalm', hlines', hview'⟩ := ih hcalm hlines₂ htime.2
    rw [List.foldl_append, List.foldl_append]
    refine ⟨hcalm', hlines', ?_⟩
    rw [hview', hview₂, hview₁, hmosi]
    rfl

theorem Calm.transactions {transactions : List (List Byte)} (hbus : Transactions transactions ticks)
    (h : b.Calm) (hlines : b.Lines false false) (htime : Runs.Meets clock InTime b ticks) :
    let b' := ticks.foldl SpiBoard.clock b
    let r := Eeprom.run transactions b.view.core.toEeprom
    b'.view.samples = b.view.samples ++ r.1.flatMap highFirst ∧
      b'.view.core.accesses = b.view.core.accesses ++ transactions.flatMap Eeprom.accesses ∧
        b'.view.core.toEeprom = r.2 ∧ b'.Calm := by
  induction hbus generalizing b with
  | nil hidle =>
    obtain ⟨hcalm, -, hview⟩ := h.idle hlines hidle
    dsimp only at hcalm hview ⊢
    rw [hview]
    exact ⟨(List.append_nil _).symm, (List.append_nil _).symm, rfl, hcalm⟩
  | @cons bytes transactions idle selected ticks later hidle hselected hbits _ ih =>
    rw [Runs.meets_append, Runs.meets_append, Runs.meets_append] at htime
    obtain ⟨⟨⟨-, -⟩, htime₁⟩, htime₂⟩ := htime
    obtain ⟨hcalm₁, hlines₁, hview₁⟩ := h.idle hlines hidle
    obtain ⟨hcalm₂, hlines₂, hview₂⟩ := hcalm₁.select hlines₁ (by rw [hview₁]; rfl) hselected
    rw [List.foldl_append] at htime₁
    obtain ⟨hcalm₃, hlines₃, hview₃⟩ := Calm.bits hbits hcalm₂ hlines₂ htime₁
    obtain ⟨hcore, hsamples⟩ := (SpiView.sending_deselect b.view).bytes bytes
    rw [hview₂, hview₁] at hview₃
    rw [← hview₃] at hcore hsamples
    obtain ⟨hsent, heeprom, haccesses⟩ :=
      @SpiCore.transaction b.view.deselect.core rfl bytes
    rw [List.foldl_append, List.foldl_append] at htime₂
    obtain ⟨hsamples', haccesses', heeprom', hcalm'⟩ := ih hcalm₃ hlines₃ htime₂
    dsimp only at hcore hsamples hsamples' haccesses' heeprom' hcalm' ⊢
    have hstart : b.view.deselect.core.toEeprom = b.view.core.toEeprom := rfl
    rw [hstart] at hsent heeprom
    rw [List.foldl_append, List.foldl_append, List.foldl_append, Eeprom.run, List.flatMap_append,
      List.flatMap_cons]
    rw [← heeprom, ← hcore]
    refine ⟨?_, ?_, heeprom', hcalm'⟩
    · rw [hsamples', hsamples, hsent, List.append_assoc]
      rfl
    · rw [haccesses', hcore, haccesses, List.append_assoc]
      rfl

theorem calm_reset (content : Content) : (reset content).Calm :=
  ⟨⟨rfl, rfl, rfl, fun _ => ⟨rfl, rfl⟩, fun _ => rfl⟩, rfl⟩

theorem lines_reset (content : Content) : (reset content).Lines false false :=
  ⟨rfl, rfl, rfl, rfl⟩

/-- For every sequence of transactions, in time for the memory, MISO carries what the memory
returns, and the accesses and their effect are those of the transactions. -/
theorem refines_eeprom (content : Content) {transactions : List (List Byte)}
    {ticks : List SpiTick} (hbus : Transactions transactions ticks)
    (htime : Runs.Meets clock InTime (reset content) ticks) :
    let b := ticks.foldl SpiBoard.clock (reset content)
    let r := Eeprom.run transactions (.reset content)
    b.samples = r.1.flatMap highFirst ∧ b.accesses = transactions.flatMap Eeprom.accesses ∧
      b.content = r.2.content := by
  obtain ⟨hsamples, haccesses, heeprom, hcalm⟩ :=
    Calm.transactions hbus (calm_reset content) (lines_reset content) htime
  refine ⟨hsamples, ?_, ?_⟩
  · have hbegun := begun_of_idle hcalm.memBeginWr hcalm.memBeginRd
    rw [view, hbegun, List.append_nil] at haccesses
    exact haccesses
  · have hcontent := congrArg Eeprom.content heeprom
    rw [view, SpiCore.toEeprom, written_of_idle hcalm.memBeginWr] at hcontent
    exact hcontent

def bus : List (List Byte) → List SpiTick
  | [] => hold false false true
  | bytes :: transactions =>
    hold false false true ++ hold false false false ++
      (bytes.flatMap highFirst).flatMap
        (fun mosi => hold true mosi false ++ hold false mosi false) ++ bus transactions
where
  hold (clk mosi cs : Bool) : List SpiTick := List.replicate 6 ⟨clk, mosi, cs, true, 0, 0⟩

theorem level_hold (clk mosi cs : Bool) : Level clk cs (bus.hold clk mosi cs) := by
  constructor
  · rw [bus.hold, List.length_replicate]
    decide
  · intro t ht
    rw [List.eq_of_mem_replicate ht]
    exact ⟨rfl, rfl⟩

theorem transactions_bus (transactions : List (List Byte)) :
    Transactions transactions (bus transactions) := by
  have hbits : ∀ bits : List Bool, Bits bits (bits.flatMap fun mosi =>
      bus.hold true mosi false ++ bus.hold false mosi false) := by
    intro bits
    induction bits with
    | nil => exact .nil
    | cons mosi bits ih =>
      exact .cons (level_hold true mosi false) rfl (level_hold false mosi false) ih
  induction transactions with
  | nil => exact .nil (level_hold false false true)
  | cons bytes transactions ih =>
    exact .cons (level_hold false false true) (level_hold false false false) (hbits _) ih

theorem refines_eeprom_wrap :
    let transactions : List (List Byte) :=
      [[0xaf, 0xff, 0xff, 0x11, 0x22], [0x03, 0x00, 0x00, 0x00], [0x06], [0x05, 0x00]]
    let b := (bus transactions).foldl SpiBoard.clock (reset fun _ => 0x5a)
    b.samples = ([0xff, 0xff, 0xff, 0xff, 0xff, 0xff, 0xff, 0xff, 0x22, 0xff, 0xff, 0x02] :
      List Byte).flatMap highFirst ∧
      b.accesses = [.write 0xfffff 0x11, .write 0x00000 0x22, .read 0x00000, .read 0x00001] := by
  intro transactions b
  obtain ⟨hsamples, haccesses, -⟩ :=
    refines_eeprom (fun _ => 0x5a) (transactions_bus transactions) (by decide +kernel)
  constructor
  · exact hsamples.trans (by decide +kernel)
  · exact haccesses.trans (by decide +kernel)

end SpiBoard

end NaviMisc.SpiMemEmulator
