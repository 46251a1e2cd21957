import NaviMisc.RasterWand.Drivers
import NaviMisc.RasterWand.KeepTime

/-!
What the raster wand shows of its memory (firmware/display.asm, firmware/commands.asm), and what
rwd makes it show.
-/

namespace NaviMisc.RasterWand

open Lib.Pic Var

def FLAG_FLIP_REQUEST : ℕ := 1
def FLAG_DISPLAY_FWD : ℕ := 2
def FLAG_DISPLAY_REV : ℕ := 3
def FLAG_FWD_TRIGGERED : ℕ := 4
def FLAG_REV_TRIGGERED : ℕ := 5
def FLAG_IN_GAP : ℕ := 6

def front_buffer : Byte := 0xA0
def back_buffer : Byte := 0x20

namespace LedScan

variable (s : Firmware)

def start_scan_common : Firmware := s
  |>.movf display_column_width
  |>.addwf_f remaining_col_width
  |>.btfsc_c (·.incf_f (remaining_col_width, 1))
  |>.movf (display_column_width, 1)
  |>.addwf_f (remaining_col_width, 1)
  |>.bcf display_flags FLAG_IN_GAP

def usedUp (phase : Var) : Firmware := s
  |>.movf (wand_phase, 1)
  |>.subwf (phase, 1)
  |>.movwf (remaining_col_width, 1)
  |>.movf wand_phase
  |>.subwf phase
  |>.movwf remaining_col_width
  |>.btfss_c (·.decf_f (remaining_col_width, 1))

def forward_scan : Firmware :=
  if s.bit display_flags FLAG_FWD_TRIGGERED then s
  else jl_16 wand_phase display_fwd_phase id (fun s =>
    start_scan_common (usedUp s display_fwd_phase)
    |>.bsf display_flags FLAG_DISPLAY_FWD
    |>.bcf display_flags FLAG_DISPLAY_REV
    |>.bsf display_flags FLAG_FWD_TRIGGERED
    |>.clrf current_column) s

def reverse_scan : Firmware :=
  if s.bit display_flags FLAG_REV_TRIGGERED then s
  else jl_16 wand_phase display_rev_phase id (fun s =>
    start_scan_common (usedUp s display_rev_phase)
    |>.bsf display_flags FLAG_DISPLAY_REV
    |>.bcf display_flags FLAG_DISPLAY_FWD
    |>.bsf display_flags FLAG_REV_TRIGGERED
    |>.decf num_active_columns
    |>.movwf current_column) s

def boundsCheck : Firmware := s
  |>.movf num_active_columns
  |>.subwf current_column

def flipColumn : Firmware := s
  |>.bsfIrp
  |>.movlw back_buffer
  |>.addwf current_column
  |>.movwfFsr
  |>.movfIndf
  |>.movwf temp
  |>.bcfIrp
  |>.movlw front_buffer
  |>.addwf current_column
  |>.movwfFsr
  |>.movf temp
  |>.movwfIndf
  |>.incf_f current_column
  |>.movf current_column
  |>.sublw NUM_COLUMNS

/-- The column comes round to NUM_COLUMNS before the fuel is used up. -/
def flip_blit_loop : ℕ → Firmware → Firmware
  | 0, s => s
  | n + 1, s =>
    let s := flipColumn s
    if s.z then s else flip_blit_loop n s

def led_scan_disabled : Firmware :=
  let s := s
    |>.movlw 0xFF
    |>.movwf LED_PORT
    |>.bcf display_flags FLAG_DISPLAY_FWD
    |>.bcf display_flags FLAG_DISPLAY_REV
  if !s.bit display_flags FLAG_FLIP_REQUEST then s
  else flip_blit_loop 256 (s
    |>.bcf display_flags FLAG_FLIP_REQUEST
    |>.incf_f flip_counter
    |>.clrf current_column)

def in_gap : Firmware := s
  |>.bcf display_flags FLAG_IN_GAP
  |>.movf display_column_width
  |>.addwf_f remaining_col_width
  |>.btfsc_c (·.incf_f (remaining_col_width, 1))
  |>.movf (display_column_width, 1)
  |>.addwf_f (remaining_col_width, 1)

def not_in_gap : Firmware := s
  |>.bsf display_flags FLAG_IN_GAP
  |>.btfsc display_flags FLAG_DISPLAY_FWD (·.incf_f current_column)
  |>.btfsc display_flags FLAG_DISPLAY_REV (·.decf_f current_column)
  |>.movf display_gap_width
  |>.addwf_f remaining_col_width
  |>.btfsc_c (·.incf_f (remaining_col_width, 1))
  |>.movf (display_gap_width, 1)
  |>.addwf_f (remaining_col_width, 1)

/-- `temp` counts the columns and gaps that may still be skipped. -/
def next_column_loop : ℕ → Firmware → Firmware
  | 0, s => s
  | n + 1, s =>
    if !s.bit (remaining_col_width, 1) 7 then s
    else
      let s := if s.bit display_flags FLAG_IN_GAP then in_gap s else not_in_gap s
      let s := s.decfsz_f temp
      if s.file temp = 0 then s else next_column_loop n s

def showColumn : Firmware := s
  |>.bcfIrp
  |>.movlw front_buffer
  |>.addwf current_column
  |>.movwfFsr
  |>.movfIndf
  -- The LEDs are active-low.
  |>.xorlw 0xFF
  |>.btfss mode_flags RWAND_MODE_ENABLE_DISPLAY_BIT (·.movlw 0xFF)
  |>.btfsc display_flags FLAG_IN_GAP (·.movlw 0xFF)
  |>.movwf LED_PORT

/-- Two columns and gaps are skipped for each column of the display at most. -/
def startSkipping : Firmware := s
  |>.movf delta_t
  |>.subwf_f remaining_col_width
  |>.btfss_c (·.decf_f (remaining_col_width, 1))
  |>.movf (delta_t, 1)
  |>.subwf_f (remaining_col_width, 1)
  |>.movlw (NUM_COLUMNS * 2)
  |>.movwf temp

def scan_in_progress : Firmware := next_column_loop 160 (startSkipping (showColumn s))

end LedScan

open LedScan in
def display_led_scan (s : Firmware) : Firmware :=
  let s := boundsCheck (reverse_scan (forward_scan s))
  if s.c then led_scan_disabled s
  else if s.bit display_flags FLAG_DISPLAY_FWD then scan_in_progress s
  else if s.bit display_flags FLAG_DISPLAY_REV then scan_in_progress s
  else led_scan_disabled s

def display_seq_write_byte (s : Firmware) : Firmware :=
  let s := s
    |>.movwf temp
    |>.bsfIrp
    |>.movlw NUM_COLUMNS
    |>.subwf write_pointer
  if s.c then s
  else s
    |>.movf write_pointer
    |>.addlw back_buffer
    |>.movwfFsr
    |>.movf temp
    |>.movwfIndf
    |>.incf_f write_pointer

def display_request_flip (s : Firmware) : Firmware := s
  |>.bsf display_flags FLAG_FLIP_REQUEST
  |>.clrf write_pointer

section Requests

variable (r : Request) (s : Firmware)

def low (x : BitVec 16) : Byte := x.extractLsb' 0 8

def high (x : BitVec 16) : Byte := x.extractLsb' 8 8

def request_setPeriod : Firmware := s
  |>.movlw (low r.wValue) |>.movwf wand_period
  |>.movlw (high r.wValue) |>.movwf (wand_period, 1)

def request_setCoilPhase : Firmware := s
  |>.movlw (low r.wValue) |>.movwf coil_window_min
  |>.movlw (high r.wValue) |>.movwf (coil_window_min, 1)
  |>.movlw (low r.wIndex) |>.movwf coil_window_max
  |>.movlw (high r.wIndex) |>.movwf (coil_window_max, 1)

def request_setModes : Firmware := s
  |>.movlw (low r.wValue) |>.movwf mode_flags

def request_setDisplayPhase : Firmware := s
  |>.movlw (low r.wValue) |>.movwf display_fwd_phase
  |>.movlw (high r.wValue) |>.movwf (display_fwd_phase, 1)
  |>.movlw (low r.wIndex) |>.movwf display_rev_phase
  |>.movlw (high r.wIndex) |>.movwf (display_rev_phase, 1)

/-- Nothing is clamped here. -/
def request_setNumColumns : Firmware := s
  |>.movlw (low r.wValue) |>.movwf num_active_columns

def request_setColumnWidth : Firmware := s
  |>.movlw (low r.wValue) |>.movwf display_column_width
  |>.movlw (high r.wValue) |>.movwf (display_column_width, 1)
  |>.movlw (low r.wIndex) |>.movwf display_gap_width
  |>.movlw (high r.wIndex) |>.movwf (display_gap_width, 1)

def request_seqWrite4 : Firmware :=
  let s := display_seq_write_byte (s.movlw (low r.wValue))
  let s := display_seq_write_byte (s.movlw (high r.wValue))
  let s := display_seq_write_byte (s.movlw (low r.wIndex))
  display_seq_write_byte (s.movlw (high r.wIndex))

def carryOut : Firmware :=
  match r.bRequest with
  | .RWAND_CTRL_SET_COIL_PHASE => request_setCoilPhase r s
  | .RWAND_CTRL_SET_MODES => request_setModes r s
  | .RWAND_CTRL_SET_DISPLAY_PHASE => request_setDisplayPhase r s
  | .RWAND_CTRL_SET_COLUMN_WIDTH => request_setColumnWidth r s
  | .RWAND_CTRL_FLIP => display_request_flip s
  | .RWAND_CTRL_SET_PERIOD => request_setPeriod r s
  | .RWAND_CTRL_SET_NUM_COLUMNS => request_setNumColumns r s
  | .RWAND_CTRL_SEQ_WRITE4 => request_seqWrite4 r s

end Requests

/-- Whatever the rest of the firmware, the timer and the sensors leave behind: all but the variables
that only the display and its requests name. -/
def elsewhere (t s : Firmware) : Firmware :=
  { t with
    file := fun a => if a.1 = num_active_columns ∨ a.1 = write_pointer ∨ a.1 = current_column then
      s.file a else t.file a
    memory := s.memory
    reads := s.reads }

/-- The rest of `display_poll` does not touch the buffers, and comes under `elsewhere`. -/
def display_poll (s : Firmware) : Firmware := display_led_scan (display_keep_time s)

structure Wand where
  device : Rwd.Device
  carried : ℕ
  firmware : Firmware

inductive Event
  | command (buffer : Rwd.Buffer)
  | status (status : Status) (clock : Fin 3 → Rwd.Timeval)
  | carry
  | poll
  | elsewhere (code : Firmware → Firmware)

namespace Wand

variable (w : Wand)

def step : Event → Option Wand
  | .command buffer => (Rwd.handle_command w.device buffer).map fun device => { w with device }
  | .status status clock =>
    some { w with device := Rwd.status_urb_complete w.device status clock }
  | .carry =>
    match w.device.sent[w.carried]? with
    | some r => some { w with firmware := carryOut r w.firmware, carried := w.carried + 1 }
    | none => some w
  | .poll => some { w with firmware := display_poll w.firmware }
  | .elsewhere code => some { w with firmware := elsewhere (code w.firmware) w.firmware }

def run (events : List Event) : Option Wand := events.foldlM step w

def start (model : BitVec 8) (s : Firmware) : Wand where
  device := Rwd.rwand_init model
  carried := 0
  firmware := display_init s

end Wand

structure Apart (s t : Firmware) : Prop where
  columns : t.file num_active_columns = s.file num_active_columns
  memory : ∀ a, t.memory a = s.memory a
  reads : t.reads = s.reads

namespace Apart

variable {s t u : Firmware}

theorem refl (s : Firmware) : Apart s s := ⟨rfl, fun _ => rfl, rfl⟩

theorem trans (h : Apart s t) (h' : Apart t u) : Apart s u :=
  ⟨h'.columns.trans h.columns, fun a => (h'.memory a).trans (h.memory a), h'.reads.trans h.reads⟩

theorem ite {c : Prop} [Decidable c] (h : Apart s t) (h' : Apart s u) :
    Apart s (if c then t else u) := by
  split_ifs
  · exact h
  · exact h'

theorem jl_16 {reg1 reg2 : Var × ℕ} {jump no_jump : Firmware → Firmware}
    (hjump : ∀ t, Apart t (jump t)) (hno : ∀ t, Apart t (no_jump t)) (s : Firmware) :
    Apart s (RasterWand.jl_16 reg1 reg2 jump no_jump s) := by
  unfold RasterWand.jl_16
  simp only
  split_ifs
  · exact ⟨(hjump _).columns, (hjump _).memory, (hjump _).reads⟩
  · exact ⟨(hno _).columns, (hno _).memory, (hno _).reads⟩
  · exact ⟨(hjump _).columns, (hjump _).memory, (hjump _).reads⟩
  · exact ⟨(hno _).columns, (hno _).memory, (hno _).reads⟩

theorem keep_time (s : Firmware) : Apart s (display_keep_time s) := by
  have hprescale : ∀ s, Apart s (KeepTime.prescale s) := by
    intro s
    unfold KeepTime.prescale
    simp only
    split_ifs <;> exact ⟨by simp, fun _ => rfl, rfl⟩
  have hstall : ∀ s, Apart s (KeepTime.detectStall s) := by
    intro s
    apply (refl s).ite (jl_16 refl ?_ s)
    exact fun t => ⟨by simp, fun _ => rfl, rfl⟩
  have hrollover : ∀ s, Apart s (KeepTime.rollover s) := jl_16 refl fun t => by
    constructor <;> simp
  have hmeasure : Apart s (KeepTime.measure (KeepTime.try_tmr1_again s)) := by
    constructor <;> simp [KeepTime.measure, KeepTime.try_tmr1_again]
  have hpredict : ∀ s, Apart s (KeepTime.predict s) := by
    intro s
    constructor <;> simp [KeepTime.predict]
  unfold display_keep_time
  exact (((hmeasure.trans (hprescale _)).trans (hpredict _)).trans (hstall _)).trans (hrollover _)

theorem start_scan_common (s : Firmware) : Apart s (LedScan.start_scan_common s) := by
  constructor <;> simp [LedScan.start_scan_common]

theorem usedUp (s : Firmware) (phase : Var) : Apart s (LedScan.usedUp s phase) := by
  constructor <;> simp [LedScan.usedUp]

theorem triggered (s : Firmware) (on off flag : ℕ) :
    Apart s (((s.bsf display_flags on).bcf display_flags off).bsf display_flags flag) := by
  constructor <;> simp

theorem forward_scan (s : Firmware) : Apart s (LedScan.forward_scan s) := by
  apply (refl s).ite (jl_16 refl (fun t => ?_) s)
  have hscan := (usedUp t display_fwd_phase).trans (start_scan_common _)
  apply (hscan.trans (triggered _ FLAG_DISPLAY_FWD FLAG_DISPLAY_REV FLAG_FWD_TRIGGERED)).trans
  constructor <;> simp

theorem reverse_scan (s : Firmware) : Apart s (LedScan.reverse_scan s) := by
  apply (refl s).ite (jl_16 refl (fun t => ?_) s)
  have hscan := (usedUp t display_rev_phase).trans (start_scan_common _)
  apply (hscan.trans (triggered _ FLAG_DISPLAY_REV FLAG_DISPLAY_FWD FLAG_REV_TRIGGERED)).trans
  constructor <;> simp

theorem next_column_loop (n : ℕ) (s : Firmware) : Apart s (LedScan.next_column_loop n s) := by
  induction n generalizing s with
  | zero => exact refl s
  | succ n ih =>
    have hgap : ∀ s, Apart s (LedScan.in_gap s) := by
      intro s
      constructor <;> simp [LedScan.in_gap]
    have hcolumn : ∀ s, Apart s (LedScan.not_in_gap s) := by
      intro s
      constructor <;> simp [LedScan.not_in_gap]
    have hdec : ∀ s : Firmware, Apart s (s.decfsz_f temp) := fun s => ⟨by simp, fun _ => rfl, rfl⟩
    unfold LedScan.next_column_loop
    simp only
    split_ifs
    · exact refl s
    · exact (hgap s).trans (hdec _)
    · exact ((hgap s).trans (hdec _)).trans (ih _)
    · exact (hcolumn s).trans (hdec _)
    · exact ((hcolumn s).trans (hdec _)).trans (ih _)

end Apart

section Columns

open LedScan

def frontAddress (column : Byte) : BitVec 9 := BitVec.ofBool false ++ (column + front_buffer)

def backAddress (column : Byte) : BitVec 9 := BitVec.ofBool true ++ (column + back_buffer)

def InFront (a : BitVec 9) : Prop := 0xA0 ≤ a.toNat ∧ a.toNat < 0xF0

def InBack (a : BitVec 9) : Prop := 0x120 ≤ a.toNat ∧ a.toNat < 0x170

theorem toNat_frontAddress : ∀ column : Byte, column.toNat < 80 →
    (frontAddress column).toNat = 0xA0 + column.toNat := by
  decide

theorem toNat_backAddress : ∀ column : Byte, column.toNat < 80 →
    (backAddress column).toNat = 0x120 + column.toNat := by
  decide

def flippedTo (n : ℕ) (memory : BitVec 9 → Byte) : BitVec 9 → Byte :=
  fun a => if 0xA0 ≤ a.toNat ∧ a.toNat < 0xA0 + n then memory (a + 0x80) else memory a

def flipReads (n : ℕ) : List (BitVec 9) :=
  (List.range' n (80 - n)).map fun i => backAddress (BitVec.ofNat 8 i)

variable {n : ℕ} {s : Firmware} {memory : BitVec 9 → Byte}

theorem flippedTo_succ (hn : n < 80) :
    Function.update (flippedTo n memory) (frontAddress (BitVec.ofNat 8 n))
      (flippedTo n memory (backAddress (BitVec.ofNat 8 n))) = flippedTo (n + 1) memory := by
  have hcolumn : (BitVec.ofNat 8 n).toNat = n := by
    rw [BitVec.toNat_ofNat]
    omega
  have hfront := toNat_frontAddress (BitVec.ofNat 8 n) (by omega)
  have hback := toNat_backAddress (BitVec.ofNat 8 n) (by omega)
  rw [hcolumn] at hfront hback
  have hnext : frontAddress (BitVec.ofNat 8 n) + 0x80 = backAddress (BitVec.ofNat 8 n) := by
    apply BitVec.eq_of_toNat_eq
    rw [BitVec.toNat_add, hfront, hback]
    change (160 + n + 128) % 512 = _
    omega
  funext a
  rw [Function.update_apply]
  split_ifs with ha
  · subst ha
    unfold flippedTo
    rw [if_neg (by omega), if_pos (by omega), hnext]
  · have hne : a.toNat ≠ 0xA0 + n := fun h => ha (BitVec.eq_of_toNat_eq (h.trans hfront.symm))
    unfold flippedTo
    congr 1
    simp only [eq_iff_iff]
    omega

theorem flipColumn_memory : (flipColumn s).memory =
    Function.update s.memory (frontAddress (s.file current_column))
      (s.memory (backAddress (s.file current_column))) := by
  funext a
  simp [flipColumn, Cpu.indirect, frontAddress, backAddress]
  rfl

theorem flipColumn_reads :
    (flipColumn s).reads = s.reads ++ [backAddress (s.file current_column)] := by
  simp [flipColumn, Cpu.indirect, backAddress]

theorem flipColumn_column : (flipColumn s).file current_column = s.file current_column + 1 := by
  simp [flipColumn]

theorem flipColumn_z :
    (flipColumn s).z = decide (NUM_COLUMNS - (s.file current_column + 1) = 0) := by
  simp [flipColumn]

theorem flipColumn_columns :
    (flipColumn s).file num_active_columns = s.file num_active_columns := by
  simp [flipColumn]

theorem flip_blit_loop_spec (fuel : ℕ) (hn : n < 80) (hfuel : 80 ≤ n + fuel)
    (hcolumn : s.file current_column = BitVec.ofNat 8 n) (hmemory : s.memory = flippedTo n memory) :
    (flip_blit_loop fuel s).memory = flippedTo 80 memory ∧
      (flip_blit_loop fuel s).reads = s.reads ++ flipReads n ∧
      (flip_blit_loop fuel s).file num_active_columns = s.file num_active_columns := by
  induction fuel generalizing n s with
  | zero => omega
  | succ fuel ih =>
    have hnext : s.file current_column + 1 = BitVec.ofNat 8 (n + 1) := by
      rw [hcolumn, BitVec.ofNat_add]
      rfl
    have hcopied : (flipColumn s).memory = flippedTo (n + 1) memory := by
      rw [flipColumn_memory, hcolumn, hmemory, flippedTo_succ hn]
    have hlist : flipReads n = backAddress (BitVec.ofNat 8 n) :: flipReads (n + 1) := by
      rw [flipReads, show 80 - n = 80 - (n + 1) + 1 by omega, List.range'_succ, List.map_cons]
      rfl
    have hread : (flipColumn s).reads = s.reads ++ [backAddress (BitVec.ofNat 8 n)] := by
      rw [flipColumn_reads, hcolumn]
    have hz : (flipColumn s).z ↔ n + 1 = 80 := by
      rw [flipColumn_z, hnext, decide_eq_true_eq, ← BitVec.toNat_inj, BitVec.toNat_sub,
        BitVec.toNat_ofNat]
      change (256 - (n + 1) % 256 + 80) % 256 = 0 ↔ _
      omega
    rw [flip_blit_loop]
    split_ifs with hdone
    · obtain rfl : n = 79 := by simpa using hz.mp hdone
      refine ⟨hcopied, ?_, flipColumn_columns⟩
      rw [hread, hlist]
      rfl
    · have hlast := hz.not.mp hdone
      obtain ⟨hm, hr, hc⟩ := ih (by omega) (by omega) (flipColumn_column.trans hnext) hcopied
      refine ⟨hm, ?_, hc.trans flipColumn_columns⟩
      rw [hr, hread, hlist, List.append_assoc]
      rfl

inductive Shows (s t : Firmware) : Prop
  | nothing (memory : t.memory = s.memory) (reads : t.reads = s.reads)
  | leds (column : Byte) (below : column.toNat < NUM_COLUMNS.toNat) (memory : t.memory = s.memory)
      (reads : t.reads = s.reads ++ [frontAddress column])
  | flip (memory : t.memory = flippedTo 80 s.memory) (reads : t.reads = s.reads ++ flipReads 0)

theorem Shows.trans_apart {t u : Firmware} (h : Shows s t) (h' : Apart t u) : Shows s u := by
  have hmemory : u.memory = t.memory := funext h'.memory
  cases h with
  | nothing memory reads => exact .nothing (hmemory.trans memory) (h'.reads.trans reads)
  | leds column below memory reads =>
    exact .leds column below (hmemory.trans memory) (h'.reads.trans reads)
  | flip memory reads => exact .flip (hmemory.trans memory) (h'.reads.trans reads)

theorem Apart.trans_shows {t u : Firmware} (h : Apart s t) (h' : Shows t u) : Shows s u := by
  have hmemory : t.memory = s.memory := funext h.memory
  cases h' with
  | nothing memory reads => exact .nothing (memory.trans hmemory) (h.reads ▸ reads)
  | leds column below memory reads =>
    exact .leds column below (memory.trans hmemory) (h.reads ▸ reads)
  | flip memory reads => exact .flip (hmemory ▸ memory) (h.reads ▸ reads)

theorem disabled_shows (s : Firmware) : Shows s (led_scan_disabled s) ∧
    (led_scan_disabled s).file num_active_columns = s.file num_active_columns := by
  unfold led_scan_disabled
  simp only
  split_ifs
  · exact ⟨.nothing rfl rfl, by simp⟩
  · have hzero : flippedTo 0 s.memory = s.memory := by
      funext a
      exact if_neg (by omega)
    obtain ⟨hm, hr, hc⟩ := flip_blit_loop_spec (n := 0) (s := ((s.movlw 0xFF).movwf LED_PORT
      |>.bcf display_flags FLAG_DISPLAY_FWD |>.bcf display_flags FLAG_DISPLAY_REV
      |>.bcf display_flags FLAG_FLIP_REQUEST |>.incf_f flip_counter |>.clrf current_column))
      256 (by omega) (by omega) (by simp) hzero.symm
    exact ⟨.flip hm hr, hc.trans (by simp)⟩

theorem progress_shows (hcolumn : (s.file current_column).toNat < NUM_COLUMNS.toNat) :
    Shows s (scan_in_progress s) ∧
      (scan_in_progress s).file num_active_columns = s.file num_active_columns := by
  have hshow : Shows s (showColumn s) := by
    apply Shows.leds (s.file current_column) hcolumn
    · funext a
      simp [showColumn]
    · simp [showColumn, Cpu.indirect, frontAddress]
  have hstart : Apart (showColumn s) (startSkipping (showColumn s)) := by
    constructor <;> simp [startSkipping]
  have hrest := hstart.trans (Apart.next_column_loop 160 _)
  refine ⟨hshow.trans_apart hrest, hrest.columns.trans ?_⟩
  simp [showColumn]

theorem display_led_scan_shows (h : (s.file num_active_columns).toNat ≤ NUM_COLUMNS.toNat) :
    Shows s (display_led_scan s) ∧
      (display_led_scan s).file num_active_columns = s.file num_active_columns := by
  have hchecked : Apart s (boundsCheck (reverse_scan (forward_scan s))) :=
    ((Apart.forward_scan s).trans (Apart.reverse_scan _)).trans ⟨by simp [boundsCheck],
      fun _ => rfl, rfl⟩
  have hcarry : (boundsCheck (reverse_scan (forward_scan s))).c =
      decide (((boundsCheck (reverse_scan (forward_scan s))).file num_active_columns).toNat ≤
        ((boundsCheck (reverse_scan (forward_scan s))).file current_column).toNat) := by
    simp [boundsCheck]
  rw [hchecked.columns] at hcarry
  unfold display_led_scan
  generalize boundsCheck (reverse_scan (forward_scan s)) = t at hchecked hcarry
  have hdisabled := disabled_shows t
  have hprogress : t.c = false → Shows t (scan_in_progress t) ∧
      (scan_in_progress t).file num_active_columns = t.file num_active_columns := by
    intro hc
    have hcolumn := of_decide_eq_false (hcarry.symm.trans hc)
    exact progress_shows (by omega)
  have hshows : ∀ u, Shows t u ∧ u.file num_active_columns = t.file num_active_columns →
      Shows s u ∧ u.file num_active_columns = s.file num_active_columns :=
    fun u hu => ⟨hchecked.trans_shows hu.1, hu.2.trans hchecked.columns⟩
  simp only
  split_ifs with hc hfwd hrev
  · exact hshows _ hdisabled
  · exact hshows _ (hprogress (by simpa using hc))
  · exact hshows _ (hprogress (by simpa using hc))
  · exact hshows _ hdisabled

end Columns

theorem seq_write_memory {a : BitVec 9} (s : Firmware) (ha : ¬InBack a) :
    (display_seq_write_byte s).memory a = s.memory a := by
  unfold display_seq_write_byte
  simp only
  split_ifs with hc
  · rfl
  · have hlt : (s.file write_pointer).toNat < 80 := by
      simpa [NUM_COLUMNS] using hc
    have hback := toNat_backAddress _ hlt
    have hne : a ≠ backAddress (s.file write_pointer) := by
      rintro rfl
      exact ha (by unfold InBack; omega)
    rw [Cpu.incf_f_memory, Cpu.movwfIndf_memory, Function.update_of_ne]
    · rfl
    · simpa [Cpu.indirect, backAddress, BitVec.add_comm] using hne

theorem seq_write_apart (s : Firmware) :
    (display_seq_write_byte s).file num_active_columns = s.file num_active_columns ∧
      (display_seq_write_byte s).reads = s.reads := by
  unfold display_seq_write_byte
  simp only
  split_ifs <;> simp

def Rwd.frameOf (buffer : Buffer) : Option Buffer :=
  match strtok_r buffer with
  | none => none
  | some (command, rest) =>
    if command = chars "frame" then (strtok_r rest).map fun token => hex_to_bin_inplace token.1
    else none

def Event.Narrow : Event → Prop
  | .command buffer =>
    ∀ frame, Rwd.frameOf buffer = some frame → frame.length % 256 ≤ NUM_COLUMNS.toNat
  | _ => True

structure Wand.OnlyFrameBuffer (w : Wand) : Prop where
  poll : Shows w.firmware (display_poll w.firmware)
  write : ∀ a, ¬InBack a → (display_seq_write_byte w.firmware).memory a = w.firmware.memory a

section Narrow

open Rwd

structure NarrowSent (num_columns : int) (sent : List Request) : Prop where
  next : num_columns.toNat % 256 ≤ 80
  sent : ∀ r ∈ sent, r.bRequest = .RWAND_CTRL_SET_NUM_COLUMNS → r.wValue.toNat % 256 ≤ 80

variable {device : Device} {num_columns : int} {sent requests : List Request}

theorem NarrowSent.append (h : NarrowSent num_columns sent) (hrequests : ∀ r ∈ requests,
    r.bRequest = .RWAND_CTRL_SET_NUM_COLUMNS → r.wValue.toNat % 256 ≤ 80) :
    NarrowSent num_columns (sent ++ requests) := by
  refine ⟨h.next, fun r hr => ?_⟩
  rcases List.mem_append.mp hr with hr | hr
  · exact h.sent r hr
  · exact hrequests r hr

theorem timingRequests_narrow (h : num_columns.toNat % 256 ≤ 80) (timings : Timings) :
    ∀ r ∈ timingRequests timings num_columns, r.bRequest = .RWAND_CTRL_SET_NUM_COLUMNS →
      r.wValue.toNat % 256 ≤ 80 := by
  intro r hr hcontrol
  simp only [timingRequests, List.mem_cons, List.not_mem_nil, or_false] at hr
  rcases hr with rfl | rfl | rfl | rfl
  · cases hcontrol
  · cases hcontrol
  · cases hcontrol
  · rw [request, BitVec.toNat_setWidth]
    omega

theorem seqWrites_narrow (data : List (BitVec 8)) (n : ℕ) : ∀ r ∈ seqWrites data n,
    r.bRequest = .RWAND_CTRL_SET_NUM_COLUMNS → r.wValue.toNat % 256 ≤ 80 := by
  induction n generalizing data with
  | zero => simp [seqWrites]
  | succ n ih =>
    intro r hr hcontrol
    rcases List.mem_cons.mp hr with rfl | hr
    · cases hcontrol
    · exact ih (data.drop 4) r hr hcontrol

theorem write_frame_narrow (h : NarrowSent device.settings.num_columns device.sent)
    (data : List (BitVec 8)) {width : ℕ} (hwidth : width % 256 ≤ 80) :
    NarrowSent (rwand_write_frame device data width).settings.num_columns
      (rwand_write_frame device data width).sent := by
  have hflip : ∀ r ∈ [request .RWAND_CTRL_FLIP 0 0], r.bRequest = .RWAND_CTRL_SET_NUM_COLUMNS →
      r.wValue.toNat % 256 ≤ 80 := by
    intro r hr hcontrol
    obtain rfl := List.mem_singleton.mp hr
    cases hcontrol
  unfold rwand_write_frame
  simp only
  split_ifs
  · have hwide : NarrowSent (BitVec.ofNat 32 width) device.sent := by
      refine ⟨?_, h.sent⟩
      rw [BitVec.toNat_ofNat]
      omega
    exact (hwide.append (seqWrites_narrow data _)).append hflip
  · exact (h.append (seqWrites_narrow data _)).append hflip

theorem handle_command_narrow {buffer : Buffer} {device' : Device}
    (h : NarrowSent device.settings.num_columns device.sent)
    (hnarrow : (Event.command buffer).Narrow)
    (hdevice : handle_command device buffer = some device') :
    NarrowSent device'.settings.num_columns device'.sent := by
  have hsettings : ∀ entry ∈ setting_names_table, ∀ x settings,
      (entry.2 x settings).num_columns = settings.num_columns := by
    simp [setting_names_table]
  have hframe := fun command rest (hc : strtok_r buffer = some (command, rest))
      (hframe : command = chars "frame") token left (ht : strtok_r rest = some (token, left)) =>
    hnarrow (hex_to_bin_inplace token) (by simp [frameOf, hc, hframe, ht])
  unfold handle_command at hdevice
  split at hdevice
  · cases hdevice
    exact h
  · rename_i command rest hcommand
    split_ifs at hdevice with hcase
    · split at hdevice
      · cases hdevice
      · rename_i token left htoken
        cases hdevice
        exact write_frame_narrow h _ (hframe _ _ hcommand hcase _ _ htoken)
    · split at hdevice
      · cases hdevice
        exact h
      · split at hdevice
        · cases hdevice
          exact h
        · split at hdevice
          · rename_i entry hentry
            cases hdevice
            refine ⟨?_, h.sent⟩
            simp only [hsettings entry (List.mem_of_find?_eq_some hentry)]
            exact h.next
          · cases hdevice
            exact h
    · split at hdevice <;> cases hdevice <;> exact ⟨h.next, h.sent⟩
    · cases hdevice
      exact h

theorem set_modes_narrow (h : NarrowSent device.settings.num_columns device.sent)
    (modes : BitVec 8) : NarrowSent (rwand_set_modes device modes).settings.num_columns
      (rwand_set_modes device modes).sent := by
  unfold rwand_set_modes
  split_ifs
  · apply h.append
    intro r hr hcontrol
    obtain rfl := List.mem_singleton.mp hr
    cases hcontrol
  · exact h

theorem update_state_narrow (h : NarrowSent device.settings.num_columns device.sent)
    (status : Status) (now entry : Timeval) :
    NarrowSent (update_state device status now entry).settings.num_columns
      (update_state device status now entry).sent := by
  have hmodes := set_modes_narrow h
  unfold update_state
  split
  · exact hmodes 0
  · have hperiod : ∀ timings period, ∀ r ∈ [request .RWAND_CTRL_SET_PERIOD period 0,
        coilRequest timings], r.bRequest = .RWAND_CTRL_SET_NUM_COLUMNS →
          r.wValue.toNat % 256 ≤ 80 := by
      intro timings period r hr hcontrol
      simp only [List.mem_cons, List.not_mem_nil, or_false] at hr
      rcases hr with rfl | rfl <;> cases hcontrol
    unfold rwand_update_state_starting
    simp only
    split_ifs
    · exact (hmodes _).append (hperiod _ _)
    · exact (hmodes _).append (hperiod _ _)
    · exact hmodes _
    · exact hmodes _
  · unfold rwand_update_state_stabilizing
    simp only
    split_ifs <;> exact hmodes _
  · unfold rwand_update_state_running
    simp only
    split_ifs
    · exact hmodes _
    · exact (hmodes _).append (timingRequests_narrow (hmodes _).next _)
    · exact hmodes _
    · exact (hmodes _).append (timingRequests_narrow (hmodes _).next _)
    · exact hmodes _

theorem complete_narrow (h : NarrowSent device.settings.num_columns device.sent)
    (status : Status) (clock : Fin 3 → Timeval) :
    NarrowSent (status_urb_complete device status clock).settings.num_columns
      (status_urb_complete device status clock).sent := by
  unfold status_urb_complete
  apply update_state_narrow
  unfold update_power update_edge_count
  simp only
  split_ifs <;> exact h

end Narrow

namespace Wand

variable {w w' : Wand}

structure Fits (w : Wand) : Prop where
  sent : NarrowSent w.device.settings.num_columns w.device.sent
  firmware : (w.firmware.file num_active_columns).toNat ≤ 80

theorem carryOut_columns {r : Request} {s : Firmware} (h : (s.file num_active_columns).toNat ≤ 80)
    (hr : r.bRequest = .RWAND_CTRL_SET_NUM_COLUMNS → r.wValue.toNat % 256 ≤ 80) :
    ((carryOut r s).file num_active_columns).toNat ≤ 80 := by
  unfold carryOut
  split
  · simpa [request_setCoilPhase] using h
  · simpa [request_setModes] using h
  · simpa [request_setDisplayPhase] using h
  · simpa [request_setColumnWidth] using h
  · simpa [display_request_flip] using h
  · simpa [request_setPeriod] using h
  · rename_i hcontrol
    have hlow : (low r.wValue).toNat = r.wValue.toNat % 256 := by
      simp [low]
    simpa [request_setNumColumns, hlow] using hr hcontrol
  · simpa [request_seqWrite4, (seq_write_apart _).1] using h

theorem Fits.step (h : w.Fits) {event : Event} (hnarrow : event.Narrow)
    (hstep : w.step event = some w') : w'.Fits := by
  cases event with
  | command buffer =>
    obtain ⟨device, hdevice, rfl⟩ := Option.map_eq_some_iff.mp hstep
    exact ⟨handle_command_narrow h.sent hnarrow hdevice, h.firmware⟩
  | status status clock =>
    cases hstep
    exact ⟨complete_narrow h.sent status clock, h.firmware⟩
  | carry =>
    unfold Wand.step at hstep
    simp only at hstep
    split at hstep
    · rename_i r hr
      cases hstep
      exact ⟨h.sent, carryOut_columns h.firmware (h.sent.sent r (List.mem_of_getElem? hr))⟩
    · cases hstep
      exact h
  | poll =>
    cases hstep
    have hkept := (Apart.keep_time w.firmware).columns
    have hshows := display_led_scan_shows (hkept ▸ h.firmware)
    refine ⟨h.sent, ?_⟩
    rw [display_poll, hshows.2, hkept]
    exact h.firmware
  | elsewhere code =>
    cases hstep
    refine ⟨h.sent, ?_⟩
    simpa [elsewhere] using h.firmware

theorem Fits.start (model : BitVec 8) (s : Firmware) : (Wand.start model s).Fits := by
  constructor
  · have hmodel : ∀ model, (Rwd.rwand_set_model model).settings.num_columns.toNat % 256 ≤ 80 := by
      decide
    have hmodes : ∀ r ∈ [request .RWAND_CTRL_SET_MODES 0 0],
        r.bRequest = .RWAND_CTRL_SET_NUM_COLUMNS → r.wValue.toNat % 256 ≤ 80 := by
      intro r hr hcontrol
      obtain rfl := List.mem_singleton.mp hr
      cases hcontrol
    have hcleared : NarrowSent (Rwd.cleared model).settings.num_columns [] :=
      ⟨hmodel model, by simp⟩
    let device := Rwd.control_write_async (Rwd.cleared model) [request .RWAND_CTRL_SET_MODES 0 0]
    have hdevice : NarrowSent device.settings.num_columns device.sent := hcleared.append hmodes
    exact write_frame_narrow hdevice [0, 0, 0, 0] (by decide : 1 % 256 ≤ 80)
  · simp [Wand.start, display_init, NUM_COLUMNS]

theorem Fits.run {events : List Event} (h : w.Fits) (hnarrow : ∀ e ∈ events, e.Narrow)
    (hrun : w.run events = some w') : w'.Fits := by
  induction events generalizing w with
  | nil =>
    cases hrun
    exact h
  | cons event events ih =>
    obtain ⟨w₁, hstep, hrest⟩ := Option.bind_eq_some_iff.mp hrun
    exact ih (h.step (hnarrow event List.mem_cons_self) hstep)
      (fun e he => hnarrow e (List.mem_cons_of_mem event he)) hrest

theorem Fits.onlyFrameBuffer (h : w.Fits) : w.OnlyFrameBuffer := by
  have hkept := Apart.keep_time w.firmware
  refine ⟨hkept.trans_shows (display_led_scan_shows ?_).1, fun a => seq_write_memory w.firmware⟩
  exact hkept.columns ▸ h.firmware

def blank : Firmware := ⟨0, false, false, false, 0, fun _ => 0, fun _ => 0, []⟩

def timer (count : BitVec 16) (s : Firmware) : Firmware :=
  (((s.movlw (low count)).movwf TMR1L).movlw (high count)).movwf TMR1H

def packet (period : BitVec 16) (edges : BitVec 8) : Event :=
  .status ⟨period, 0, edges, 0, 0, 0⟩ fun _ => ⟨0, 0⟩

def wideRun : List Event :=
  [.command (Rwd.chars "frame " ++ List.replicate 162 0x66), packet 0 0, packet 45000 21,
    packet 45000 30, packet 45000 30] ++ List.replicate 34 .carry ++ [.elsewhere (timer 65000)]

end Wand

end NaviMisc.RasterWand
