import Mathlib.Data.BitVec
import Mathlib.Tactic.Ring

/-!
The button remapping of the cube64 firmware (devices/cube64/firmware/cube64.asm): the EEPROM's map
over a run of polls.
-/

namespace NaviMisc.Wasabi.Cube64

abbrev Byte := BitVec 8

abbrev Pin (n : ℕ) := Fin n × ℕ

abbrev GamecubeBuffer := Fin 8 → Byte

section Pins

/-- The pins of the GameCube's packet share one proof that it has bytes. -/
local instance neZeroPacket : NeZero 8 := ⟨by decide⟩

def GC_A : Pin 8 := (0, 0)
def GC_B : Pin 8 := (0, 1)
def GC_X : Pin 8 := (0, 2)
def GC_Y : Pin 8 := (0, 3)
def GC_START : Pin 8 := (0, 4)
def GC_D_LEFT : Pin 8 := (1, 0)
def GC_D_RIGHT : Pin 8 := (1, 1)
def GC_D_DOWN : Pin 8 := (1, 2)
def GC_D_UP : Pin 8 := (1, 3)
def GC_Z : Pin 8 := (1, 4)
def GC_R : Pin 8 := (1, 5)
def GC_L : Pin 8 := (1, 6)

def GC_JOYSTICK_X : Fin 8 := 2
def GC_JOYSTICK_Y : Fin 8 := 3
def GC_CSTICK_X : Fin 8 := 4
def GC_CSTICK_Y : Fin 8 := 5
def GC_L_ANALOG : Fin 8 := 6
def GC_R_ANALOG : Fin 8 := 7

def N64_D_RIGHT : Pin 4 := (0, 0)
def N64_D_LEFT : Pin 4 := (0, 1)
def N64_D_DOWN : Pin 4 := (0, 2)
def N64_D_UP : Pin 4 := (0, 3)
def N64_START : Pin 4 := (0, 4)
def N64_Z : Pin 4 := (0, 5)
def N64_B : Pin 4 := (0, 6)
def N64_A : Pin 4 := (0, 7)
def N64_C_RIGHT : Pin 4 := (1, 0)
def N64_C_LEFT : Pin 4 := (1, 1)
def N64_C_DOWN : Pin 4 := (1, 2)
def N64_C_UP : Pin 4 := (1, 3)
def N64_R : Pin 4 := (1, 4)
def N64_L : Pin 4 := (1, 5)

def N64_JOYSTICK_X : Fin 4 := 2
def N64_JOYSTICK_Y : Fin 4 := 3

end Pins

section VirtualButtons

def BTN_A : Byte := 0x00
def BTN_B : Byte := 0x01
def BTN_X : Byte := 0x02
def BTN_Y : Byte := 0x03
def BTN_Z : Byte := 0x04
def BTN_R : Byte := 0x05
def BTN_L : Byte := 0x06
def BTN_START : Byte := 0x07
def BTN_D_LEFT : Byte := 0x08
def BTN_D_RIGHT : Byte := 0x09
def BTN_D_DOWN : Byte := 0x0A
def BTN_D_UP : Byte := 0x0B
def BTN_C_LEFT : Byte := 0x0C
def BTN_C_RIGHT : Byte := 0x0D
def BTN_C_DOWN : Byte := 0x0E
def BTN_C_UP : Byte := 0x0F

def NUM_VIRTUAL_BUTTONS : Byte := 0x10

end VirtualButtons

def EEPROM_MAGIC_WORD : BitVec 16 := 0xEF71
def EEPROM_MAGIC_ADDR : Byte := 0x20

structure Firmware where
  FLAG_WAITING_FOR_RELEASE : Bool
  FLAG_NO_VIRTUAL_BTNS : Bool
  FLAG_REMAP_SOURCE_WAIT : Bool
  FLAG_REMAP_DEST_WAIT : Bool
  virtual_button : Byte
  calibration_count : Byte
  rumble_feedback_count : Byte
  remap_source_button : Byte
  calibration : Fin 8 → Byte
  gamecube_buffer : GamecubeBuffer
  n64_status_buffer : Fin 4 → Byte
  EEADR : Byte
  EEDATA : Byte
  eeprom : Byte → Byte

def pressed (buffer : GamecubeBuffer) (src : Pin 8) : Bool := (buffer src.1).getLsbD src.2

section Calibration

def store_calibration (axis_byte : Fin 8) (ideal_neutral : Byte) (s : Firmware) : Firmware :=
  { s with
    calibration := Function.update s.calibration axis_byte
      (ideal_neutral - s.gamecube_buffer axis_byte) }

/-- The sum is clamped on the side to which the calibration moves it. -/
def calibrated (calibration axis : Byte) : Byte :=
  let carry := decide (2 ^ 8 ≤ axis.toNat + calibration.toNat)
  if calibration.getLsbD 7 then (if carry then axis + calibration else 0)
  else if carry then 0xFF else axis + calibration

def apply_calibration (axis_byte : Fin 8) (s : Firmware) : Firmware :=
  { s with
    gamecube_buffer := Function.update s.gamecube_buffer axis_byte
      (calibrated (s.calibration axis_byte) (s.gamecube_buffer axis_byte)) }

def gamecube_reset_calibration (s : Firmware) : Firmware := s
  |> store_calibration GC_JOYSTICK_X 0x80
  |> store_calibration GC_JOYSTICK_Y 0x80
  |> store_calibration GC_CSTICK_X 0x80
  |> store_calibration GC_CSTICK_Y 0x80
  |> store_calibration GC_L_ANALOG 0x00
  |> store_calibration GC_R_ANALOG 0x00

def check_calibration_combo (s : Firmware) : Firmware :=
  if pressed s.gamecube_buffer GC_X ∧ pressed s.gamecube_buffer GC_Y ∧
      pressed s.gamecube_buffer GC_START then
    let s := { s with calibration_count := s.calibration_count + 1 }
    if s.calibration_count = 30 then gamecube_reset_calibration s else s
  else { s with calibration_count := 0 }

end Calibration

section Eeprom

def eeread (address : Byte) (s : Firmware) : Firmware :=
  { s with EEADR := address, EEDATA := s.eeprom address }

def eewrite (s : Firmware) : Firmware :=
  { s with eeprom := Function.update s.eeprom s.EEADR s.EEDATA }

def eeprom_reset_loop : ℕ → Firmware → Firmware
  | 0, s => s
  | fuel + 1, s =>
    let s := eewrite s
    let s := { s with EEADR := s.EEADR + 1, EEDATA := s.EEDATA + 1 }
    if s.EEDATA = NUM_VIRTUAL_BUTTONS then s else eeprom_reset_loop fuel s

def reset_eeprom (s : Firmware) : Firmware :=
  let s := eeprom_reset_loop 256 { s with EEADR := 0, EEDATA := 0 }
  let s := eewrite
    { s with EEADR := EEPROM_MAGIC_ADDR, EEDATA := (EEPROM_MAGIC_WORD >>> 8).setWidth 8 }
  eewrite
    { s with EEADR := EEPROM_MAGIC_ADDR + 1, EEDATA := (EEPROM_MAGIC_WORD &&& 0xFF).setWidth 8 }

def validate_eeprom (s : Firmware) : Firmware :=
  let s := eeread EEPROM_MAGIC_ADDR s
  if s.EEDATA = (EEPROM_MAGIC_WORD >>> 8).setWidth 8 then
    let s := eeread (EEPROM_MAGIC_ADDR + 1) s
    if s.EEDATA = (EEPROM_MAGIC_WORD &&& 0xFF).setWidth 8 then s else reset_eeprom s
  else reset_eeprom s

end Eeprom

section Translate

def bsf (dest : Pin 4) (s : Firmware) : Firmware :=
  { s with
    n64_status_buffer := Function.update s.n64_status_buffer dest.1
      (s.n64_status_buffer dest.1 ||| (1 : Byte) <<< dest.2) }

def map_button_to (virtual : Byte) (dest : Pin 4) (next : Firmware → Firmware) (s : Firmware) :
    Firmware :=
  if s.virtual_button = virtual then bsf dest s else next s

def set_virtual_button : Firmware → Firmware :=
  map_button_to BTN_D_RIGHT N64_D_RIGHT <|
  map_button_to BTN_D_LEFT N64_D_LEFT <|
  map_button_to BTN_D_DOWN N64_D_DOWN <|
  map_button_to BTN_D_UP N64_D_UP <|
  map_button_to BTN_X N64_C_DOWN <|
  map_button_to BTN_Y N64_B <|
  map_button_to BTN_START N64_START <|
  map_button_to BTN_Z N64_Z <|
  map_button_to BTN_B N64_B <|
  map_button_to BTN_A N64_A <|
  map_button_to BTN_R N64_R <|
  map_button_to BTN_L N64_L <|
  map_button_to BTN_C_RIGHT N64_C_RIGHT <|
  map_button_to BTN_C_LEFT N64_C_LEFT <|
  map_button_to BTN_C_DOWN N64_C_DOWN <|
  map_button_to BTN_C_UP N64_C_UP id

def start_rumble_feedback (s : Firmware) : Firmware := { s with rumble_feedback_count := 16 }

def accept_remap_source (button : Byte) (s : Firmware) : Firmware :=
  { s with
    remap_source_button := button
    FLAG_WAITING_FOR_RELEASE := true
    FLAG_REMAP_SOURCE_WAIT := false
    FLAG_REMAP_DEST_WAIT := true }

def accept_remap_dest (button : Byte) (s : Firmware) : Firmware :=
  let s := eewrite { s with EEDATA := button, EEADR := s.remap_source_button }
  start_rumble_feedback { s with FLAG_WAITING_FOR_RELEASE := true, FLAG_REMAP_DEST_WAIT := false }

def remap_virtual_button (button : Byte) (s : Firmware) : Firmware :=
  let s := { s with FLAG_NO_VIRTUAL_BTNS := false }
  if s.FLAG_WAITING_FOR_RELEASE then s
  else if s.FLAG_REMAP_SOURCE_WAIT then accept_remap_source button s
  else if s.FLAG_REMAP_DEST_WAIT then accept_remap_dest button s
  else
    let s := eeread button s
    set_virtual_button { s with virtual_button := s.EEDATA }

def pressed_remap_combo (s : Firmware) : Firmware :=
  start_rumble_feedback
    { s with FLAG_WAITING_FOR_RELEASE := true, FLAG_REMAP_SOURCE_WAIT := true }

def pressed_reset_combo (s : Firmware) : Firmware :=
  start_rumble_feedback (reset_eeprom { s with FLAG_WAITING_FOR_RELEASE := true })

def check_remap_combo (s : Firmware) : Firmware :=
  if s.FLAG_WAITING_FOR_RELEASE then s
  else if !pressed s.gamecube_buffer (GC_L_ANALOG, 7) then s
  else if !pressed s.gamecube_buffer (GC_R_ANALOG, 7) then s
  else if pressed s.gamecube_buffer GC_L then s
  else if pressed s.gamecube_buffer GC_R then s
  else if pressed s.gamecube_buffer GC_START then pressed_remap_combo s
  else if pressed s.gamecube_buffer GC_Z then pressed_reset_combo s
  else s

def map_button_from (src : Pin 8) (virtual : Byte) (s : Firmware) : Firmware :=
  if pressed s.gamecube_buffer src then remap_virtual_button virtual s else s

def map_axis (src_byte : Fin 8) (dest_byte : Fin 4) (s : Firmware) : Firmware :=
  { s with
    n64_status_buffer := Function.update s.n64_status_buffer dest_byte
      (s.gamecube_buffer src_byte - 0x80) }

def map_button_axis (axis_byte : Fin 8) (lower_virtual upper_virtual lower_thresh upper_thresh :
    Byte) (s : Firmware) : Firmware :=
  let s := if s.gamecube_buffer axis_byte < lower_thresh then
    remap_virtual_button lower_virtual s else s
  if upper_thresh + 1 ≤ s.gamecube_buffer axis_byte then
    remap_virtual_button upper_virtual s else s

def calibrate (s : Firmware) : Firmware := s
  |> check_calibration_combo
  |> apply_calibration GC_JOYSTICK_X
  |> apply_calibration GC_JOYSTICK_Y
  |> apply_calibration GC_CSTICK_X
  |> apply_calibration GC_CSTICK_Y
  |> apply_calibration GC_L_ANALOG
  |> apply_calibration GC_R_ANALOG

def map_buttons (s : Firmware) : Firmware := s
  |> map_button_from GC_A BTN_A
  |> map_button_from GC_B BTN_B
  |> map_button_from GC_Z BTN_Z
  |> map_button_from GC_R BTN_R
  |> map_button_from GC_L BTN_L
  |> map_button_from GC_START BTN_START
  |> map_button_from GC_X BTN_X
  |> map_button_from GC_Y BTN_Y
  |> map_button_from GC_D_LEFT BTN_D_LEFT
  |> map_button_from GC_D_RIGHT BTN_D_RIGHT
  |> map_button_from GC_D_UP BTN_D_UP
  |> map_button_from GC_D_DOWN BTN_D_DOWN
  |> map_axis GC_JOYSTICK_X N64_JOYSTICK_X
  |> map_axis GC_JOYSTICK_Y N64_JOYSTICK_Y
  |> map_button_axis GC_CSTICK_X BTN_C_LEFT BTN_C_RIGHT 0x50 0xB0
  |> map_button_axis GC_CSTICK_Y BTN_C_DOWN BTN_C_UP 0x50 0xB0

def n64_translate_status (s : Firmware) : Firmware :=
  let s := { s with n64_status_buffer := fun _ => 0, FLAG_NO_VIRTUAL_BTNS := true }
  let s := map_buttons (check_remap_combo (calibrate s))
  if s.FLAG_NO_VIRTUAL_BTNS then { s with FLAG_WAITING_FOR_RELEASE := false } else s

end Translate

def startup (s : Firmware) : Firmware :=
  validate_eeprom
    { s with
      FLAG_WAITING_FOR_RELEASE := false
      FLAG_NO_VIRTUAL_BTNS := false
      FLAG_REMAP_SOURCE_WAIT := false
      FLAG_REMAP_DEST_WAIT := false
      calibration_count := 0
      rumble_feedback_count := 0 }

/-- The packet of `gamecube_poll_status`, translated. -/
def poll (s : Firmware) (packet : GamecubeBuffer) : Firmware :=
  n64_translate_status { s with gamecube_buffer := packet }

def run (s : Firmware) (packets : List GamecubeBuffer) : Firmware := packets.foldl poll s

inductive Combo
  | remap
  | reset
  deriving DecidableEq

structure Press where
  combo : Option Combo
  buttons : List Byte

inductive Phase
  | idle
  | combo
  | first (source : Byte)
  deriving DecidableEq

structure Sequence where
  phase : Phase
  held : Bool
  deriving DecidableEq

inductive Edit
  | remap (source destination : Byte)
  | reset
  deriving DecidableEq

def Edit.apply (map : Byte → Byte) : Edit → Byte → Byte
  | remap source destination => Function.update map source destination
  | reset => fun v => v

namespace Sequence

variable (q : Sequence)

def combo (c : Option Combo) : Sequence :=
  if q.held then q
  else match c with
    | some .remap => ⟨.combo, true⟩
    | some .reset => ⟨q.phase, true⟩
    | none => q

def button (buttons : List Byte) : Sequence :=
  if q.held then q
  else match q.phase, buttons with
    | .combo, source :: _ => ⟨.first source, true⟩
    | .first _, _ :: _ => ⟨.idle, true⟩
    | _, _ => q

def next (p : Press) : Sequence :=
  let q := (q.combo p.combo).button p.buttons
  ⟨q.phase, q.held && !p.buttons.isEmpty⟩

def comboEdits (c : Option Combo) : List Edit :=
  if q.held then []
  else match c with
    | some .reset => [.reset]
    | _ => []

def buttonEdits (buttons : List Byte) : List Edit :=
  if q.held then []
  else match q.phase, buttons with
    | .first source, destination :: _ => [.remap source destination]
    | _, _ => []

def edits : Sequence → List Press → List Edit
  | _, [] => []
  | q, p :: presses =>
    q.comboEdits p.combo ++ (q.combo p.combo).buttonEdits p.buttons ++ edits (q.next p) presses

end Sequence

section Pressed

def gamecube_buttons : List (Pin 8 × Byte) :=
  [(GC_A, BTN_A), (GC_B, BTN_B), (GC_Z, BTN_Z), (GC_R, BTN_R), (GC_L, BTN_L), (GC_START, BTN_START),
    (GC_X, BTN_X), (GC_Y, BTN_Y), (GC_D_LEFT, BTN_D_LEFT), (GC_D_RIGHT, BTN_D_RIGHT),
    (GC_D_UP, BTN_D_UP), (GC_D_DOWN, BTN_D_DOWN)]

def n64_buttons : List (Byte × Pin 4) :=
  [(BTN_D_RIGHT, N64_D_RIGHT), (BTN_D_LEFT, N64_D_LEFT), (BTN_D_DOWN, N64_D_DOWN),
    (BTN_D_UP, N64_D_UP), (BTN_X, N64_C_DOWN), (BTN_Y, N64_B), (BTN_START, N64_START),
    (BTN_Z, N64_Z), (BTN_B, N64_B), (BTN_A, N64_A), (BTN_R, N64_R), (BTN_L, N64_L),
    (BTN_C_RIGHT, N64_C_RIGHT), (BTN_C_LEFT, N64_C_LEFT), (BTN_C_DOWN, N64_C_DOWN),
    (BTN_C_UP, N64_C_UP)]

variable (buffer : GamecubeBuffer)

def digitalButtons : List Byte :=
  (gamecube_buttons.filter fun b => pressed buffer b.1).map Prod.snd

def axisButtons (axis_byte : Fin 8) (lower upper : Byte) : List Byte :=
  (if buffer axis_byte < 0x50 then [lower] else []) ++
    (if 0xB0 < buffer axis_byte then [upper] else [])

def virtualButtons : List Byte :=
  digitalButtons buffer ++ axisButtons buffer GC_CSTICK_X BTN_C_LEFT BTN_C_RIGHT ++
    axisButtons buffer GC_CSTICK_Y BTN_C_DOWN BTN_C_UP

def comboOf : Option Combo :=
  if pressed buffer (GC_L_ANALOG, 7) ∧ pressed buffer (GC_R_ANALOG, 7) ∧
      ¬pressed buffer GC_L ∧ ¬pressed buffer GC_R then
    if pressed buffer GC_START then some .remap
    else if pressed buffer GC_Z then some .reset
    else none
  else none

def pressOf : Press := ⟨comboOf buffer, virtualButtons buffer⟩

end Pressed

def press (s : Firmware) (packet : GamecubeBuffer) : Press :=
  pressOf (calibrate { s with gamecube_buffer := packet }).gamecube_buffer

def presses : Firmware → List GamecubeBuffer → List Press
  | _, [] => []
  | s, packet :: packets => press s packet :: presses (poll s packet) packets

def stored (eeprom : Byte → Byte) : Byte → Byte :=
  if eeprom 0x20 = 0xEF ∧ eeprom 0x21 = 0x71 then eeprom else fun v => v

section Eeprom

variable (s : Firmware)

def resetNext : Firmware :=
  { eewrite s with EEADR := s.EEADR + 1, EEDATA := s.EEDATA + 1 }

theorem eeprom_reset_loop_succ (fuel : ℕ) : eeprom_reset_loop (fuel + 1) s =
    if s.EEDATA + 1 = NUM_VIRTUAL_BUTTONS then resetNext s
    else eeprom_reset_loop fuel (resetNext s) := rfl

theorem resetNext_eeprom {k : Byte} (hadr : s.EEADR = k) (hdata : s.EEDATA = k) (v : Byte) :
    (resetNext s).eeprom v = if v = k then v else s.eeprom v := by
  change Function.update s.eeprom s.EEADR s.EEDATA v = _
  rw [hadr, hdata, Function.update_apply]
  split_ifs with h
  · exact h.symm
  · rfl

theorem eeprom_reset_loop_eeprom (n : ℕ) {k : Byte} (hk : k.toNat + n = 15) (fuel : ℕ)
    (hfuel : n < fuel) (hadr : s.EEADR = k) (hdata : s.EEDATA = k) (v : Byte) :
    (eeprom_reset_loop fuel s).eeprom v = if k ≤ v ∧ v < 16 then v else s.eeprom v := by
  have hsixteen : (16 : Byte).toNat = 16 := rfl
  induction n generalizing k s fuel with
  | zero =>
    obtain ⟨fuel, rfl⟩ := Nat.exists_eq_succ_of_ne_zero (by omega : fuel ≠ 0)
    obtain rfl : k = 15 := BitVec.eq_of_toNat_eq hk
    have hlast : (15 : Byte) + 1 = NUM_VIRTUAL_BUTTONS := rfl
    rw [Nat.succ_eq_add_one, eeprom_reset_loop_succ, hdata, if_pos hlast,
      resetNext_eeprom s hadr hdata]
    refine if_congr ?_ rfl rfl
    rw [← BitVec.toNat_inj, BitVec.le_def, BitVec.lt_def]
    omega
  | succ n ih =>
    obtain ⟨fuel, rfl⟩ := Nat.exists_eq_succ_of_ne_zero (by omega : fuel ≠ 0)
    have hsucc : (k + 1).toNat = k.toNat + 1 := by
      rw [BitVec.toNat_add]
      change (k.toNat + 1) % 256 = k.toNat + 1
      omega
    have hmore : k + 1 ≠ NUM_VIRTUAL_BUTTONS := by
      rw [ne_eq, ← BitVec.toNat_inj, hsucc, NUM_VIRTUAL_BUTTONS]
      omega
    rw [Nat.succ_eq_add_one, eeprom_reset_loop_succ, hdata, if_neg hmore,
      ih (resetNext s) (by omega) fuel (by omega) (congrArg (· + 1) hadr)
        (congrArg (· + 1) hdata), resetNext_eeprom s hadr hdata]
    simp only [← BitVec.toNat_inj, BitVec.le_def, BitVec.lt_def, hsucc]
    split_ifs
    all_goals first | rfl | omega

theorem eeprom_reset_loop_frame (fuel : ℕ) :
    ∃ a d e, eeprom_reset_loop fuel s = { s with EEADR := a, EEDATA := d, eeprom := e } := by
  induction fuel generalizing s with
  | zero => exact ⟨_, _, _, rfl⟩
  | succ fuel ih =>
    rw [eeprom_reset_loop]
    split
    · exact ⟨_, _, _, rfl⟩
    · obtain ⟨a, d, e, h⟩ :=
        ih { eewrite s with EEADR := (eewrite s).EEADR + 1, EEDATA := (eewrite s).EEDATA + 1 }
      exact ⟨a, d, e, h⟩

theorem reset_eeprom_frame :
    ∃ a d e, reset_eeprom s = { s with EEADR := a, EEDATA := d, eeprom := e } := by
  obtain ⟨a, d, e, h⟩ := eeprom_reset_loop_frame { s with EEADR := 0, EEDATA := 0 } 256
  rw [reset_eeprom, h]
  exact ⟨_, _, _, rfl⟩

theorem reset_eeprom_eeprom {v : Byte} (hv : v < NUM_VIRTUAL_BUTTONS) :
    (reset_eeprom s).eeprom v = v := by
  have hmagic : v ≠ EEPROM_MAGIC_ADDR ∧ v ≠ EEPROM_MAGIC_ADDR + 1 := by
    revert v
    decide
  rw [reset_eeprom]
  simp only [eewrite]
  rw [Function.update_of_ne hmagic.2, Function.update_of_ne hmagic.1,
    eeprom_reset_loop_eeprom _ 15 rfl 256 (by omega) rfl rfl, if_pos ⟨Nat.zero_le _, hv⟩]

end Eeprom

def phaseOf (s : Firmware) : Phase :=
  if s.FLAG_REMAP_SOURCE_WAIT then .combo
  else if s.FLAG_REMAP_DEST_WAIT then .first s.remap_source_button
  else .idle

def sequenceOf (s : Firmware) : Sequence := ⟨phaseOf s, s.FLAG_WAITING_FOR_RELEASE⟩

def Sequence.free : Sequence := ⟨.idle, false⟩

section Startup

variable (s : Firmware)

theorem validate_eeprom_frame :
    ∃ a d e, validate_eeprom s = { s with EEADR := a, EEDATA := d, eeprom := e } := by
  rw [validate_eeprom]
  dsimp only
  split_ifs
  · exact ⟨_, _, _, rfl⟩
  · exact reset_eeprom_frame _
  · exact reset_eeprom_frame _

theorem validate_eeprom_eeprom {v : Byte} (hv : v < NUM_VIRTUAL_BUTTONS) :
    (validate_eeprom s).eeprom v = stored s.eeprom v := by
  have hread : validate_eeprom s =
      if s.eeprom 0x20 = 0xEF then
        if s.eeprom 0x21 = 0x71 then eeread 0x21 (eeread 0x20 s)
        else reset_eeprom (eeread 0x21 (eeread 0x20 s))
      else reset_eeprom (eeread 0x20 s) := rfl
  rw [hread, stored]
  by_cases hhigh : s.eeprom 0x20 = 0xEF
  · by_cases hlow : s.eeprom 0x21 = 0x71
    · rw [if_pos hhigh, if_pos hlow, if_pos ⟨hhigh, hlow⟩]
      rfl
    · rw [if_pos hhigh, if_neg hlow, if_neg fun h => hlow h.2]
      exact reset_eeprom_eeprom _ hv
  · rw [if_neg hhigh, if_neg fun h => hhigh h.1]
    exact reset_eeprom_eeprom _ hv

theorem startup_eeprom {v : Byte} (hv : v < NUM_VIRTUAL_BUTTONS) :
    (startup s).eeprom v = stored s.eeprom v := validate_eeprom_eeprom _ hv

theorem startup_sequence : sequenceOf (startup s) = Sequence.free := by
  rw [startup]
  obtain ⟨a, d, e, h⟩ := validate_eeprom_frame _
  rw [h]
  rfl

end Startup

section Combos

variable (s : Firmware)

theorem check_remap_combo_eq : check_remap_combo s =
    if s.FLAG_WAITING_FOR_RELEASE then s
    else match comboOf s.gamecube_buffer with
      | some .remap => pressed_remap_combo s
      | some .reset => pressed_reset_combo s
      | none => s := by
  rw [check_remap_combo, comboOf]
  cases s.FLAG_WAITING_FOR_RELEASE with
  | true => rfl
  | false =>
    cases pressed s.gamecube_buffer (GC_L_ANALOG, 7)
    · rfl
    cases pressed s.gamecube_buffer (GC_R_ANALOG, 7)
    · rfl
    cases pressed s.gamecube_buffer GC_L
    rotate_left
    · rfl
    cases pressed s.gamecube_buffer GC_R
    rotate_left
    · rfl
    cases pressed s.gamecube_buffer GC_START
    rotate_left
    · rfl
    cases pressed s.gamecube_buffer GC_Z <;> rfl

theorem pressed_reset_combo_frame : ∃ a d e, pressed_reset_combo s =
    { s with
      FLAG_WAITING_FOR_RELEASE := true
      rumble_feedback_count := 16
      EEADR := a
      EEDATA := d
      eeprom := e } := by
  obtain ⟨a, d, e, h⟩ := reset_eeprom_frame { s with FLAG_WAITING_FOR_RELEASE := true }
  rw [pressed_reset_combo, h]
  exact ⟨a, d, e, rfl⟩

theorem pressed_reset_combo_eeprom {v : Byte} (hv : v < NUM_VIRTUAL_BUTTONS) :
    (pressed_reset_combo s).eeprom v = v := by
  rw [pressed_reset_combo, start_rumble_feedback]
  dsimp only
  rw [reset_eeprom_eeprom _ hv]

theorem check_remap_combo_spec :
    sequenceOf (check_remap_combo s) = (sequenceOf s).combo (comboOf s.gamecube_buffer) ∧
    (∀ v < NUM_VIRTUAL_BUTTONS, (check_remap_combo s).eeprom v =
      ((sequenceOf s).comboEdits (comboOf s.gamecube_buffer)).foldl Edit.apply s.eeprom v) ∧
    (check_remap_combo s).gamecube_buffer = s.gamecube_buffer ∧
    (check_remap_combo s).n64_status_buffer = s.n64_status_buffer ∧
    (check_remap_combo s).FLAG_NO_VIRTUAL_BTNS = s.FLAG_NO_VIRTUAL_BTNS := by
  rw [check_remap_combo_eq]
  unfold Sequence.combo Sequence.comboEdits
  cases hheld : s.FLAG_WAITING_FOR_RELEASE with
  | true =>
    have hq : (sequenceOf s).held = true := hheld
    simp [hq]
  | false =>
    have hq : (sequenceOf s).held = false := hheld
    rw [hq]
    cases comboOf s.gamecube_buffer with
    | none => exact ⟨rfl, fun v _ => rfl, rfl, rfl, rfl⟩
    | some c =>
      cases c with
      | remap => exact ⟨rfl, fun v _ => rfl, rfl, rfl, rfl⟩
      | reset =>
        obtain ⟨a, d, e, h⟩ := pressed_reset_combo_frame s
        rw [if_neg Bool.false_ne_true]
        refine ⟨?_, fun v hv => ?_, ?_⟩
        · change sequenceOf (pressed_reset_combo s) = _
          rw [h]
          rfl
        · exact pressed_reset_combo_eeprom s hv
        · change (pressed_reset_combo s).gamecube_buffer = _ ∧ _
          simp only [h, and_self]

end Combos

section Buttons

variable (s : Firmware)

def setBit (dest : Option (Pin 4)) : Firmware := dest.elim s fun dest => bsf dest s

theorem map_button_to_lookup (virtual : Byte) (dest : Pin 4) (table : List (Byte × Pin 4)) :
    map_button_to virtual dest (fun s => setBit s (table.lookup s.virtual_button)) =
      fun s => setBit s (((virtual, dest) :: table).lookup s.virtual_button) := by
  funext s
  rw [map_button_to, List.lookup_cons]
  by_cases h : s.virtual_button = virtual
  · rw [if_pos h, beq_iff_eq.mpr h]
    rfl
  · rw [if_neg h, beq_false_of_ne h]

theorem set_virtual_button_eq :
    set_virtual_button s = setBit s (n64_buttons.lookup s.virtual_button) := by
  have h : set_virtual_button = fun s => setBit s (n64_buttons.lookup s.virtual_button) := by
    have hnone : (id : Firmware → Firmware) =
        fun s => setBit s (([] : List (Byte × Pin 4)).lookup s.virtual_button) := rfl
    rw [set_virtual_button, hnone]
    simp only [map_button_to_lookup]
    rfl
  exact congrFun h s

end Buttons

section Scan

def shown (s : Firmware) (d : Pin 4) : Bool := (s.n64_status_buffer d.1).getLsbD d.2

structure Scanned (bs : List Byte) (s t : Firmware) : Prop where
  sequence : sequenceOf t = (sequenceOf s).button bs
  eeprom : t.eeprom = ((sequenceOf s).buttonEdits bs).foldl Edit.apply s.eeprom
  buffer : t.gamecube_buffer = s.gamecube_buffer
  released : t.FLAG_NO_VIRTUAL_BTNS = (s.FLAG_NO_VIRTUAL_BTNS && bs.isEmpty)
  status : ∀ d : Pin 4, d.1 < 2 → (shown t d ↔ shown s d ∨
    sequenceOf s = Sequence.free ∧ ∃ v ∈ bs, n64_buttons.lookup (s.eeprom v) = some d)

variable {as bs : List Byte} {s t u : Firmware}

theorem button_nil (q : Sequence) : q.button [] = q := by
  unfold Sequence.button
  split_ifs
  · rfl
  · cases q.phase <;> rfl

theorem buttonEdits_nil (q : Sequence) : q.buttonEdits [] = [] := by
  unfold Sequence.buttonEdits
  split_ifs
  · rfl
  · cases q.phase <;> rfl

theorem button_append (q : Sequence) (as bs : List Byte) :
    q.button (as ++ bs) = (q.button as).button bs := by
  cases as with
  | nil => rw [List.nil_append, button_nil]
  | cons a as =>
    obtain ⟨phase, held⟩ := q
    cases held <;> cases phase <;> rfl

theorem buttonEdits_append (q : Sequence) (as bs : List Byte) :
    q.buttonEdits (as ++ bs) = q.buttonEdits as ++ (q.button as).buttonEdits bs := by
  cases as with
  | nil => rw [List.nil_append, button_nil, buttonEdits_nil, List.nil_append]
  | cons a as =>
    obtain ⟨phase, held⟩ := q
    cases held <;> cases phase <;> rfl

theorem button_free (bs : List Byte) : Sequence.free.button bs = Sequence.free := rfl

theorem button_eq_free (q : Sequence) (h : q.button bs = Sequence.free) : q = Sequence.free := by
  unfold Sequence.button at h
  split_ifs at h with hheld
  · exact h
  · cases bs with
    | nil => cases hphase : q.phase <;> simpa [hphase] using h
    | cons b bs => cases hphase : q.phase <;> simp_all [Sequence.free]

theorem Scanned.trans (h : Scanned as s t) (h' : Scanned bs t u) : Scanned (as ++ bs) s u := by
  constructor
  · rw [h'.sequence, h.sequence, button_append]
  · rw [h'.eeprom, h.eeprom, h.sequence, buttonEdits_append, List.foldl_append]
  · rw [h'.buffer, h.buffer]
  · rw [h'.released, h.released, Bool.and_assoc]
    cases as <;> rfl
  · intro d hd
    rw [h'.status d hd, h.status d hd, or_assoc]
    refine or_congr_right ?_
    by_cases hfree : sequenceOf s = Sequence.free
    · have ht : sequenceOf t = Sequence.free := by rw [h.sequence, hfree, button_free]
      have heeprom : t.eeprom = s.eeprom := by
        rw [h.eeprom, hfree]
        rfl
      simp only [hfree, ht, heeprom, true_and, List.mem_append, or_and_right, exists_or]
    · have ht : sequenceOf t ≠ Sequence.free := fun ht =>
        hfree (button_eq_free _ (h.sequence.symm.trans ht))
      simp only [hfree, ht, false_and, or_self]

theorem Scanned.refl (s : Firmware) : Scanned [] s s := by
  refine ⟨(button_nil _).symm, ?_, rfl, (Bool.and_true _).symm, ?_⟩
  · rw [buttonEdits_nil]
    rfl
  · intro d _
    simp

theorem map_axis_scanned (src_byte : Fin 8) {dest_byte : Fin 4} (h : 2 ≤ dest_byte)
    (s : Firmware) : Scanned [] s (map_axis src_byte dest_byte s) := by
  obtain ⟨hsequence, heeprom, hbuffer, hreleased, hstatus⟩ := Scanned.refl s
  refine ⟨hsequence, heeprom, hbuffer, hreleased, fun d hd => ?_⟩
  rw [← hstatus d hd]
  have hne : d.1 ≠ dest_byte := by
    rintro rfl
    exact absurd (Nat.lt_of_lt_of_le hd h) (Nat.lt_irrefl _)
  rw [shown, map_axis]
  simp only [Function.update_of_ne hne]
  rfl

theorem shown_setBit (s : Firmware) (dest : Option (Pin 4)) (hdest : ∀ d ∈ dest, d.2 < 8)
    (d : Pin 4) : shown (setBit s dest) d ↔ shown s d ∨ dest = some d := by
  cases dest with
  | none => simp [setBit]
  | some e =>
    have hlt : e.2 < 8 := hdest e rfl
    have hbit : ∀ x : Byte, ∀ i j : ℕ, i < 8 →
        ((x ||| (1 : Byte) <<< i).getLsbD j = true ↔ x.getLsbD j = true ∨ i = j) := by
      intro x i j hi
      have hone : ∀ n, (1 : Byte).getLsbD n = decide (n = 0) := fun n => by
        simp [BitVec.getLsbD_one]
      simp only [BitVec.getLsbD_or, BitVec.getLsbD_shiftLeft, hone, Bool.or_eq_true,
        Bool.and_eq_true, decide_eq_true_eq, Bool.not_eq_true', decide_eq_false_iff_not]
      refine or_congr_right ?_
      omega
    obtain ⟨i, j⟩ := d
    obtain ⟨i', j'⟩ := e
    change (Function.update s.n64_status_buffer i' _ i).getLsbD j = true ↔ _
    by_cases hi : i = i'
    · subst hi
      rw [Function.update_self, hbit _ _ _ hlt]
      simp [shown]
    · rw [Function.update_of_ne hi]
      simp [shown, Ne.symm hi]

theorem n64_buttons_lt (v : Byte) : ∀ d ∈ n64_buttons.lookup v, d.2 < 8 := by
  revert v
  decide +kernel

theorem remap_virtual_button_scanned (button : Byte) (s : Firmware) :
    Scanned [button] s (remap_virtual_button button s) := by
  have hreleased : false = (s.FLAG_NO_VIRTUAL_BTNS && [button].isEmpty) := (Bool.and_false _).symm
  have hkept : ∀ q : Sequence, q ≠ Sequence.free → ∀ d : Pin 4, shown s d ↔ shown s d ∨
      q = Sequence.free ∧ ∃ v ∈ [button], n64_buttons.lookup (s.eeprom v) = some d := by
    intro q hq d
    simp [hq]
  unfold remap_virtual_button
  dsimp only
  split_ifs with hheld hsource hdest
  · have hq : sequenceOf s = ⟨phaseOf s, true⟩ := congrArg _ hheld
    refine ⟨?_, ?_, rfl, hreleased, fun d _ => hkept _ (by simp [hq, Sequence.free]) d⟩
    · rw [hq]
      exact hq
    · rw [hq]
      rfl
  · have hq : sequenceOf s = ⟨.combo, false⟩ := by simp [sequenceOf, phaseOf, hheld, hsource]
    refine ⟨?_, ?_, rfl, hreleased, fun d _ => hkept _ (by simp [hq, Sequence.free]) d⟩
    · rw [hq]
      rfl
    · rw [hq]
      rfl
  · have hq : sequenceOf s = ⟨.first s.remap_source_button, false⟩ := by
      simp [sequenceOf, phaseOf, hheld, hsource, hdest]
    refine ⟨?_, ?_, rfl, hreleased, fun d _ => hkept _ (by simp [hq, Sequence.free]) d⟩
    · rw [hq]
      simp [sequenceOf, phaseOf, hsource, accept_remap_dest, start_rumble_feedback, eewrite,
        Sequence.button]
    · rw [hq]
      rfl
  · have hq : sequenceOf s = Sequence.free := by
      simp [sequenceOf, phaseOf, hheld, hsource, hdest, Sequence.free]
    rw [set_virtual_button_eq]
    dsimp only [eeread]
    have hlt := n64_buttons_lt (s.eeprom button)
    generalize hdest : n64_buttons.lookup (s.eeprom button) = dest at hlt
    refine ⟨?_, ?_, ?_, ?_, fun d _ => ?_⟩
    · rw [hq, button_free, ← hq]
      cases dest <;> rfl
    · rw [hq]
      cases dest <;> rfl
    · cases dest <;> rfl
    · cases dest <;> exact hreleased
    · rw [shown_setBit _ _ hlt]
      simp [hdest, hq]
      rfl

theorem map_button_from_scanned (src : Pin 8) (virtual : Byte) (s : Firmware) :
    Scanned (if pressed s.gamecube_buffer src then [virtual] else []) s
      (map_button_from src virtual s) := by
  rw [map_button_from]
  split_ifs
  · exact remap_virtual_button_scanned virtual s
  · exact Scanned.refl s

theorem digitalButtons_scanned (table : List (Pin 8 × Byte)) (s : Firmware) :
    Scanned ((table.filter fun b => pressed s.gamecube_buffer b.1).map Prod.snd) s
      (table.foldl (fun s b => map_button_from b.1 b.2 s) s) := by
  induction table generalizing s with
  | nil => exact Scanned.refl s
  | cons b table ih =>
    have hfirst := map_button_from_scanned b.1 b.2 s
    have hrest := ih (map_button_from b.1 b.2 s)
    rw [hfirst.buffer] at hrest
    have hboth := hfirst.trans hrest
    rw [List.filter_cons]
    split_ifs at hboth ⊢ with h
    · exact hboth
    · exact hboth

theorem map_button_axis_scanned (axis_byte : Fin 8) (lower upper : Byte) (s : Firmware) :
    Scanned (axisButtons s.gamecube_buffer axis_byte lower upper) s
      (map_button_axis axis_byte lower upper 0x50 0xB0 s) := by
  have hone : ∀ (P : Prop) [Decidable P] (v : Byte) (s : Firmware),
      Scanned (if P then [v] else []) s (if P then remap_virtual_button v s else s) := by
    intro P _ v s
    split_ifs
    · exact remap_virtual_button_scanned v s
    · exact Scanned.refl s
  have hupper : ∀ x : Byte, 0xB0 + 1 ≤ x ↔ 0xB0 < x := by
    decide
  have hlower := hone (s.gamecube_buffer axis_byte < 0x50) lower s
  refine hlower.trans ?_
  have hrest := hone (0xB0 < s.gamecube_buffer axis_byte) upper
    (if s.gamecube_buffer axis_byte < 0x50 then remap_virtual_button lower s else s)
  rw [map_button_axis, hlower.buffer]
  simp only [hupper]
  exact hrest

theorem map_buttons_scanned (s : Firmware) :
    Scanned (virtualButtons s.gamecube_buffer) s (map_buttons s) := by
  let t := gamecube_buttons.foldl (fun s b => map_button_from b.1 b.2 s) s
  let u := map_axis GC_JOYSTICK_Y N64_JOYSTICK_Y (map_axis GC_JOYSTICK_X N64_JOYSTICK_X t)
  have ht : Scanned (digitalButtons s.gamecube_buffer) s t :=
    digitalButtons_scanned gamecube_buttons s
  have hjoysticks : Scanned [] t u :=
    (map_axis_scanned _ (by decide) _).trans (map_axis_scanned _ (by decide) _)
  have hu := ht.trans hjoysticks
  rw [List.append_nil] at hu
  have hx := map_button_axis_scanned GC_CSTICK_X BTN_C_LEFT BTN_C_RIGHT u
  rw [hu.buffer] at hx
  have hux := hu.trans hx
  have hy := map_button_axis_scanned GC_CSTICK_Y BTN_C_DOWN BTN_C_UP
    (map_button_axis GC_CSTICK_X BTN_C_LEFT BTN_C_RIGHT 0x50 0xB0 u)
  rw [hux.buffer] at hy
  exact hux.trans hy

end Scan

section Poll

theorem gamecube_reset_calibration_frame (s : Firmware) :
    ∃ c, gamecube_reset_calibration s = { s with calibration := c } := by
  have hstore : ∀ (axis_byte : Fin 8) (ideal_neutral : Byte) (s t : Firmware),
      (∃ c, t = { s with calibration := c }) →
        ∃ c, store_calibration axis_byte ideal_neutral t = { s with calibration := c } := by
    rintro axis_byte ideal_neutral s t ⟨c, rfl⟩
    exact ⟨_, rfl⟩
  rw [gamecube_reset_calibration]
  iterate 6 apply hstore
  exact ⟨s.calibration, rfl⟩

theorem check_calibration_combo_frame (s : Firmware) : ∃ c n, check_calibration_combo s =
    { s with calibration := c, calibration_count := n } := by
  rw [check_calibration_combo]
  dsimp only
  split_ifs
  · obtain ⟨c, h⟩ := gamecube_reset_calibration_frame
      { s with calibration_count := s.calibration_count + 1 }
    exact ⟨c, _, h⟩
  · exact ⟨_, _, rfl⟩
  · exact ⟨_, _, rfl⟩

theorem calibrate_frame (s : Firmware) : ∃ c n b, calibrate s =
    { s with calibration := c, calibration_count := n, gamecube_buffer := b } := by
  have happly : ∀ (axis_byte : Fin 8) (s t : Firmware),
      (∃ c n b, t = { s with calibration := c, calibration_count := n, gamecube_buffer := b }) →
        ∃ c n b, apply_calibration axis_byte t =
          { s with calibration := c, calibration_count := n, gamecube_buffer := b } := by
    rintro axis_byte s t ⟨c, n, b, rfl⟩
    exact ⟨_, _, _, rfl⟩
  obtain ⟨c, n, h⟩ := check_calibration_combo_frame s
  rw [calibrate, h]
  iterate 6 apply happly
  exact ⟨c, n, s.gamecube_buffer, rfl⟩

theorem calibrate_buffer (s : Firmware) (status : Fin 4 → Byte) (b : Bool) :
    (calibrate { s with n64_status_buffer := status, FLAG_NO_VIRTUAL_BTNS := b }).gamecube_buffer =
      (calibrate s).gamecube_buffer := by
  have h : check_calibration_combo
        { s with n64_status_buffer := status, FLAG_NO_VIRTUAL_BTNS := b } =
      { check_calibration_combo s with
        n64_status_buffer := status
        FLAG_NO_VIRTUAL_BTNS := b } := by
    rw [check_calibration_combo, check_calibration_combo]
    dsimp only
    split_ifs <;> rfl
  rw [calibrate, h]
  rfl

theorem virtualButtons_lt (buffer : GamecubeBuffer) :
    ∀ v ∈ virtualButtons buffer, v < NUM_VIRTUAL_BUTTONS := by
  have hdigital : ∀ b ∈ gamecube_buttons, b.2 < NUM_VIRTUAL_BUTTONS := by decide
  have haxis : ∀ (axis_byte : Fin 8) (lower upper : Byte), lower < NUM_VIRTUAL_BUTTONS →
      upper < NUM_VIRTUAL_BUTTONS →
      ∀ v ∈ axisButtons buffer axis_byte lower upper, v < NUM_VIRTUAL_BUTTONS := by
    intro axis_byte lower upper hlower hupper v hv
    simp only [axisButtons, List.mem_append, List.mem_ite_nil_right, List.mem_singleton] at hv
    rcases hv with ⟨-, rfl⟩ | ⟨-, rfl⟩
    · exact hlower
    · exact hupper
  intro v hv
  rcases List.mem_append.mp hv with hv | hv
  · rcases List.mem_append.mp hv with hv | hv
    · obtain ⟨b, hb, rfl⟩ := List.mem_map.mp hv
      exact hdigital b (List.mem_filter.mp hb).1
    · exact haxis _ _ _ (by decide) (by decide) v hv
  · exact haxis _ _ _ (by decide) (by decide) v hv

theorem foldl_apply_congr (edits : List Edit) {map map' : Byte → Byte} {n : Byte}
    (h : ∀ v < n, map v = map' v) :
    ∀ v < n, edits.foldl Edit.apply map v = edits.foldl Edit.apply map' v := by
  induction edits generalizing map map' with
  | nil => exact h
  | cons e edits ih =>
    apply ih
    intro v hv
    cases e with
    | reset => rfl
    | remap source destination => simp only [Edit.apply, Function.update_apply, h v hv]

theorem combo_eq_free {q : Sequence} {c : Option Combo} (h : q.combo c = Sequence.free) :
    q.comboEdits c = [] := by
  unfold Sequence.combo at h
  unfold Sequence.comboEdits
  split_ifs at h ⊢
  · rfl
  · cases c with
    | none => rfl
    | some c => cases c <;> simp [Sequence.free] at h

theorem release_spec {u v : Firmware}
    (h : v = if u.FLAG_NO_VIRTUAL_BTNS then { u with FLAG_WAITING_FOR_RELEASE := false } else u) :
    sequenceOf v = ⟨(sequenceOf u).phase, (sequenceOf u).held && !u.FLAG_NO_VIRTUAL_BTNS⟩ ∧
      v.eeprom = u.eeprom ∧ ∀ d, shown v d = shown u d := by
  subst h
  split_ifs with h
  · exact ⟨by rw [h, Bool.not_true, Bool.and_false]; rfl, rfl, fun _ => rfl⟩
  · rw [Bool.not_eq_true] at h
    exact ⟨by rw [h, Bool.not_false, Bool.and_true], rfl, fun _ => rfl⟩

theorem poll_spec (s : Firmware) (packet : GamecubeBuffer) :
    sequenceOf (poll s packet) = (sequenceOf s).next (press s packet) ∧
    (∀ v < NUM_VIRTUAL_BUTTONS, (poll s packet).eeprom v =
      ((sequenceOf s).comboEdits (press s packet).combo ++
        ((sequenceOf s).combo (press s packet).combo).buttonEdits (press s packet).buttons).foldl
          Edit.apply s.eeprom v) ∧
    ∀ d : Pin 4, d.1 < 2 → (shown (poll s packet) d ↔
      (sequenceOf s).combo (press s packet).combo = Sequence.free ∧
        ∃ v ∈ (press s packet).buttons, n64_buttons.lookup (s.eeprom v) = some d) := by
  let start : Firmware := { s with
    gamecube_buffer := packet
    n64_status_buffer := fun _ => 0
    FLAG_NO_VIRTUAL_BTNS := true }
  let t := check_remap_combo (calibrate start)
  let u := map_buttons t
  have hpress : press s packet = pressOf (calibrate start).gamecube_buffer := by
    rw [press]
    exact congrArg pressOf (calibrate_buffer _ _ _).symm
  obtain ⟨c, n, b, hcalibrate⟩ := calibrate_frame start
  have hsequence : sequenceOf (calibrate start) = sequenceOf s := by rw [hcalibrate]; rfl
  have heeprom : (calibrate start).eeprom = s.eeprom := by rw [hcalibrate]
  have hnone : (calibrate start).FLAG_NO_VIRTUAL_BTNS = true := by rw [hcalibrate]
  have hstatus : (calibrate start).n64_status_buffer = fun _ => 0 := by rw [hcalibrate]
  obtain ⟨htsequence, hteeprom, htbuffer, htstatus, htreleased⟩ :=
    check_remap_combo_spec (calibrate start)
  rw [hsequence] at htsequence hteeprom
  rw [heeprom] at hteeprom
  have hu : Scanned (virtualButtons (calibrate start).gamecube_buffer) t u :=
    htbuffer ▸ map_buttons_scanned t
  have hreleased : u.FLAG_NO_VIRTUAL_BTNS = (press s packet).buttons.isEmpty := by
    rw [hu.released, htreleased, hpress, hnone, Bool.true_and, pressOf]
  have hpoll : poll s packet =
      if u.FLAG_NO_VIRTUAL_BTNS then { u with FLAG_WAITING_FOR_RELEASE := false } else u := rfl
  have hpolled := release_spec hpoll
  have htsame : sequenceOf t = Sequence.free →
      ∀ v < NUM_VIRTUAL_BUTTONS, t.eeprom v = s.eeprom v := by
    intro hfree v hv
    rw [hteeprom v hv, combo_eq_free (htsequence.symm.trans hfree)]
    rfl
  rw [hpolled.1, hpolled.2.1, hreleased]
  simp only [hpolled.2.2]
  rw [hpress]
  refine ⟨?_, ?_, ?_⟩
  · rw [hu.sequence, htsequence]
    rfl
  · intro v hv
    rw [hu.eeprom, List.foldl_append, htsequence]
    exact foldl_apply_congr _ hteeprom v hv
  · intro d hd
    have hdark : shown t d = false := by
      change (t.n64_status_buffer d.1).getLsbD d.2 = false
      rw [htstatus, hstatus]
      exact BitVec.getLsbD_zero
    rw [hu.status d hd, hdark]
    simp only [Bool.false_eq_true, false_or, pressOf]
    rw [← htsequence]
    refine and_congr_right fun hfree => exists_congr fun v => and_congr_right fun hv => ?_
    rw [htsame hfree v (virtualButtons_lt _ v hv)]

theorem run_cons (s : Firmware) (packet : GamecubeBuffer) (packets : List GamecubeBuffer) :
    run s (packet :: packets) = run (poll s packet) packets := List.foldl_cons ..

theorem run_spec (s : Firmware) (packets : List GamecubeBuffer) :
    sequenceOf (run s packets) = (presses s packets).foldl Sequence.next (sequenceOf s) ∧
    ∀ v < NUM_VIRTUAL_BUTTONS, (run s packets).eeprom v =
      ((sequenceOf s).edits (presses s packets)).foldl Edit.apply s.eeprom v := by
  induction packets generalizing s with
  | nil => exact ⟨rfl, fun _ _ => rfl⟩
  | cons packet packets ih =>
    obtain ⟨hsequence, heeprom, -⟩ := poll_spec s packet
    obtain ⟨hrun, hmap⟩ := ih (poll s packet)
    rw [hsequence] at hrun hmap
    rw [run_cons, presses, List.foldl_cons, Sequence.edits]
    refine ⟨hrun, fun v hv => ?_⟩
    rw [List.foldl_append, hmap v hv]
    exact foldl_apply_congr _ heeprom v hv

end Poll

/-- The map of the EEPROM after a run of polls, and what the next poll shows to the N64. -/
theorem remapping_run (s : Firmware) (packets : List GamecubeBuffer) :
    let start := startup s
    let sequence := (presses start packets).foldl Sequence.next Sequence.free
    let map := (Sequence.free.edits (presses start packets)).foldl Edit.apply (stored s.eeprom)
    (∀ v < NUM_VIRTUAL_BUTTONS, (run start packets).eeprom v = map v) ∧
    ∀ packet : GamecubeBuffer, ∀ d : Pin 4, d.1 < 2 →
      (shown (poll (run start packets) packet) d ↔
        sequence.combo (press (run start packets) packet).combo = Sequence.free ∧
          ∃ v ∈ (press (run start packets) packet).buttons,
            n64_buttons.lookup (map v) = some d) := by
  intro start sequence map
  obtain ⟨hsequence, heeprom⟩ := run_spec start packets
  rw [startup_sequence] at hsequence heeprom
  have hmap : ∀ v < NUM_VIRTUAL_BUTTONS, (run start packets).eeprom v = map v := fun v hv =>
    (heeprom v hv).trans (foldl_apply_congr _ (fun v hv => startup_eeprom s hv) v hv)
  refine ⟨hmap, fun packet d hd => ?_⟩
  obtain ⟨-, -, hshown⟩ := poll_spec (run start packets) packet
  rw [hshown d hd, hsequence]
  refine and_congr_right fun _ => exists_congr fun v => and_congr_right fun hv => ?_
  rw [hmap v (virtualButtons_lt _ v hv)]

end NaviMisc.Wasabi.Cube64
