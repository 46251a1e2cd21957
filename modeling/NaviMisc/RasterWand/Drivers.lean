import Mathlib.Data.BitVec
import Mathlib.Tactic.Ring

/-!
The two drivers of the raster wand on their host: kernel/rwand.c and userspace/rwd.c.
-/

namespace NaviMisc.RasterWand

abbrev int := BitVec 32

section Common

structure Filter where
  buffer : Fin 256 → int
  total : int
  n_values : int
  pointer : Fin 256

def FILTER_SIZE : int := 256

def PERIOD_TOLERANCE : int := 20

def STABILIZER_EDGES : int := 8

def filter_push (filter : Filter) (new_value : int) : Filter × int :=
  let filter :=
    if FILTER_SIZE.slt filter.n_values then
      { filter with total := filter.total - filter.buffer filter.pointer }
    else { filter with n_values := filter.n_values + 1 }
  let total := filter.total + new_value
  ({ filter with
      buffer := Function.update filter.buffer filter.pointer new_value
      total := total
      pointer := filter.pointer + 1 },
    total.sdiv filter.n_values)

def filter_reset (filter : Filter) : Filter :=
  { filter with total := 0, n_values := 0, pointer := 0 }

structure Timings where
  column_width : int
  gap_width : int
  fwd_phase : int
  rev_phase : int
  coil_begin : int
  coil_end : int

structure Settings where
  display_center : int
  display_width : int
  coil_center : int
  coil_width : int
  duty_cycle : int
  fine_adjust : int
  num_columns : int

def rwand_calc_timings (settings : Settings) (period : int) : Timings :=
  let coil_begin :=
    (period * (settings.coil_center - settings.coil_width.sdiv 2)).sshiftRight 16
  let coil_end := (period * (settings.coil_center + settings.coil_width.sdiv 2)).sshiftRight 16
  if (0 : int).slt settings.num_columns then
    let col_and_gap_width :=
      (period.sdiv settings.num_columns * settings.display_width).sshiftRight 17
    let column_width := (col_and_gap_width * settings.duty_cycle).sshiftRight 16
    let gap_width := col_and_gap_width - column_width
    let total_width := settings.num_columns * column_width + (settings.num_columns - 1) * gap_width
    let fwd_phase := (period * settings.display_center).sshiftRight 17 - total_width.sdiv 2
    { column_width, gap_width, fwd_phase, coil_begin, coil_end
      rev_phase := period - fwd_phase - total_width + settings.fine_adjust }
  else
    { column_width := 1, gap_width := 1, fwd_phase := 0xFFFF, rev_phase := 0xFFFF, coil_begin,
      coil_end }

structure Startup where
  min_period : int
  max_period : int
  climb_rate : int

def Startup.restart (startup : Startup) (period : int) : int :=
  if startup.max_period.slt period || period.slt startup.min_period then
    if startup.climb_rate.slt 0 then startup.max_period else startup.min_period
  else period

structure Status where
  period : BitVec 16
  phase : BitVec 16
  edge_count : BitVec 8
  mode : BitVec 8
  flip_count : BitVec 8
  buttons : BitVec 8

def RWAND_MODE_ENABLE_SYNC : BitVec 8 := 0x01
def RWAND_MODE_ENABLE_COIL : BitVec 8 := 0x02
def RWAND_MODE_ENABLE_DISPLAY : BitVec 8 := 0x04
def RWAND_MODE_STALL_DETECT : BitVec 8 := 0x10
def RWAND_BUTTON_POWER : BitVec 8 := 0x20

def Status.displays (status : Status) : Bool := status.mode &&& RWAND_MODE_ENABLE_DISPLAY ≠ 0

inductive State
  | STATE_OFF
  | STATE_STARTING
  | STATE_STABILIZING
  | STATE_RUNNING
  deriving DecidableEq

open State

inductive Control
  | RWAND_CTRL_SET_COIL_PHASE
  | RWAND_CTRL_SET_MODES
  | RWAND_CTRL_SET_DISPLAY_PHASE
  | RWAND_CTRL_SET_COLUMN_WIDTH
  | RWAND_CTRL_FLIP
  | RWAND_CTRL_SET_PERIOD
  | RWAND_CTRL_SET_NUM_COLUMNS
  | RWAND_CTRL_SEQ_WRITE4
  deriving DecidableEq

open Control

structure Request where
  bRequest : Control
  wValue : BitVec 16
  wIndex : BitVec 16

def request (bRequest : Control) (wValue wIndex : int) : Request :=
  ⟨bRequest, wValue.setWidth 16, wIndex.setWidth 16⟩

def coilRequest (timings : Timings) : Request :=
  request RWAND_CTRL_SET_COIL_PHASE timings.coil_begin timings.coil_end

def timingRequests (timings : Timings) (num_columns : int) : List Request :=
  [coilRequest timings,
    request RWAND_CTRL_SET_COLUMN_WIDTH timings.column_width timings.gap_width,
    request RWAND_CTRL_SET_DISPLAY_PHASE timings.fwd_phase timings.rev_phase,
    request RWAND_CTRL_SET_NUM_COLUMNS num_columns 0]

def seqWrites (data : List (BitVec 8)) : ℕ → List Request
  | 0 => []
  | n + 1 =>
    { bRequest := RWAND_CTRL_SEQ_WRITE4
      wValue := data.getD 1 0 ++ data.getD 0 0
      wIndex := data.getD 3 0 ++ data.getD 2 0 } :: seqWrites (data.drop 4) n

end Common

open State Control

namespace Kernel

inductive PowerMode
  | RWAND_POWER_SWITCH
  | RWAND_POWER_OFF
  | RWAND_POWER_ON
  | RWAND_POWER_AUTO
  | other

structure Intrinsics where
  coil_center : int
  coil_width : int
  fine_adjust : int
  starting_edges : int
  startup : Startup

structure Dev where
  settings : Settings
  power_mode : PowerMode
  settings_dirty : Bool
  intrinsics : Intrinsics
  startup : Startup
  status : Status
  state : State
  period_filter : Filter
  filtered_period : int
  edge_count : int
  state_timer : int
  page_flip_pending : Bool
  open_count : int
  sent : List Request

variable (HZ jiffies : int) (dev : Dev) (new_status : Status)

def ravinia : Intrinsics := ⟨0x4000, 0x7000, -185, 20, ⟨45000, 50000, 700⟩⟩

def fascinations_xp3 : Intrinsics := ⟨0x4000, 0x7000, -80, 100, ⟨42316, 42818, 4662⟩⟩

def model_table : List (BitVec 8 × Intrinsics) := [(1, ravinia), (2, fascinations_xp3)]

def rwand_set_model (model : BitVec 8) : Intrinsics := (model_table.lookup model).getD ravinia

def rwand_nb_request (requests : List Request) : Dev := { dev with sent := dev.sent ++ requests }

def rwand_ensure_mode (mode : BitVec 8) : Dev :=
  if new_status.mode ≠ mode then
    rwand_nb_request dev [request RWAND_CTRL_SET_MODES (mode.setWidth 32) 0]
  else dev

def rwand_enter_state_off : Dev := { dev with state := STATE_OFF }

def rwand_enter_state_starting : Dev :=
  { dev with state := STATE_STARTING, edge_count := 0, state_timer := jiffies }

def rwand_enter_state_stabilizing : Dev :=
  { dev with state := STATE_STABILIZING, edge_count := 0, state_timer := jiffies + HZ }

def rwand_enter_state_running : Dev := { dev with state := STATE_RUNNING }

def rwand_update_state_off : Dev := rwand_ensure_mode dev new_status 0

def rwand_update_state_starting : Dev :=
  let dt := jiffies - dev.state_timer
  let dev := { dev with state_timer := jiffies }
  let dev := rwand_ensure_mode dev new_status RWAND_MODE_ENABLE_COIL
  let new_period := dev.startup.restart (new_status.period.setWidth 32)
  let new_period := new_period + (dt * dev.startup.climb_rate).sdiv HZ
  let dev := rwand_nb_request dev [request RWAND_CTRL_SET_PERIOD new_period 0,
    coilRequest (rwand_calc_timings dev.settings new_period)]
  if dev.intrinsics.starting_edges.slt dev.edge_count then
    rwand_enter_state_stabilizing HZ jiffies dev
  else dev

def rwand_update_state_stabilizing : Dev :=
  let dev := rwand_ensure_mode dev new_status (RWAND_MODE_ENABLE_SYNC ||| RWAND_MODE_ENABLE_COIL)
  if STABILIZER_EDGES.slt dev.edge_count then rwand_enter_state_running dev
  else if (dev.state_timer - jiffies).slt 0 then rwand_enter_state_starting jiffies dev
  else dev

def rwand_update_state_running : Dev :=
  let dev := rwand_ensure_mode dev new_status (RWAND_MODE_STALL_DETECT |||
    RWAND_MODE_ENABLE_SYNC ||| RWAND_MODE_ENABLE_COIL ||| RWAND_MODE_ENABLE_DISPLAY)
  if dev.status.displays && !new_status.displays then rwand_enter_state_starting jiffies dev
  else
    let dev :=
      if new_status.mode ≠ dev.status.mode then
        { dev with settings_dirty := true, period_filter := filter_reset dev.period_filter }
      else dev
    let pushed := filter_push dev.period_filter (new_status.period.setWidth 32)
    let dev := { dev with period_filter := pushed.1 }
    let dev :=
      if PERIOD_TOLERANCE.slt (pushed.2 - dev.filtered_period).abs then
        { dev with settings_dirty := true, filtered_period := pushed.2 }
      else dev
    if dev.settings_dirty then
      let dev := rwand_nb_request dev
        (timingRequests (rwand_calc_timings dev.settings pushed.2) dev.settings.num_columns)
      { dev with settings_dirty := false }
    else dev

def rwand_decode_status (in_ : Fin 8 → BitVec 8) : Status where
  period := in_ 1 ++ in_ 0
  phase := in_ 3 ++ in_ 2
  edge_count := in_ 4
  mode := in_ 5
  flip_count := in_ 6
  buttons := in_ 7

def power : Bool :=
  match dev.power_mode with
  | .RWAND_POWER_ON => true
  | .RWAND_POWER_SWITCH => new_status.buttons &&& RWAND_BUTTON_POWER ≠ 0
  | .RWAND_POWER_AUTO => dev.open_count ≠ 0
  | .RWAND_POWER_OFF | .other => false

def update_edge_count : Dev :=
  { dev with edge_count := dev.edge_count +
    ((new_status.edge_count.setWidth 32 - dev.status.edge_count.setWidth 32) &&& 0xFF) }

def update_power : Dev :=
  if power dev new_status then
    if dev.state = STATE_OFF then rwand_enter_state_starting jiffies dev else dev
  else if dev.state ≠ STATE_OFF then rwand_enter_state_off dev
  else dev

def update_state : Dev :=
  match dev.state with
  | STATE_OFF => rwand_update_state_off dev new_status
  | STATE_STARTING => rwand_update_state_starting HZ jiffies dev new_status
  | STATE_STABILIZING => rwand_update_state_stabilizing jiffies dev new_status
  | STATE_RUNNING => rwand_update_state_running jiffies dev new_status

def rwand_process_status (packet : Fin 8 → BitVec 8) : Dev :=
  let new_status := rwand_decode_status packet
  let dev :=
    if new_status.flip_count ≠ dev.status.flip_count then { dev with page_flip_pending := false }
    else dev
  let dev := update_edge_count dev new_status
  let dev := update_power jiffies dev new_status
  { update_state HZ jiffies dev new_status with status := new_status }

def rwand_open : Dev := { dev with open_count := dev.open_count + 1 }

def rwand_release : Dev :=
  if dev.open_count.sle 0 then dev else { dev with open_count := dev.open_count - 1 }

def put_settings (settings : Settings) (power_mode : PowerMode) : Dev :=
  { dev with settings, power_mode, settings_dirty := true }

def put_startup (startup : Startup) : Dev := { dev with startup }

def RWAND_FB_BYTES : ℕ := 80

def rwand_update_fb (fb : List (BitVec 8)) (bytes : ℕ) : Dev :=
  let dev :=
    if BitVec.ofNat 32 bytes ≠ dev.settings.num_columns then
      { dev with
        settings := { dev.settings with num_columns := BitVec.ofNat 32 bytes }
        settings_dirty := true }
    else dev
  rwand_nb_request dev (seqWrites fb ((bytes + 3) / 4))

def rwand_request_flip : Dev :=
  rwand_nb_request { dev with page_flip_pending := true } [request RWAND_CTRL_FLIP 0 0]

/-- `slack` is what the local frame buffer holds after the bytes that are written. -/
def rwand_write (buffer slack : List (BitVec 8)) : Dev :=
  if buffer = [] then dev
  else
    let new_fb := buffer.take RWAND_FB_BYTES
    rwand_request_flip (rwand_update_fb dev (new_fb ++ slack) new_fb.length)

def rwand_probe (model : BitVec 8) : Dev :=
  let intrinsics := rwand_set_model model
  { settings :=
      { display_center := 0x8000
        display_width := 0x6000
        coil_center := intrinsics.coil_center
        coil_width := intrinsics.coil_width
        duty_cycle := 0xA000
        fine_adjust := intrinsics.fine_adjust
        num_columns := 0 }
    power_mode := .RWAND_POWER_SWITCH
    settings_dirty := false
    intrinsics
    startup := intrinsics.startup
    status := ⟨0, 0, 0, 0, 0, 0⟩
    state := STATE_OFF
    period_filter := ⟨fun _ => 0, 0, 0, 0⟩
    filtered_period := 0
    edge_count := 0
    state_timer := 0
    page_flip_pending := false
    open_count := 0
    sent := [] }

end Kernel

namespace Rwd

structure Intrinsics where
  settings : Settings
  startup : Startup
  starting_edges : int

structure Timeval where
  tv_sec : int
  tv_usec : int

def Timeval.before (a b : Timeval) : Bool :=
  a.tv_sec.slt b.tv_sec || a.tv_sec = b.tv_sec && a.tv_usec.slt b.tv_usec

structure Device where
  state : State
  modes : int
  edge_count : int
  filtered_period : int
  settings_dirty : Bool
  flip_pending : Bool
  power : int
  state_timer : Timeval
  last_status_urb : Status
  filter : Filter
  settings : Settings
  intrinsics : Intrinsics
  sent : List Request

def ravinia : Intrinsics :=
  ⟨⟨0x8000, 0x7C00, 0x4000, 0x7000, 0xA000, -185, 80⟩, ⟨45000, 50000, 700⟩, 20⟩

def fascinations_xp3 : Intrinsics :=
  ⟨⟨0x8000, 0x7C00, 0x4000, 0x6400, 0xA000, -80, 80⟩, ⟨42316, 42818, 4662⟩, 100⟩

def model_table : List (BitVec 8 × Intrinsics) := [(1, ravinia), (2, fascinations_xp3)]

def rwand_set_model (model : BitVec 8) : Intrinsics := (model_table.lookup model).getD ravinia

variable (device : Device) (status_urb : Status)

def control_write_async (requests : List Request) : Device :=
  { device with sent := device.sent ++ requests }

def rwand_set_modes (modes : BitVec 8) : Device :=
  if modes.setWidth 32 ≠ device.modes then
    control_write_async { device with modes := modes.setWidth 32 }
      [request RWAND_CTRL_SET_MODES (modes.setWidth 32) 0]
  else device

def rwand_write_frame (data : List (BitVec 8)) (width : ℕ) : Device :=
  let device :=
    if BitVec.ofNat 32 width ≠ device.settings.num_columns then
      { device with
        settings := { device.settings with num_columns := BitVec.ofNat 32 width }
        settings_dirty := true }
    else device
  let device := control_write_async device (seqWrites data ((width + 3) / 4))
  let device := control_write_async device [request RWAND_CTRL_FLIP 0 0]
  { device with flip_pending := true }

def rwand_enter_state_off : Device := { device with state := STATE_OFF }

def rwand_enter_state_starting (now : Timeval) : Device :=
  { device with state := STATE_STARTING, edge_count := 0, state_timer := now }

def STABILIZER_SECONDS : int := 1

def rwand_enter_state_stabilizing (now : Timeval) : Device :=
  { device with
    state := STATE_STABILIZING
    edge_count := 0
    state_timer := { now with tv_sec := now.tv_sec + STABILIZER_SECONDS } }

def rwand_enter_state_running : Device := { device with state := STATE_RUNNING }

def rwand_update_state_off : Device := rwand_set_modes device 0

def rwand_update_state_starting (now entry : Timeval) : Device :=
  let startup := device.intrinsics.startup
  let device := rwand_set_modes device RWAND_MODE_ENABLE_COIL
  let old_period : int := status_urb.period.setWidth 32
  let new_period := startup.restart old_period
  let new_period := new_period + ((now.tv_sec - device.state_timer.tv_sec) * startup.climb_rate +
    ((now.tv_usec - device.state_timer.tv_usec) * startup.climb_rate).sdiv 1000000)
  let device :=
    if PERIOD_TOLERANCE.slt (new_period - old_period).abs then
      control_write_async { device with state_timer := now }
        [request RWAND_CTRL_SET_PERIOD new_period 0,
          coilRequest (rwand_calc_timings device.settings new_period)]
    else device
  -- The count is unsigned, and so is the comparison.
  if device.intrinsics.starting_edges < device.edge_count then
    rwand_enter_state_stabilizing device entry
  else device

def rwand_update_state_stabilizing (now entry : Timeval) : Device :=
  let device := rwand_set_modes device (RWAND_MODE_ENABLE_SYNC ||| RWAND_MODE_ENABLE_COIL)
  if STABILIZER_EDGES < device.edge_count then rwand_enter_state_running device
  else if device.state_timer.before now then rwand_enter_state_starting device entry
  else device

def rwand_update_state_running (entry : Timeval) : Device :=
  let device := rwand_set_modes device (RWAND_MODE_STALL_DETECT ||| RWAND_MODE_ENABLE_SYNC |||
    RWAND_MODE_ENABLE_COIL ||| RWAND_MODE_ENABLE_DISPLAY)
  if device.last_status_urb.displays && !status_urb.displays then
    rwand_enter_state_starting device entry
  else
    let device :=
      if device.last_status_urb.mode ≠ status_urb.mode then
        { device with settings_dirty := true, filter := filter_reset device.filter }
      else device
    let pushed := filter_push device.filter (status_urb.period.setWidth 32)
    let device := { device with filter := pushed.1 }
    if device.settings_dirty || PERIOD_TOLERANCE.slt (pushed.2 - device.filtered_period).abs then
      control_write_async { device with settings_dirty := false, filtered_period := pushed.2 }
        (timingRequests (rwand_calc_timings device.settings pushed.2) device.settings.num_columns)
    else device

def update_edge_count : Device :=
  { device with edge_count := device.edge_count +
    (status_urb.edge_count.setWidth 32 - device.last_status_urb.edge_count.setWidth 32) }

def update_power (now : Timeval) : Device :=
  if device.power ≠ 0 then
    if device.state = STATE_OFF then rwand_enter_state_starting device now else device
  else if device.state ≠ STATE_OFF then rwand_enter_state_off device
  else device

def update_state (now entry : Timeval) : Device :=
  match device.state with
  | STATE_OFF => rwand_update_state_off device
  | STATE_STARTING => rwand_update_state_starting device status_urb now entry
  | STATE_STABILIZING => rwand_update_state_stabilizing device now entry
  | STATE_RUNNING => rwand_update_state_running device status_urb entry

local instance neZeroClock : NeZero 3 := ⟨by decide⟩

/-- The clock is read up to three times: on entering a state because the power is on, by the state's
handler, and on entering a state from there. -/
def status_urb_complete (clock : Fin 3 → Timeval) : Device :=
  let device := update_edge_count device status_urb
  let device :=
    if device.flip_pending && status_urb.flip_count ≠ device.last_status_urb.flip_count then
      { device with flip_pending := false }
    else device
  let device := update_power device (clock 0)
  { update_state device status_urb (clock 1) (clock 2) with last_status_urb := status_urb }

section Commands

abbrev Buffer := List (BitVec 8)

def chars (text : String) : Buffer := text.toList.map fun c => BitVec.ofNat 8 c.toNat

def delim : Buffer := chars " \t"

/-- The next token of the string that `buffer` starts with, and what follows it: a delimiter is
overwritten by the end of the token and left behind, the end of the string is not. -/
def strtok_r (buffer : Buffer) : Option (Buffer × Buffer) :=
  let start := buffer.dropWhile (· ∈ delim)
  let token := start.takeWhile fun c => c ∉ delim ∧ c ≠ 0
  if token = [] then none
  else
    match start.drop token.length with
    | 0 :: rest => some (token, 0 :: rest)
    | _ :: rest => some (token, rest)
    | [] => some (token, [])

def hexdigit_to_int (digit : BitVec 8) : BitVec 8 :=
  if 0x30 ≤ digit ∧ digit ≤ 0x39 then digit - 0x30
  else if 0x61 ≤ digit ∧ digit ≤ 0x66 then digit - 0x61 + 10
  else if 0x41 ≤ digit ∧ digit ≤ 0x46 then digit - 0x41 + 10
  else 0

def hex_to_bin_inplace : Buffer → Buffer
  | [] => []
  | [c] => [hexdigit_to_int c <<< 4 ||| hexdigit_to_int 0]
  | c :: d :: rest => (hexdigit_to_int c <<< 4 ||| hexdigit_to_int d) :: hex_to_bin_inplace rest

def isspace (c : BitVec 8) : Bool := c = 0x20 ∨ 0x09 ≤ c ∧ c ≤ 0x0D

def digits (text : Buffer) : int :=
  (text.takeWhile fun c => 0x30 ≤ c ∧ c ≤ 0x39).foldl
    (fun n c => 10 * n + (c - 0x30).setWidth 32) 0

def atoi (text : Buffer) : int :=
  match text.dropWhile isspace with
  | 0x2D :: rest => -digits rest
  | 0x2B :: rest => digits rest
  | text => digits text

def setting_names_table : List (String × (int → Settings → Settings)) :=
  [("display_center", fun x settings => { settings with display_center := x }),
    ("display_width", fun x settings => { settings with display_width := x }),
    ("coil_center", fun x settings => { settings with coil_center := x }),
    ("coil_width", fun x settings => { settings with coil_width := x }),
    ("duty_cycle", fun x settings => { settings with duty_cycle := x }),
    ("fine_adjust", fun x settings => { settings with fine_adjust := x })]

/-- `buffer` is the line buffer from the line on. A frame without data is the end of the daemon,
which reads its string through a null pointer. -/
def handle_command (buffer : Buffer) : Option Device :=
  match strtok_r buffer with
  | none => some device
  | some (command, rest) =>
    if command = chars "frame" then
      match strtok_r rest with
      | none => none
      | some (token, _) =>
        let frame := hex_to_bin_inplace token
        -- The string is converted in place, and what follows it stays behind.
        let start := rest.dropWhile (· ∈ delim)
        let data := frame ++ (token ++ 0 :: start.drop (token.length + 1)).drop frame.length
        some (rwand_write_frame device data frame.length)
    else if command = chars "setting" then
      match strtok_r rest with
      | none => some device
      | some (name, rest) =>
        match strtok_r rest with
        | none => some device
        | some (value, _) =>
          match setting_names_table.find? fun entry => chars entry.1 = name with
          | some entry => some { device with
              settings := entry.2 (atoi value) device.settings
              settings_dirty := true }
          | none => some device
    else if command = chars "power" then
      match strtok_r rest with
      | none => some device
      | some (value, _) => some { device with power := atoi value }
    else some device

end Commands

def cleared (model : BitVec 8) : Device where
  state := STATE_OFF
  modes := 0
  edge_count := 0
  filtered_period := 0
  settings_dirty := false
  flip_pending := false
  power := 1
  state_timer := ⟨0, 0⟩
  last_status_urb := ⟨0, 0, 0, 0, 0, 0⟩
  filter := ⟨fun _ => 0, 0, 0, 0⟩
  settings := (rwand_set_model model).settings
  intrinsics := rwand_set_model model
  sent := []

def rwand_init (model : BitVec 8) : Device :=
  let device := control_write_async (cleared model) [request RWAND_CTRL_SET_MODES 0 0]
  { rwand_write_frame device [0, 0, 0, 0] 1 with flip_pending := false }

end Rwd

end NaviMisc.RasterWand
