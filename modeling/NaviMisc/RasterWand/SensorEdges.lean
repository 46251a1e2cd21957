import NaviMisc.RasterWand.Drivers

/-!
The edges that the drivers of the raster wand count in a state, and the states they enter on them.
-/

namespace NaviMisc.RasterWand

open State

/-- What a driver counts with, and what it does with a packet that reports `d` new edges and with
what comes between the packets. -/
structure Driver (σ : Type) where
  state : σ → State
  edge_count : σ → int
  starting_edges : σ → ℕ
  packet : ℕ → σ → σ → Prop
  other : σ → σ → Prop

namespace Driver

variable {σ : Type}

inductive Run (D : Driver σ) (init : σ) : σ → ℕ → Prop
  | init : Run D init init 0
  | packet {s t : σ} {n d : ℕ} (run : Run D init s n) (lt : d < 256) (step : D.packet d s t) :
      Run D init t (if D.state t = D.state s then n + d else 0)
  | other {s t : σ} {n : ℕ} (run : Run D init s n) (step : D.other s t) : Run D init t n

def Counting (D : Driver σ) (s : σ) : Prop :=
  D.state s = STATE_STARTING ∨ D.state s = STATE_STABILIZING

structure CountsEdges (D : Driver σ) (s : σ) (n : ℕ) : Prop where
  count : D.Counting s → (D.edge_count s).toNat = n
  stabilizing : ∀ d t, d < 256 → D.packet d s t → D.state s = STATE_STARTING →
    D.state t = STATE_STABILIZING → D.starting_edges s < n + d
  running : ∀ d t, d < 256 → D.packet d s t → D.state s ≠ STATE_RUNNING →
    D.state t = STATE_RUNNING → D.state s = STATE_STABILIZING ∧ STABILIZER_EDGES.toNat < n + d

inductive Moves (starting_edges m : ℕ) : State → State → ℕ → Prop
  | off (s : State) (k : ℕ) : Moves starting_edges m s STATE_OFF k
  | start {s : State} (h : s ≠ STATE_STARTING) : Moves starting_edges m s STATE_STARTING 0
  | starting (h : m ≤ starting_edges) : Moves starting_edges m STATE_STARTING STATE_STARTING m
  | stabilize (h : starting_edges < m) :
      Moves starting_edges m STATE_STARTING STATE_STABILIZING 0
  | stabilizing (h : m ≤ STABILIZER_EDGES.toNat) :
      Moves starting_edges m STATE_STABILIZING STATE_STABILIZING m
  | run (k : ℕ) (h : STABILIZER_EDGES.toNat < m) :
      Moves starting_edges m STATE_STABILIZING STATE_RUNNING k
  | running (k : ℕ) : Moves starting_edges m STATE_RUNNING STATE_RUNNING k

def MOST_EDGES : ℕ := 100

structure Bounded (D : Driver σ) (s : σ) : Prop where
  starting_edges : D.starting_edges s ≤ MOST_EDGES
  edge_count : D.Counting s → (D.edge_count s).toNat ≤ MOST_EDGES

structure Sound (D : Driver σ) : Prop where
  packet : ∀ {s d t}, d < 256 → D.Bounded s → D.packet d s t →
    Moves (D.starting_edges s) ((D.edge_count s).toNat + d) (D.state s) (D.state t)
      (D.edge_count t).toNat
  packet_intrinsics : ∀ {s d t}, D.packet d s t → D.starting_edges t = D.starting_edges s
  other_state : ∀ {s t}, D.other s t → D.state t = D.state s
  other_edge_count : ∀ {s t}, D.other s t → D.edge_count t = D.edge_count s
  other_intrinsics : ∀ {s t}, D.other s t → D.starting_edges t = D.starting_edges s

variable {D : Driver σ} {init s t : σ} {n d : ℕ}

theorem Moves.bounded {starting_edges m k : ℕ} {a b : State} (h : Moves starting_edges m a b k)
    (hstarting : starting_edges ≤ MOST_EDGES)
    (hb : b = STATE_STARTING ∨ b = STATE_STABILIZING) : k ≤ MOST_EDGES := by
  cases h with
  | off | run | running => simp at hb
  | start | stabilize => exact Nat.zero_le _
  | starting h => exact Nat.le_trans h hstarting
  | stabilizing h => exact Nat.le_trans h (by decide)

theorem Moves.of_start {starting_edges k : ℕ} {b : State}
    (h : Moves starting_edges 0 STATE_STARTING b k) (m : ℕ) {a : State}
    (ha : a ≠ STATE_STARTING) : Moves starting_edges m a b k := by
  generalize hm : 0 = m₀ at h
  cases h with
  | off => exact .off a k
  | start h => exact absurd rfl h
  | starting h => exact hm ▸ .start ha
  | stabilize h => omega

theorem Sound.bounded (hD : D.Sound) (hd : d < 256) (hs : D.Bounded s) (h : D.packet d s t) :
    D.Bounded t := by
  have hstarting := hD.packet_intrinsics h
  exact ⟨hstarting ▸ hs.starting_edges, (hD.packet hd hs h).bounded hs.starting_edges⟩

theorem Moves.count {starting_edges m k : ℕ} {a b : State} (h : Moves starting_edges m a b k)
    (hb : b = STATE_STARTING ∨ b = STATE_STABILIZING) : k = if b = a then m else 0 := by
  cases h with
  | off | run | running => simp at hb
  | start h => rw [if_neg h.symm]
  | starting | stabilizing => rw [if_pos rfl]
  | stabilize => rfl

theorem Sound.run (hD : D.Sound) (hinit : D.Bounded init) (hoff : D.state init = STATE_OFF)
    (h : D.Run init s n) : D.Bounded s ∧ (D.Counting s → (D.edge_count s).toNat = n) := by
  induction h with
  | init =>
    refine ⟨hinit, ?_⟩
    rintro (h | h) <;> rw [hoff] at h <;> cases h
  | @packet s t n d run hd step ih =>
    obtain ⟨hbounded, hcount⟩ := ih
    refine ⟨hD.bounded hd hbounded step, fun ht => ?_⟩
    rw [(hD.packet hd hbounded step).count ht]
    split_ifs with hsame
    · rw [hcount (by rwa [Counting, ← hsame])]
    · rfl
  | @other s t n run step ih =>
    obtain ⟨hbounded, hcount⟩ := ih
    have hcounting : D.Counting t ↔ D.Counting s := by
      rw [Counting, Counting, hD.other_state step]
    refine ⟨⟨hD.other_intrinsics step ▸ hbounded.starting_edges, ?_⟩, ?_⟩
    · rw [hcounting, hD.other_edge_count step]
      exact hbounded.edge_count
    · rw [hcounting, hD.other_edge_count step]
      exact hcount

theorem Sound.countsEdges (hD : D.Sound) (hinit : D.Bounded init)
    (hoff : D.state init = STATE_OFF) (h : D.Run init s n) : D.CountsEdges s n := by
  obtain ⟨hbounded, hcount⟩ := hD.run hinit hoff h
  refine ⟨hcount, ?_, ?_⟩
  · intro d t hd hstep hs ht
    have hmoves := hD.packet hd hbounded hstep
    rw [hs, ht, hcount (.inl hs)] at hmoves
    generalize (D.edge_count t).toNat = k at hmoves
    cases hmoves with
    | stabilize h => exact h
  · intro d t hd hstep hs ht
    have hmoves := hD.packet hd hbounded hstep
    rw [ht] at hmoves
    generalize hstate : D.state s = a at hmoves hs
    cases hmoves with
    | run _ h => exact ⟨rfl, hcount (.inr hstate) ▸ h⟩
    | running => exact absurd rfl hs

end Driver

section added

theorem toNat_and_255 (x : int) : (x &&& 0xFF).toNat = x.toNat % 256 := by
  rw [BitVec.toNat_and]
  exact Nat.and_two_pow_sub_one_eq_mod x.toNat 8

theorem edges_added (last : BitVec 8) {d : ℕ} (hd : d < 256) :
    (((last + BitVec.ofNat 8 d).setWidth 32 - last.setWidth 32 : int) &&& 0xFF).toNat = d := by
  have := last.isLt
  rw [toNat_and_255, BitVec.toNat_sub, BitVec.toNat_setWidth, BitVec.toNat_setWidth,
    BitVec.toNat_add, BitVec.toNat_ofNat]
  omega

theorem edges_added_below (last : BitVec 8) {d : ℕ} (hd : last.toNat + d < 256) :
    ((last + BitVec.ofNat 8 d).setWidth 32 - last.setWidth 32 : int).toNat = d := by
  have := last.isLt
  rw [BitVec.toNat_sub, BitVec.toNat_setWidth, BitVec.toNat_setWidth,
    BitVec.toNat_add, BitVec.toNat_ofNat]
  omega

theorem slt_iff {x y : int} (hx : x.toNat < 2 ^ 31) (hy : y.toNat < 2 ^ 31) :
    x.slt y ↔ x.toNat < y.toNat := by
  rw [BitVec.slt_iff_toInt_lt, BitVec.toInt_eq_toNat_of_lt (by omega),
    BitVec.toInt_eq_toNat_of_lt (by omega), Int.ofNat_lt]

end added

namespace Kernel

open Driver

variable {HZ jiffies : int} {dev : Dev} {status : Status}

inductive Other (dev : Dev) : Dev → Prop
  | rwand_open : Other dev (rwand_open dev)
  | rwand_release : Other dev (rwand_release dev)
  | put_settings (settings : Settings) (power_mode : PowerMode) :
      Other dev (put_settings dev settings power_mode)
  | put_startup (startup : Startup) : Other dev (put_startup dev startup)
  | rwand_write (buffer slack : List (BitVec 8)) : Other dev (rwand_write dev buffer slack)

theorem Other.frame {dev' : Dev} (h : Other dev dev') {α : Type} (f : Dev → α)
    (hf : ∀ (dev : Dev) settings power_mode dirty startup pending count sent, f { dev with
      settings := settings
      power_mode := power_mode
      settings_dirty := dirty
      startup := startup
      page_flip_pending := pending
      open_count := count
      sent := sent } = f dev) : f dev' = f dev := by
  cases h with
  | rwand_open => exact hf dev _ _ _ _ _ _ _
  | rwand_release =>
    unfold Kernel.rwand_release
    split_ifs
    · rfl
    · exact hf dev _ _ _ _ _ _ _
  | put_settings => exact hf dev _ _ _ _ _ _ _
  | put_startup => exact hf dev _ _ _ _ _ _ _
  | rwand_write =>
    unfold Kernel.rwand_write rwand_update_fb
    simp only
    split_ifs
    · rfl
    · exact hf dev _ _ _ _ _ _ _
    · exact hf dev _ _ _ _ _ _ _

local instance neZeroPacket : NeZero 8 := ⟨by decide⟩

/-- The device's counter is `d` edges further than at the last packet. -/
def driver (HZ : int) : Driver Dev where
  state := Dev.state
  edge_count := Dev.edge_count
  starting_edges dev := dev.intrinsics.starting_edges.toNat
  packet d dev dev' := ∃ jiffies packet, packet 4 = dev.status.edge_count + BitVec.ofNat 8 d ∧
    dev' = rwand_process_status HZ jiffies dev packet
  other := Other

theorem ensure_mode_eq (dev : Dev) (status : Status) (mode : BitVec 8) :
    ∃ requests, rwand_ensure_mode dev status mode = rwand_nb_request dev requests := by
  unfold rwand_ensure_mode
  split_ifs
  · exact ⟨_, rfl⟩
  · refine ⟨[], ?_⟩
    rw [rwand_nb_request, List.append_nil]

theorem starting_moves (hstate : dev.state = STATE_STARTING)
    (hstarting : dev.intrinsics.starting_edges.toNat ≤ MOST_EDGES)
    (hcount : dev.edge_count.toNat < 2 ^ 31) :
    Moves dev.intrinsics.starting_edges.toNat dev.edge_count.toNat STATE_STARTING
      (rwand_update_state_starting HZ jiffies dev status).state
      (rwand_update_state_starting HZ jiffies dev status).edge_count.toNat := by
  obtain ⟨requests, hrequests⟩ :=
    ensure_mode_eq { dev with state_timer := jiffies } status RWAND_MODE_ENABLE_COIL
  have hlt : dev.intrinsics.starting_edges.slt dev.edge_count ↔
      dev.intrinsics.starting_edges.toNat < dev.edge_count.toNat :=
    slt_iff (Nat.lt_of_le_of_lt hstarting (by decide)) hcount
  unfold rwand_update_state_starting
  simp only [hrequests]
  split_ifs with h
  · exact .stabilize (hlt.mp h)
  · change Moves _ _ _ dev.state _
    rw [hstate]
    exact .starting (Nat.le_of_not_lt fun h' => h (hlt.mpr h'))

theorem stabilizing_moves (a : ℕ) (hstate : dev.state = STATE_STABILIZING)
    (hcount : dev.edge_count.toNat < 2 ^ 31) :
    Moves a dev.edge_count.toNat STATE_STABILIZING
      (rwand_update_state_stabilizing jiffies dev status).state
      (rwand_update_state_stabilizing jiffies dev status).edge_count.toNat := by
  obtain ⟨requests, hrequests⟩ :=
    ensure_mode_eq dev status (RWAND_MODE_ENABLE_SYNC ||| RWAND_MODE_ENABLE_COIL)
  have hlt : STABILIZER_EDGES.slt dev.edge_count ↔
      STABILIZER_EDGES.toNat < dev.edge_count.toNat := slt_iff (by decide) hcount
  unfold rwand_update_state_stabilizing
  simp only [hrequests]
  split_ifs with h
  · exact .run _ (hlt.mp h)
  · exact .start (by decide)
  · change Moves _ _ _ dev.state _
    rw [hstate]
    exact .stabilizing (Nat.le_of_not_lt fun h' => h (hlt.mpr h'))

theorem running_moves (a m : ℕ) (hstate : dev.state = STATE_RUNNING) :
    Moves a m STATE_RUNNING (rwand_update_state_running jiffies dev status).state
      (rwand_update_state_running jiffies dev status).edge_count.toNat := by
  obtain ⟨requests, hrequests⟩ := ensure_mode_eq dev status (RWAND_MODE_STALL_DETECT |||
    RWAND_MODE_ENABLE_SYNC ||| RWAND_MODE_ENABLE_COIL ||| RWAND_MODE_ENABLE_DISPLAY)
  unfold rwand_update_state_running
  simp only [hrequests]
  split_ifs
  · exact .start (by decide)
  all_goals
    change Moves _ _ _ dev.state _
    rw [hstate]
    exact .running _

theorem update_state_of_off (HZ jiffies : int) (status : Status)
    (hstate : dev.state = STATE_OFF) : (update_state HZ jiffies dev status).state = STATE_OFF := by
  obtain ⟨requests, hrequests⟩ := ensure_mode_eq dev status 0
  simp only [update_state, hstate, rwand_update_state_off, hrequests]
  exact hstate

theorem update_state_intrinsics (HZ jiffies : int) (dev : Dev) (status : Status) :
    (update_state HZ jiffies dev status).intrinsics = dev.intrinsics := by
  have hmode : ∀ dev mode, (rwand_ensure_mode dev status mode).intrinsics = dev.intrinsics := by
    intro dev mode
    obtain ⟨requests, hrequests⟩ := ensure_mode_eq dev status mode
    rw [hrequests]
    rfl
  unfold update_state
  split
  · exact hmode _ _
  · unfold rwand_update_state_starting
    simp only
    split_ifs <;> exact hmode _ _
  · unfold rwand_update_state_stabilizing
    simp only
    split_ifs <;> exact hmode _ _
  · unfold rwand_update_state_running
    simp only
    split_ifs <;> exact hmode _ _

theorem update_power_intrinsics (jiffies : int) (dev : Dev) (status : Status) :
    (update_power jiffies dev status).intrinsics = dev.intrinsics := by
  unfold update_power
  split_ifs <;> rfl

theorem process_status_intrinsics (HZ jiffies : int) (dev : Dev) (packet : Fin 8 → BitVec 8) :
    (rwand_process_status HZ jiffies dev packet).intrinsics = dev.intrinsics := by
  unfold rwand_process_status
  simp only [update_state_intrinsics, update_power_intrinsics]
  unfold update_edge_count
  split_ifs <;> rfl

theorem update_moves (m : ℕ) (hstarting : dev.intrinsics.starting_edges.toNat ≤ MOST_EDGES)
    (hcount : dev.state = STATE_STARTING ∨ dev.state = STATE_STABILIZING →
      dev.edge_count.toNat = m ∧ m < 2 ^ 31) :
    Moves dev.intrinsics.starting_edges.toNat m dev.state
      (update_state HZ jiffies (update_power jiffies dev status) status).state
      (update_state HZ jiffies (update_power jiffies dev status) status).edge_count.toNat := by
  unfold update_power
  split_ifs with hpower hoff hon
  · have hzero : (rwand_enter_state_starting jiffies dev).edge_count.toNat < 2 ^ 31 :=
      Nat.two_pow_pos 31
    have hstart := @starting_moves HZ jiffies (rwand_enter_state_starting jiffies dev) status rfl
      hstarting hzero
    exact hstart.of_start m (by rw [hoff]; decide)
  · unfold update_state
    cases hstate : dev.state with
    | STATE_OFF => exact absurd hstate hoff
    | STATE_STARTING =>
      obtain ⟨rfl, hlt⟩ := hcount (.inl hstate)
      exact starting_moves hstate hstarting hlt
    | STATE_STABILIZING =>
      obtain ⟨rfl, hlt⟩ := hcount (.inr hstate)
      exact stabilizing_moves _ hstate hlt
    | STATE_RUNNING => exact running_moves _ m hstate
  · rw [update_state_of_off HZ jiffies status rfl]
    exact .off _ _
  · rw [update_state_of_off HZ jiffies status (not_not.mp hon)]
    exact .off _ _

theorem counted_moves {d : ℕ} (hd : d < 256)
    (hbounded : (driver HZ).Bounded dev) (hedges : status.edge_count =
      dev.status.edge_count + BitVec.ofNat 8 d) :
    Moves dev.intrinsics.starting_edges.toNat (dev.edge_count.toNat + d) dev.state
      (update_state HZ jiffies (update_power jiffies (update_edge_count dev status) status)
        status).state
      (update_state HZ jiffies (update_power jiffies (update_edge_count dev status) status)
        status).edge_count.toNat := by
  have hmost : MOST_EDGES = 100 := rfl
  apply @update_moves HZ jiffies (update_edge_count dev status) status _ hbounded.starting_edges
  intro hcounting
  have hcount : dev.edge_count.toNat ≤ MOST_EDGES := hbounded.edge_count hcounting
  refine ⟨?_, by omega⟩
  rw [update_edge_count, hedges, BitVec.toNat_add, edges_added _ hd]
  omega

theorem sound (HZ : int) : (driver HZ).Sound where
  packet := by
    rintro dev d dev' hd hbounded ⟨jiffies, packet, hedges, rfl⟩
    unfold driver rwand_process_status
    simp only
    split_ifs
    · exact @counted_moves HZ jiffies { dev with page_flip_pending := false }
        (rwand_decode_status packet) d hd ⟨hbounded.starting_edges, hbounded.edge_count⟩ hedges
    · exact counted_moves hd hbounded hedges
  packet_intrinsics := by
    rintro dev d dev' ⟨jiffies, packet, -, rfl⟩
    exact congrArg (fun i => i.starting_edges.toNat)
      (process_status_intrinsics HZ jiffies dev packet)
  other_state := by
    rintro dev _ h
    exact h.frame Dev.state fun _ _ _ _ _ _ _ _ => rfl
  other_edge_count := by
    rintro dev _ h
    exact h.frame Dev.edge_count fun _ _ _ _ _ _ _ _ => rfl
  other_intrinsics := by
    rintro dev _ h
    exact h.frame (fun dev => dev.intrinsics.starting_edges.toNat) fun _ _ _ _ _ _ _ _ => rfl

end Kernel

namespace Rwd

open Driver

variable {device : Device} {status : Status} {now entry : Timeval} {d : ℕ}

/-- The device's counter is `d` edges further than at the last packet. -/
def driver : Driver Device where
  state := Device.state
  edge_count := Device.edge_count
  starting_edges device := device.intrinsics.starting_edges.toNat
  packet d device device' := ∃ status clock,
    status.edge_count = device.last_status_urb.edge_count + BitVec.ofNat 8 d ∧
      device' = status_urb_complete device status clock
  other device device' := ∃ buffer, handle_command device buffer = some device'

def Unwrapped (d : ℕ) (device : Device) : Prop :=
  driver.Counting device → device.power ≠ 0 → device.last_status_urb.edge_count.toNat + d < 256

def unwrapped : Driver Device :=
  { driver with packet := fun d device device' =>
      driver.packet d device device' ∧ Unwrapped d device }

theorem set_modes_eq (device : Device) (modes : BitVec 8) : ∃ m requests,
    rwand_set_modes device modes = control_write_async { device with modes := m } requests := by
  unfold rwand_set_modes
  split_ifs
  · exact ⟨_, _, rfl⟩
  · refine ⟨device.modes, [], ?_⟩
    rw [control_write_async, List.append_nil]

theorem starting_moves (hstate : device.state = STATE_STARTING) :
    Moves device.intrinsics.starting_edges.toNat device.edge_count.toNat STATE_STARTING
      (rwand_update_state_starting device status now entry).state
      (rwand_update_state_starting device status now entry).edge_count.toNat := by
  obtain ⟨modes, requests, hrequests⟩ := set_modes_eq device RWAND_MODE_ENABLE_COIL
  unfold rwand_update_state_starting
  simp only [hrequests]
  split_ifs with hperiod h h
  · exact .stabilize h
  · change Moves _ _ _ device.state _
    rw [hstate]
    exact .starting (Nat.le_of_not_lt h)
  · exact .stabilize h
  · change Moves _ _ _ device.state _
    rw [hstate]
    exact .starting (Nat.le_of_not_lt h)

theorem stabilizing_moves (a : ℕ) (hstate : device.state = STATE_STABILIZING) :
    Moves a device.edge_count.toNat STATE_STABILIZING
      (rwand_update_state_stabilizing device now entry).state
      (rwand_update_state_stabilizing device now entry).edge_count.toNat := by
  obtain ⟨modes, requests, hrequests⟩ :=
    set_modes_eq device (RWAND_MODE_ENABLE_SYNC ||| RWAND_MODE_ENABLE_COIL)
  unfold rwand_update_state_stabilizing
  simp only [hrequests]
  split_ifs with h
  · exact .run _ h
  · exact .start (by decide)
  · change Moves _ _ _ device.state _
    rw [hstate]
    exact .stabilizing (Nat.le_of_not_lt h)

theorem running_moves (a m : ℕ) (hstate : device.state = STATE_RUNNING) :
    Moves a m STATE_RUNNING (rwand_update_state_running device status entry).state
      (rwand_update_state_running device status entry).edge_count.toNat := by
  obtain ⟨modes, requests, hrequests⟩ := set_modes_eq device (RWAND_MODE_STALL_DETECT |||
    RWAND_MODE_ENABLE_SYNC ||| RWAND_MODE_ENABLE_COIL ||| RWAND_MODE_ENABLE_DISPLAY)
  unfold rwand_update_state_running
  simp only [hrequests]
  split_ifs
  · exact .start (by decide)
  all_goals
    change Moves _ _ _ device.state _
    rw [hstate]
    exact .running _

theorem update_state_of_off (status : Status) (now entry : Timeval)
    (hstate : device.state = STATE_OFF) :
    (update_state device status now entry).state = STATE_OFF := by
  obtain ⟨modes, requests, hrequests⟩ := set_modes_eq device 0
  simp only [update_state, hstate, rwand_update_state_off, hrequests]
  rfl

theorem update_state_intrinsics (device : Device) (status : Status) (now entry : Timeval) :
    (update_state device status now entry).intrinsics = device.intrinsics := by
  have hmode : ∀ device mode, (rwand_set_modes device mode).intrinsics = device.intrinsics := by
    intro device mode
    obtain ⟨modes, requests, hrequests⟩ := set_modes_eq device mode
    rw [hrequests]
    rfl
  unfold update_state
  split
  · exact hmode _ _
  · unfold rwand_update_state_starting
    simp only
    split_ifs <;> exact hmode _ _
  · unfold rwand_update_state_stabilizing
    simp only
    split_ifs <;> exact hmode _ _
  · unfold rwand_update_state_running
    simp only
    split_ifs <;> exact hmode _ _

theorem complete_intrinsics (device : Device) (status : Status) (clock : Fin 3 → Timeval) :
    (status_urb_complete device status clock).intrinsics = device.intrinsics := by
  unfold status_urb_complete
  simp only [update_state_intrinsics]
  unfold update_power update_edge_count
  split_ifs <;> rfl

theorem update_moves {first : Timeval} (m : ℕ)
    (hcount : driver.Counting device → device.power ≠ 0 → device.edge_count.toNat = m) :
    Moves device.intrinsics.starting_edges.toNat m device.state
      (update_state (update_power device first) status now entry).state
      (update_state (update_power device first) status now entry).edge_count.toNat := by
  unfold update_power
  split_ifs with hpower hoff hon
  · have hstart := @starting_moves (rwand_enter_state_starting device first) status now entry rfl
    exact hstart.of_start m (by rw [hoff]; decide)
  · unfold update_state
    cases hstate : device.state with
    | STATE_OFF => exact absurd hstate hoff
    | STATE_STARTING =>
      obtain rfl := hcount (.inl hstate) hpower
      exact starting_moves hstate
    | STATE_STABILIZING =>
      obtain rfl := hcount (.inr hstate) hpower
      exact stabilizing_moves _ hstate
    | STATE_RUNNING => exact running_moves _ m hstate
  · rw [update_state_of_off status now entry rfl]
    exact .off _ _
  · rw [update_state_of_off status now entry (not_not.mp hon)]
    exact .off _ _

theorem counted_moves {first : Timeval} (hbounded : driver.Bounded device)
    (hunwrapped : Unwrapped d device)
    (hedges : status.edge_count = device.last_status_urb.edge_count + BitVec.ofNat 8 d) :
    Moves device.intrinsics.starting_edges.toNat (device.edge_count.toNat + d) device.state
      (update_state (update_power (update_edge_count device status) first) status now entry).state
      (update_state (update_power (update_edge_count device status) first) status now
        entry).edge_count.toNat := by
  have hmost : MOST_EDGES = 100 := rfl
  apply @update_moves (update_edge_count device status) status now entry first
  intro hcounting hpower
  have hcount : device.edge_count.toNat ≤ MOST_EDGES := hbounded.edge_count hcounting
  have hlt := hunwrapped hcounting hpower
  rw [update_edge_count, hedges, BitVec.toNat_add, edges_added_below _ hlt]
  omega

theorem frame_of_handle_command {buffer : Buffer} {device' : Device}
    (h : handle_command device buffer = some device') {α : Type} (f : Device → α)
    (hf : ∀ (device : Device) settings dirty pending power sent, f { device with
      settings := settings
      settings_dirty := dirty
      flip_pending := pending
      power := power
      sent := sent } = f device) : f device' = f device := by
  unfold handle_command at h
  split at h
  · cases h
    rfl
  · split_ifs at h
    · split at h
      · cases h
      · cases h
        unfold rwand_write_frame
        simp only
        split_ifs <;> exact hf device _ _ _ _ _
    · split at h
      · cases h
        rfl
      · split at h
        · cases h
          rfl
        · split at h <;> cases h
          · exact hf device _ _ _ _ _
          · rfl
    · split at h <;> cases h
      · rfl
      · exact hf device _ _ _ _ _
    · cases h
      rfl

theorem sound : unwrapped.Sound where
  packet := by
    rintro device d device' hd hbounded ⟨⟨status, clock, hedges, rfl⟩, hunwrapped⟩
    have hbounded : driver.Bounded device := ⟨hbounded.starting_edges, hbounded.edge_count⟩
    unfold unwrapped driver status_urb_complete
    simp only
    split_ifs
    · exact @counted_moves { device with flip_pending := false } status (clock 1) (clock 2) d
        (clock 0) ⟨hbounded.starting_edges, hbounded.edge_count⟩ hunwrapped hedges
    · exact counted_moves hbounded hunwrapped hedges
  packet_intrinsics := by
    rintro device d device' ⟨⟨status, clock, -, rfl⟩, -⟩
    exact congrArg (fun i => i.starting_edges.toNat) (complete_intrinsics device status clock)
  other_state := by
    rintro device _ ⟨buffer, h⟩
    exact frame_of_handle_command h Device.state fun _ _ _ _ _ _ => rfl
  other_edge_count := by
    rintro device _ ⟨buffer, h⟩
    exact frame_of_handle_command h Device.edge_count fun _ _ _ _ _ _ => rfl
  other_intrinsics := by
    rintro device _ ⟨buffer, h⟩
    exact frame_of_handle_command h (fun device => device.intrinsics.starting_edges.toNat)
      fun _ _ _ _ _ _ => rfl

theorem init_eq (model : BitVec 8) : ∃ settings dirty sent, rwand_init model =
    { cleared model with settings := settings, settings_dirty := dirty, sent := sent } := by
  unfold rwand_init rwand_write_frame
  simp only
  split_ifs <;> exact ⟨_, _, _, rfl⟩

theorem init_off (model : BitVec 8) : unwrapped.state (rwand_init model) = STATE_OFF := by
  obtain ⟨settings, dirty, sent, h⟩ := init_eq model
  rw [h]
  rfl

theorem bounded_init (model : BitVec 8) : unwrapped.Bounded (rwand_init model) := by
  have hmodel : ∀ model, (rwand_set_model model).starting_edges.toNat ≤ MOST_EDGES := by
    decide
  obtain ⟨settings, dirty, sent, h⟩ := init_eq model
  rw [h]
  exact ⟨hmodel model, fun _ => Nat.zero_le _⟩

end Rwd

theorem Kernel.bounded_probe (HZ : int) (model : BitVec 8) :
    (Kernel.driver HZ).Bounded (Kernel.rwand_probe model) := by
  have hmodel : ∀ model, (Kernel.rwand_set_model model).starting_edges.toNat ≤
      Driver.MOST_EDGES := by
    decide
  exact ⟨hmodel model, fun _ => Nat.zero_le _⟩

open Driver in
theorem edges_counted (model : BitVec 8) :
    (∀ HZ dev n, (Kernel.driver HZ).Run (Kernel.rwand_probe model) dev n →
      (Kernel.driver HZ).CountsEdges dev n) ∧
      ∀ device n, Rwd.unwrapped.Run (Rwd.rwand_init model) device n →
        Rwd.unwrapped.CountsEdges device n := by
  constructor
  · intro HZ dev n hrun
    exact (Kernel.sound HZ).countsEdges (Kernel.bounded_probe HZ model) rfl hrun
  · intro device n hrun
    exact Rwd.sound.countsEdges (Rwd.bounded_init model) (Rwd.init_off model) hrun

def Rwd.counted (device : Device) (count : BitVec 8) : Device :=
  status_urb_complete device ⟨45000, 0, count, 0, 0, 0⟩ fun _ => ⟨0, 0⟩

open Driver Rwd in
/-- The counter wraps from 250 to 2, and the eight edges are counted as 2³² - 248. -/
theorem wrap_starts : ¬∀ model device n, driver.Run (rwand_init model) device n →
    driver.CountsEdges device n := by
  intro h
  have hfirst : driver.packet 250 (rwand_init 1) (counted (rwand_init 1) 250) :=
    ⟨_, _, rfl, rfl⟩
  have hwrap : driver.packet 8 (counted (rwand_init 1) 250)
      (counted (counted (rwand_init 1) 250) 2) := ⟨_, _, rfl, rfl⟩
  have hcounts := h 1 _ _ (.packet .init (by decide) hfirst)
  exact absurd (hcounts.stabilizing 8 _ (by decide) hwrap (by decide) (by decide)) (by decide)

open Driver Rwd in
theorem edges_counted_first : unwrapped.CountsEdges (counted (rwand_init 1) 250) 0 := by
  have hfirst : unwrapped.packet 250 (rwand_init 1) (counted (rwand_init 1) 250) := by
    refine ⟨⟨_, _, rfl, rfl⟩, ?_⟩
    rintro (h | h) <;> exact absurd h (by decide)
  exact (edges_counted 1).2 _ _ (.packet .init (by decide) hfirst)

end NaviMisc.RasterWand
