import Mathlib.Data.BitVec
import Mathlib.Data.List.Range
import Mathlib.Tactic.Ring

/-!
The scan of the PCI busses (metalkit/lib/pci.c).
-/

namespace NaviMisc.Metalkit.Pci

structure PCIAddress where
  bus : BitVec 8
  device : BitVec 8
  function : BitVec 8
  deriving DecidableEq

structure PCIScanState where
  vendorId : BitVec 16
  deviceId : BitVec 16
  nextAddr : PCIAddress
  addr : PCIAddress
  deriving DecidableEq

def PCI_MAX_BUSSES : BitVec 8 := 0x20

def PCIConfigPackAddress (addr : PCIAddress) (offset : BitVec 16) : BitVec 32 :=
  addr.bus.setWidth 32 <<< 16 ||| addr.device.setWidth 32 <<< 11 |||
    addr.function.setWidth 32 <<< 8 ||| offset.setWidth 32 ||| 0x80000000#32

abbrev Words := BitVec 8 → BitVec 5 → BitVec 3 → BitVec 6 → BitVec 32

variable (words : Words)

def configData (address : BitVec 32) : BitVec 32 :=
  words (address.extractLsb' 16 8) (address.extractLsb' 11 5) (address.extractLsb' 8 3)
    (address.extractLsb' 2 6)

def PCI_ConfigRead32 (addr : PCIAddress) (offset : BitVec 16) : BitVec 32 :=
  configData words (PCIConfigPackAddress addr offset)

def advance (addr : PCIAddress) : PCIAddress × Bool :=
  let addr := { addr with function := addr.function + 1 }
  if addr.function = 0x8 then
    let addr := { addr with function := 0, device := addr.device + 1 }
    if addr.device = 0x20 then
      let addr := { addr with device := 0, bus := addr.bus + 1 }
      (addr, addr.bus = PCI_MAX_BUSSES)
    else (addr, false)
  else (addr, false)

/-- An iteration of `PCI_ScanBus`, with what it returns. -/
def scanAddress (state : PCIScanState) : PCIScanState × Option Bool :=
  let word := PCI_ConfigRead32 words state.nextAddr 0
  let next := advance state.nextAddr
  let state := { state with addr := state.nextAddr, nextAddr := next.1 }
  if next.2 then (state, some false)
  else if word ≠ 0xFFFFFFFF#32 then
    ({ state with vendorId := word.setWidth 16, deviceId := word.extractLsb' 16 16 }, some true)
  else (state, none)

def PCI_ScanBus : ℕ → PCIScanState → Option (PCIScanState × Bool)
  | 0, _ => none
  | fuel + 1, state =>
    match scanAddress words state with
    | (state, some found) => some (state, found)
    | (state, none) => PCI_ScanBus fuel state

def zeroed : PCIScanState := ⟨0, 0, ⟨0, 0, 0⟩, ⟨0, 0, 0⟩⟩

section FindDevice

variable (vendorId deviceId : BitVec 16)

/-- The loop of `PCI_FindDevice`, with the address if there is one. -/
def findDevice : ℕ → PCIScanState → Option (Option PCIAddress)
  | 0, _ => none
  | fuel + 1, busScan =>
    match PCI_ScanBus words fuel busScan with
    | none => none
    | some (_, false) => some none
    | some (busScan, true) =>
      if busScan.vendorId = vendorId ∧ busScan.deviceId = deviceId then some (some busScan.addr)
      else findDevice fuel busScan

def PCI_FindDevice (fuel : ℕ) : Option (Option PCIAddress) :=
  findDevice words vendorId deviceId fuel zeroed

end FindDevice

structure Device where
  vendorId : BitVec 16
  deviceId : BitVec 16
  addr : PCIAddress
  deriving DecidableEq

inductive Scans : PCIScanState → List Device → Prop
  | done {state state' : PCIScanState} {fuel : ℕ}
      (h : PCI_ScanBus words fuel state = some (state', false)) : Scans state []
  | found {state state' : PCIScanState} {devices : List Device} {fuel : ℕ}
      (h : PCI_ScanBus words fuel state = some (state', true)) (rest : Scans state' devices) :
      Scans state (⟨state'.vendorId, state'.deviceId, state'.addr⟩ :: devices)

section Present

def address (n : ℕ) : PCIAddress :=
  ⟨BitVec.ofNat 8 (n / 256), BitVec.ofNat 8 (n / 8 % 32), BitVec.ofNat 8 (n % 8)⟩

def deviceAt (addr : PCIAddress) : Option Device :=
  let word := words addr.bus (addr.device.setWidth 5) (addr.function.setWidth 3) 0
  if word ≠ 0xFFFFFFFF#32 then some ⟨word.setWidth 16, word.extractLsb' 16 16, addr⟩ else none

def addresses : List PCIAddress :=
  (List.range 32).flatMap fun bus => (List.range 32).flatMap fun device =>
    (List.range 8).map fun function =>
      ⟨BitVec.ofNat 8 bus, BitVec.ofNat 8 device, BitVec.ofNat 8 function⟩

def devices : List Device := addresses.filterMap (deviceAt words)

structure Enumerates : Prop where
  scans : Scans words zeroed (devices words)
  finds : ∀ vendorId deviceId, ∃ fuel, PCI_FindDevice words vendorId deviceId fuel =
    some (((devices words).find? fun d => d.vendorId = vendorId ∧ d.deviceId = deviceId).map
      (·.addr))

def lastAddress : PCIAddress := ⟨31, 31, 7⟩

end Present

section Order

theorem range_mul_map {α : Type} (f : ℕ → α) (m n : ℕ) : (List.range (m * n)).map f =
    (List.range m).flatMap fun i => (List.range n).map fun j => f (i * n + j) := by
  induction m with
  | zero => simp
  | succ m ih =>
    rw [Nat.succ_mul, List.range_add, List.map_append, ih, List.range_succ, List.flatMap_append]
    simp [Function.comp_def]

theorem addresses_eq : addresses = (List.range 8192).map address := by
  have h : 8192 = 32 * (32 * 8) := rfl
  rw [h, range_mul_map, addresses]
  apply List.flatMap_congr
  intro bus hbus
  rw [range_mul_map fun j => address (bus * (32 * 8) + j)]
  apply List.flatMap_congr
  intro device hdevice
  apply List.map_congr_left
  intro function hfunction
  rw [List.mem_range] at hbus hdevice hfunction
  rw [address]
  congr 2 <;> omega

theorem ofNat_eq_iff {a b : ℕ} (ha : a < 256) (hb : b < 256) :
    BitVec.ofNat 8 a = BitVec.ofNat 8 b ↔ a = b := by
  rw [← BitVec.toNat_inj, BitVec.toNat_ofNat, BitVec.toNat_ofNat, Nat.mod_eq_of_lt ha,
    Nat.mod_eq_of_lt hb]

theorem advance_address {n : ℕ} (hn : n < 8192) :
    advance (address n) = (address (n + 1), decide (n + 1 = 8192)) := by
  have hfunction : BitVec.ofNat 8 (n % 8) + 1 = BitVec.ofNat 8 (n % 8 + 1) :=
    (BitVec.ofNat_add _ _).symm
  have hdevice : BitVec.ofNat 8 (n / 8 % 32) + 1 = BitVec.ofNat 8 (n / 8 % 32 + 1) :=
    (BitVec.ofNat_add _ _).symm
  have hbus : BitVec.ofNat 8 (n / 256) + 1 = BitVec.ofNat 8 (n / 256 + 1) :=
    (BitVec.ofNat_add _ _).symm
  have hfull : BitVec.ofNat 8 (n % 8 + 1) = 0x8 ↔ n % 8 + 1 = 8 :=
    ofNat_eq_iff (by omega) (by decide)
  have hfull' : BitVec.ofNat 8 (n / 8 % 32 + 1) = 0x20 ↔ n / 8 % 32 + 1 = 32 :=
    ofNat_eq_iff (by omega) (by decide)
  have hend : BitVec.ofNat 8 (n / 256 + 1) = PCI_MAX_BUSSES ↔ n / 256 + 1 = 32 :=
    ofNat_eq_iff (by omega) (by decide)
  simp only [advance, address, hfunction, hdevice, hbus, hfull, hfull', hend]
  split_ifs with h h'
  all_goals
    refine Prod.ext ?_ (by simp; omega)
    simp only [PCIAddress.mk.injEq, BitVec.ofNat_eq_ofNat]
    refine ⟨congrArg (BitVec.ofNat 8) ?_, congrArg (BitVec.ofNat 8) ?_,
      congrArg (BitVec.ofNat 8) ?_⟩ <;> omega

end Order

section Read

variable {addr : PCIAddress}

theorem getLsbD_of_lt {x : BitVec 8} {k i : ℕ} (hx : x.toNat < 2 ^ k) (hi : k ≤ i) :
    x.getLsbD i = false :=
  Nat.testBit_lt_two_pow (hx.trans_le (Nat.pow_le_pow_right (by decide : 0 < 2) hi))

theorem getLsbD_packed (addr : PCIAddress) {j : ℕ} (hj : j < 31) :
    (PCIConfigPackAddress addr 0).getLsbD j = ((decide (16 ≤ j) && addr.bus.getLsbD (j - 16)) ||
      (decide (11 ≤ j) && addr.device.getLsbD (j - 11)) ||
      (decide (8 ≤ j) && addr.function.getLsbD (j - 8))) := by
  have henable : ∀ j < 31, (0x80000000#32).getLsbD j = false := by decide
  simp only [PCIConfigPackAddress, BitVec.getLsbD_or, BitVec.getLsbD_shiftLeft,
    BitVec.getLsbD_setWidth, henable j hj, Bool.or_false]
  simp [show j < 32 by omega, show j - 16 < 32 by omega, show j - 11 < 32 by omega,
    show j - 8 < 32 by omega]
  simp only [← Nat.not_lt, decide_not]

theorem configRead_eq (hdevice : addr.device.toNat < 2 ^ 5) (hfunction : addr.function.toNat < 2 ^ 3) :
    PCI_ConfigRead32 words addr 0 =
      words addr.bus (addr.device.setWidth 5) (addr.function.setWidth 3) 0 := by
  have hbus : (PCIConfigPackAddress addr 0).extractLsb' 16 8 = addr.bus := by
    apply BitVec.eq_of_getLsbD_eq
    intro i hi
    rw [BitVec.getLsbD_extractLsb', getLsbD_packed addr (by omega),
      getLsbD_of_lt hdevice (by omega : 5 ≤ 16 + i - 11),
      getLsbD_of_lt hfunction (by omega : 3 ≤ 16 + i - 8)]
    simp [hi]
  have hdevice : (PCIConfigPackAddress addr 0).extractLsb' 11 5 = addr.device.setWidth 5 := by
    apply BitVec.eq_of_getLsbD_eq
    intro i hi
    rw [BitVec.getLsbD_extractLsb', getLsbD_packed addr (by omega),
      getLsbD_of_lt hfunction (by omega : 3 ≤ 11 + i - 8)]
    simp [hi, show ¬16 ≤ 11 + i by omega]
  have hfunction : (PCIConfigPackAddress addr 0).extractLsb' 8 3 = addr.function.setWidth 3 := by
    apply BitVec.eq_of_getLsbD_eq
    intro i hi
    rw [BitVec.getLsbD_extractLsb', getLsbD_packed addr (by omega)]
    simp [hi, show ¬16 ≤ 8 + i by omega, show ¬11 ≤ 8 + i by omega]
  have hregister : (PCIConfigPackAddress addr 0).extractLsb' 2 6 = 0 := by
    apply BitVec.eq_of_getLsbD_eq
    intro i hi
    rw [BitVec.getLsbD_extractLsb', getLsbD_packed addr (by omega)]
    simp [show ¬16 ≤ 2 + i by omega, show ¬11 ≤ 2 + i by omega, show ¬8 ≤ 2 + i by omega]
  rw [PCI_ConfigRead32, configData, hbus, hdevice, hfunction, hregister]

theorem configRead_address (n : ℕ) :
    PCI_ConfigRead32 words (address n) 0 =
      words (address n).bus ((address n).device.setWidth 5) ((address n).function.setWidth 3) 0 := by
  apply configRead_eq
  · rw [address, BitVec.toNat_ofNat]
    omega
  · rw [address, BitVec.toNat_ofNat]
    omega

end Read

section Scan

variable {words}

theorem scanAddress_eq {n : ℕ} (hn : n < 8191) {state : PCIScanState}
    (hnext : state.nextAddr = address n) : scanAddress words state =
      match deviceAt words (address n) with
      | some d => (⟨d.vendorId, d.deviceId, address (n + 1), d.addr⟩, some true)
      | none => ({ state with addr := address n, nextAddr := address (n + 1) }, none) := by
  have hread := configRead_address words n
  have hmore : (n + 1 = 8192) = False := by
    rw [eq_iff_iff, iff_false]
    omega
  simp only [scanAddress, hnext, hread, advance_address (by omega : n < 8192), hmore, decide_false,
    Bool.false_eq_true, if_false, deviceAt]
  split_ifs <;> rfl

theorem scanAddress_last (words : Words) {state : PCIScanState} (hnext : state.nextAddr = address 8191) :
    ∃ state', scanAddress words state = (state', some false) := by
  refine ⟨{ state with addr := address 8191, nextAddr := address 8192 }, ?_⟩
  simp only [scanAddress, hnext, advance_address (by omega : 8191 < 8192)]
  rfl

def reached (words : Words) (n : ℕ) : List Device :=
  ((List.range' n (8191 - n)).map address).filterMap (deviceAt words)

theorem reached_of_lt {n : ℕ} (hn : n < 8191) : reached words n =
    match deviceAt words (address n) with
    | some d => d :: reached words (n + 1)
    | none => reached words (n + 1) := by
  have hlength : 8191 - n = 8191 - (n + 1) + 1 := by omega
  rw [reached, hlength, List.range'_succ, List.map_cons, List.filterMap_cons]
  cases deviceAt words (address n) <;> rfl

theorem scanBus_spec (words : Words) {n : ℕ} (hn : n ≤ 8191) {state : PCIScanState}
    (hnext : state.nextAddr = address n) {fuel : ℕ} (hfuel : 8191 - n < fuel) :
    (∃ state' m, n < m ∧ m ≤ 8191 ∧ state'.nextAddr = address m ∧
      PCI_ScanBus words fuel state = some (state', true) ∧
      reached words n = ⟨state'.vendorId, state'.deviceId, state'.addr⟩ :: reached words m) ∨
    (∃ state', PCI_ScanBus words fuel state = some (state', false)) ∧ reached words n = [] := by
  induction fuel generalizing n state with
  | zero => omega
  | succ fuel ih =>
    obtain hlt | rfl := Nat.lt_or_eq_of_le hn
    · rw [PCI_ScanBus, scanAddress_eq hlt hnext, reached_of_lt hlt]
      cases deviceAt words (address n) with
      | some d => exact .inl ⟨_, n + 1, Nat.lt_succ_self n, hlt, rfl, rfl, rfl⟩
      | none =>
        have hnext' : PCIScanState.nextAddr
            { state with addr := address n, nextAddr := address (n + 1) } = address (n + 1) := rfl
        obtain ⟨state', m, hm, hrest⟩ | hend := ih hlt hnext' (by omega)
        · exact .inl ⟨state', m, by omega, hrest⟩
        · exact .inr hend
    · obtain ⟨state', hlast⟩ := scanAddress_last words hnext
      refine .inr ⟨⟨state', ?_⟩, rfl⟩
      rw [PCI_ScanBus, hlast]

theorem scans_reached {n : ℕ} (hn : n ≤ 8191) {state : PCIScanState}
    (hnext : state.nextAddr = address n) : Scans words state (reached words n) := by
  induction hk : 8191 - n using Nat.strong_induction_on generalizing n state with
  | _ k ih =>
    obtain ⟨state', m, hlt, hm, hnext', hscan, hreached⟩ | ⟨⟨state', hscan⟩, hreached⟩ :=
      scanBus_spec words hn hnext (Nat.lt_succ_self (8191 - n))
    · rw [hreached]
      exact .found hscan (ih (8191 - m) (by omega) hm hnext' rfl)
    · rw [hreached]
      exact .done hscan

theorem scanBus_unique {fuel fuel' : ℕ} {state : PCIScanState} {r r' : PCIScanState × Bool}
    (h : PCI_ScanBus words fuel state = some r) (h' : PCI_ScanBus words fuel' state = some r') :
    r = r' := by
  induction fuel generalizing fuel' state with
  | zero => cases h
  | succ fuel ih =>
    cases fuel' with
    | zero => cases h'
    | succ fuel' =>
      rw [PCI_ScanBus] at h h'
      generalize scanAddress words state = x at h h'
      match x, h, h' with
      | (_, some _), h, h' => exact Option.some_inj.mp (h.symm.trans h')
      | (_, none), h, h' => exact ih h h'

theorem Scans.unique {state : PCIScanState} {l l' : List Device} (h : Scans words state l)
    (h' : Scans words state l') : l = l' := by
  induction h generalizing l' with
  | done h =>
    cases h' with
    | done h' => rfl
    | found h' rest => cases scanBus_unique h h'
  | found h rest ih =>
    cases h' with
    | done h' => cases scanBus_unique h h'
    | found h' rest' =>
      cases scanBus_unique h h'
      rw [ih rest']

theorem findDevice_reached (vendorId deviceId : BitVec 16) {n : ℕ} (hn : n ≤ 8191)
    {busScan : PCIScanState} (hnext : busScan.nextAddr = address n) {fuel : ℕ}
    (hfuel : 8192 - n < fuel) : findDevice words vendorId deviceId fuel busScan =
      some (((reached words n).find? fun d => d.vendorId = vendorId ∧ d.deviceId = deviceId).map
        (·.addr)) := by
  induction fuel generalizing n busScan with
  | zero => omega
  | succ fuel ih =>
    obtain ⟨state', m, hlt, hm, hnext', hscan, hreached⟩ | ⟨⟨state', hscan⟩, hreached⟩ :=
      scanBus_spec words hn hnext (by omega : 8191 - n < fuel)
    · rw [findDevice, hscan, hreached]
      by_cases hids : state'.vendorId = vendorId ∧ state'.deviceId = deviceId
      · simp [hids]
      · simp only [if_neg hids, List.find?_cons, decide_eq_false hids]
        exact ih hm hnext' (by omega)
    · rw [findDevice, hscan, hreached]
      rfl

theorem devices_eq (words : Words) :
    devices words = reached words 0 ++ (deviceAt words lastAddress).toList := by
  rw [devices, addresses_eq, List.range_succ, List.map_append, List.filterMap_append, reached,
    ← List.range_eq_range']
  congr 1

theorem deviceAt_last : deviceAt words lastAddress = none ↔ words 31 31 7 0 = 0xFFFFFFFF#32 := by
  have hword : words lastAddress.bus (lastAddress.device.setWidth 5)
      (lastAddress.function.setWidth 3) 0 = words 31 31 7 0 := rfl
  rw [deviceAt, hword]
  split_ifs with h
  · exact iff_of_false nofun h
  · exact iff_of_true rfl (not_not.mp h)

theorem Enumerates.last (h : Enumerates words) : words 31 31 7 0 = 0xFFFFFFFF#32 := by
  have heq := h.scans.unique (scans_reached (Nat.zero_le _) rfl)
  rw [devices_eq, List.append_right_eq_self] at heq
  rw [← deviceAt_last]
  exact Option.toList_eq_nil_iff.mp heq

end Scan

/-- The scan finds all devices, and the search the first of them, exactly if there is none at the
very last address. -/
theorem enumerates_iff (words : Words) :
    Enumerates words ↔ words 31 31 7 0 = 0xFFFFFFFF#32 := by
  refine ⟨Enumerates.last, fun h => ?_⟩
  have hdevices : devices words = reached words 0 := by
    rw [devices_eq, deviceAt_last.mpr h]
    exact List.append_nil _
  constructor
  · rw [hdevices]
    exact scans_reached (Nat.zero_le _) rfl
  · intro vendorId deviceId
    refine ⟨8193, ?_⟩
    rw [hdevices]
    exact findDevice_reached vendorId deviceId (Nat.zero_le _) rfl (by omega)

def lastOnly : Words := fun bus device function _ =>
  if bus = 31 ∧ device = 31 ∧ function = 7 then 0x12341AF4 else 0xFFFFFFFF

theorem not_enumerates : ¬∀ words : Words, Enumerates words := by
  intro h
  have hlast := (h lastOnly).last
  revert hlast
  decide

end NaviMisc.Metalkit.Pci
