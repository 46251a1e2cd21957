import Mathlib.Data.List.Infix
import NaviMisc.Rcpod.BlockTransfer

/-!
Serial reception: bytes that the firmware stores in a ring, and the host that reads them
(firmware/usb_main.asm, src/command.c).
-/

namespace NaviMisc.Rcpod.Serial

open Lib.Pic Var

def RCPOD_REG_SCRATCHPAD : ℕ := 0x0020

def RCPOD_SCRATCHPAD_SIZE : ℕ := 0x005D

/-- The receiver that runs in the background. Of `rx_status` only the bank counts. -/
structure Receiver where
  rx_fsr_initial : Byte
  rx_fsr : Byte
  rx_status : Bool
  rx_remaining : Byte
  rx_size : Byte
  rx_count : Byte

structure Rx where
  address : ℕ
  size : ℕ
  last_count8 : ℕ
  count : ℕ
  unread : ℕ
  tail_index : ℕ

/-- What happens in a run, as it stands before it happens: a byte arrives while others wait to be
read, the eight bytes are asked for with a carry, and the host reads when it has read `position`
bytes and others wait. -/
inductive Event
  | arrival (waiting : ℕ)
  | peek8 (carry : Bool)
  | read (count position waiting : ℕ)

structure System where
  cpu : Firmware
  receiver : Receiver
  rx : Rx
  time : ℕ
  arrived : List Byte
  trace : List Event

namespace System

variable (s : System)

def position : ℕ := s.cpu.reads.length

def waiting : ℕ := s.arrived.length - s.position

def fresh : System :=
  { s with cpu := { s.cpu with reads := [] }, arrived := [], trace := [] }

end System

section Interrupts

def rollover (r : Receiver) : Receiver :=
  if r.rx_remaining = 0 then
    { r with rx_fsr := r.rx_fsr_initial, rx_remaining := r.rx_size }
  else r

def testSerialInterrupt (s : System) (data : Byte) : System :=
  if s.receiver.rx_remaining = 0 then s
  else
    let r := s.receiver
    { s with
      cpu := { s.cpu with
        memory := Function.update s.cpu.memory (BitVec.ofBool r.rx_status ++ r.rx_fsr) data }
      receiver := rollover { r with
        rx_fsr := r.rx_fsr + 1
        rx_count := r.rx_count + 1
        rx_remaining := r.rx_remaining - 1 }
      arrived := s.arrived ++ [data]
      trace := s.trace ++ [.arrival s.waiting] }

def interrupts (arrivals : ℕ → List Byte) (s : System) : System :=
  { (arrivals s.time).foldl testSerialInterrupt s with time := s.time + 1 }

end Interrupts

section Requests

variable (arrivals : ℕ → List Byte) (carry : ℕ → Bool)

def request_UsartTxRx (s : System) : System :=
  { s with
    receiver :=
      { rx_fsr_initial := s.cpu.file wIndex
        rx_fsr := s.cpu.file wIndex
        rx_status := s.cpu.bit (wIndex, 1) 0
        rx_remaining := s.cpu.file (wValue, 1)
        rx_size := s.cpu.file (wValue, 1)
        rx_count := 0 } }

def request_UsartRxProgress (s : System) : System :=
  { s with
    cpu := Send_Byte_pkt
      { s.cpu with w := s.receiver.rx_count, z := s.receiver.rx_count = 0 } }

def rcpod_UsartTxRx (address txBytes rxBytes : ℕ) (s : System) : System :=
  let s := request_UsartTxRx { s with
    cpu := setup (BitVec.ofNat 16 (txBytes ||| rxBytes <<< 8)) (BitVec.ofNat 16 address)
      (carry s.time) s.cpu }
  { s with
    rx := if rxBytes = 0 then ⟨0, 0, 0, 0, 0, 0⟩ else ⟨address, rxBytes, 0, 0, 0, 0⟩ }

def rcpod_UsartRxProgress (s : System) : System × ℕ :=
  let s := interrupts arrivals s
  let s := request_UsartRxProgress { s with cpu := setup 0 0 (carry s.time) s.cpu }
  (s, (s.cpu.memory (endpoint (s.cpu.file BD0IAL) 0)).toNat)

def rcpod_Peek (address : ℕ) (s : System) : System × List Byte :=
  let s := interrupts arrivals s
  let r := Rcpod.rcpod_Peek (carry s.time) address s.cpu
  ({ s with cpu := r.1 }, r.2)

def peek8Byte (s : System) : System :=
  let s := interrupts arrivals s
  { s with cpu := peek8Body s.cpu }

def peek8Bytes : ℕ → System → System
  | 0, s => s
  | fuel + 1, s =>
    let s := peek8Byte arrivals s
    if s.cpu.file byte_count = 0 then s else peek8Bytes fuel s

def peek8Setup (address : ℕ) (s : System) : System :=
  { s with
    cpu := setup 0 (BitVec.ofNat 16 address) (carry s.time) s.cpu
      |>.movf BD0IAL
      |>.movwf buffer_ptr
      |>.movlw 8
      |>.movwf byte_count
    trace := s.trace ++ [.peek8 (carry s.time)] }

def rcpod_Peek8 (address : ℕ) (s : System) : System × List Byte :=
  let s := peek8Bytes arrivals 256 (peek8Setup carry address s)
  (s, reply 8 s.cpu)

def rcpod_PeekBuffer : ℕ → ℕ → System → System × List Byte
  | address, bytes + 8, s =>
    let s := rcpod_Peek8 arrivals carry address s
    let rest := rcpod_PeekBuffer (address + 8) bytes s.1
    (rest.1, s.2 ++ rest.2)
  | address, bytes + 1, s =>
    let s := rcpod_Peek arrivals carry address s
    let rest := rcpod_PeekBuffer (address + 1) bytes s.1
    (rest.1, s.2 ++ rest.2)
  | _, 0, s => (s, [])

end Requests

section Host

variable (arrivals : ℕ → List Byte) (carry : ℕ → Bool)

/-- The handler that `rcpod_HandleError` calls returns. -/
def rcpod_SerialTxRxStart (buffer : List Byte) (s : System) : System :=
  if RCPOD_SCRATCHPAD_SIZE < buffer.length then s
  else
    let s := { s with
      cpu := rcpod_PokeBuffer (fun k => carry (s.time + k)) RCPOD_REG_SCRATCHPAD buffer s.cpu }
    rcpod_UsartTxRx carry RCPOD_REG_SCRATCHPAD buffer.length RCPOD_SCRATCHPAD_SIZE s

def rcpod_SerialRxStart (s : System) : System :=
  rcpod_UsartTxRx carry RCPOD_REG_SCRATCHPAD 0 RCPOD_SCRATCHPAD_SIZE s

def rcpod_SerialRxProgress (s : System) : System × Option ℕ :=
  let (s, count8) := rcpod_UsartRxProgress arrivals carry s
  let newBytes : ℤ := count8 - s.rx.last_count8
  let newBytes := if newBytes < 0 then newBytes + 256 else newBytes
  let rx : Rx := { s.rx with
    last_count8 := count8
    count := s.rx.count + newBytes.toNat
    unread := s.rx.unread + newBytes.toNat }
  ({ s with rx := rx }, if rx.size < rx.unread then none else some rx.count)

def blockSize (rx : Rx) (count : ℕ) : ℕ :=
  let blockSize := if rx.unread < count then rx.unread else count
  if rx.size < blockSize + rx.tail_index then rx.size - rx.tail_index else blockSize

def readBlocks (count : ℕ) : ℕ → System → List Byte → ℕ → System × List Byte × ℕ
  | 0, s, buffer, retval => (s, buffer, retval)
  | fuel + 1, s, buffer, retval =>
    if 0 < count ∧ 0 < s.rx.unread then
      let n := blockSize s.rx count
      let (s, block) := rcpod_PeekBuffer arrivals carry (s.rx.address + s.rx.tail_index) n s
      let rx := { s.rx with
        unread := s.rx.unread - n
        tail_index := (s.rx.tail_index + n) % s.rx.size }
      readBlocks count fuel { s with rx := rx } (block ++ buffer.drop n) (retval + n)
    else (s, buffer, retval)

structure Returned where
  system : System
  handled : Bool
  value : ℤ
  buffer : List Byte

def rcpod_SerialRxRead (buffer : List Byte) (s : System) : Returned :=
  let (s, progress) := rcpod_SerialRxProgress arrivals carry s
  let s := { s with trace := s.trace ++ [.read buffer.length s.position s.waiting] }
  let (s, stored, retval) := readBlocks arrivals carry buffer.length (s.rx.unread + 1) s buffer 0
  ⟨s, progress.isNone, retval, stored⟩

end Host

section Runs

inductive Call
  | progress
  | read (buffer : List Byte)

variable (arrivals : ℕ → List Byte) (carry : ℕ → Bool)

def perform (s : System × ℕ) : Call → System × ℕ
  | .progress => ((rcpod_SerialRxProgress arrivals carry s.1).1, s.2)
  | .read buffer =>
    let r := rcpod_SerialRxRead arrivals carry buffer s.1
    (r.system, s.2 + r.value.toNat)

def run (calls : List Call) (s : System) : System × ℕ :=
  calls.foldl (perform arrivals carry) (s, 0)

def Starts (s : System) : Prop :=
  ∃ t, s = (rcpod_SerialRxStart carry t).fresh ∨ ∃ buffer : List Byte,
    buffer.length ≤ RCPOD_SCRATCHPAD_SIZE ∧ s = (rcpod_SerialTxRxStart carry buffer t).fresh

/-- An error that is told, or the next bytes of the stream in the buffer. -/
def Delivers (position : ℕ) (buffer : List Byte) (r : Returned) : Prop :=
  (r.handled ∧ r.value = -1) ∨
    ¬r.handled ∧ ∃ n : ℕ, r.value = n ∧ position + n ≤ r.system.arrived.length ∧ n ≤ buffer.length ∧
      r.buffer = (r.system.arrived.drop position).take n ++ buffer.drop n

/-- There is room in the ring for a byte that arrives, the carry is clear, and what waits fits the
buffer and does not go over the end of the ring. -/
def Event.Fine : Event → Prop
  | .arrival waiting => waiting < RCPOD_SCRATCHPAD_SIZE
  | .peek8 carry => carry = false
  | .read count position waiting => count = 0 ∨ waiting = 0 ∨
    waiting ≤ count ∧ position % RCPOD_SCRATCHPAD_SIZE + waiting ≤ RCPOD_SCRATCHPAD_SIZE

instance : DecidablePred Event.Fine
  | .arrival waiting => inferInstanceAs (Decidable (waiting < RCPOD_SCRATCHPAD_SIZE))
  | .peek8 carry => inferInstanceAs (Decidable (carry = false))
  | .read _ _ _ => inferInstanceAs (Decidable (_ ∨ _ ∨ _ ∧ _))

end Runs

section Ring

def slot (i : ℕ) : BitVec 9 := BitVec.ofNat 9 (0x20 + i % 93)

theorem slot_inj {i j : ℕ} (h : slot i = slot j) : i % 93 = j % 93 := by
  have hi := Nat.mod_lt i (by decide : 0 < 93)
  have hj := Nat.mod_lt j (by decide : 0 < 93)
  have hnat := congrArg BitVec.toNat h
  simp only [slot, BitVec.toNat_ofNat] at hnat
  omega

theorem slot_msb (i : ℕ) : (slot i).msb = false := by
  have h : ∀ k < 93, (BitVec.ofNat 9 (0x20 + k)).msb = false := by decide
  exact h _ (Nat.mod_lt i (by decide))

theorem slot_ne_endpoint (i : ℕ) (e : Byte) (j : ℕ) : slot i ≠ endpoint e j := by
  have h : ∀ x : Byte, (BitVec.ofBool true ++ x).msb = true := by decide
  intro heq
  have hmsb := slot_msb i
  rw [heq, endpoint, h] at hmsb
  exact absurd hmsb (by decide)

structure Stores (s : System) : Prop where
  receiver : s.receiver =
    ⟨0x20, BitVec.ofNat 8 (0x20 + s.arrived.length % 93), false,
      BitVec.ofNat 8 (93 - s.arrived.length % 93), 93, BitVec.ofNat 8 s.arrived.length⟩
  slots : ∀ i b, s.arrived[i]? = some b → s.arrived.length ≤ i + 93 → s.cpu.memory (slot i) = b

variable {s t u : System}

theorem Stores.frame (h : Stores s) (hreceiver : t.receiver = s.receiver)
    (harrived : t.arrived = s.arrived)
    (hmemory : ∀ i, t.cpu.memory (slot i) = s.cpu.memory (slot i)) : Stores t := by
  constructor
  · rw [hreceiver, harrived]
    exact h.receiver
  · intro i b hb hlast
    rw [harrived] at hb hlast
    rw [hmemory]
    exact h.slots i b hb hlast

def Fine (s : System) : Prop := ∀ e ∈ s.trace, e.Fine

theorem Fine.of_grows (h : Fine t) (hgrows : s.trace <+: t.trace) : Fine s :=
  fun e he => h e (hgrows.subset he)

structure Interrupted (s t : System) : Prop where
  stores : Stores t
  grows : s.arrived <+: t.arrived
  rx : t.rx = s.rx
  cpu : t.cpu = { s.cpu with memory := t.cpu.memory }
  frame : ∀ x : BitVec 9, x.msb = true → t.cpu.memory x = s.cpu.memory x
  trace : s.trace <+: t.trace
  room : s.arrived.length ≤ s.position + 93 → Fine t → t.arrived.length ≤ t.position + 93

theorem Interrupted.refl (h : Stores s) : Interrupted s s :=
  ⟨h, List.prefix_rfl, rfl, rfl, fun _ _ => rfl, List.prefix_rfl, fun h _ => h⟩

theorem Interrupted.trans (h : Interrupted s t) (h' : Interrupted t u) : Interrupted s u where
  stores := h'.stores
  grows := h.grows.trans h'.grows
  rx := h'.rx.trans h.rx
  cpu := by rw [h'.cpu, h.cpu]
  frame x hx := (h'.frame x hx).trans (h.frame x hx)
  trace := h.trace.trans h'.trace
  room hroom hfine := h'.room (h.room hroom (hfine.of_grows h'.trace)) hfine

theorem rollover_eq {k : ℕ} (hk : k < 93) (count : Byte) :
    rollover ⟨0x20, BitVec.ofNat 8 (0x20 + k) + 1, false, BitVec.ofNat 8 (93 - k) - 1, 93, count⟩ =
      ⟨0x20, BitVec.ofNat 8 (0x20 + (k + 1) % 93), false, BitVec.ofNat 8 (93 - (k + 1) % 93), 93,
        count⟩ := by
  have hlast : ∀ k < 93, BitVec.ofNat 8 (93 - k) - 1 = 0 ↔ k = 92 := by decide
  have hnext : ∀ k < 92, BitVec.ofNat 8 (0x20 + k) + 1 = BitVec.ofNat 8 (0x20 + (k + 1) % 93) ∧
      BitVec.ofNat 8 (93 - k) - 1 = BitVec.ofNat 8 (93 - (k + 1) % 93) := by
    decide
  rw [rollover]
  by_cases h : k = 92
  · subst h
    rfl
  · obtain ⟨hfsr, hremaining⟩ := hnext k (by omega)
    rw [if_neg fun h0 => h ((hlast k hk).mp h0), hfsr, hremaining]

theorem testSerialInterrupt_spec (h : Stores s) (data : Byte) :
    Interrupted s (testSerialInterrupt s data) := by
  have hk := Nat.mod_lt s.arrived.length (by decide : 0 < 93)
  have hremaining : ∀ k < 93, BitVec.ofNat 8 (93 - k) ≠ 0 := by decide
  have haddress : ∀ k < 93, BitVec.ofBool false ++ BitVec.ofNat 8 (0x20 + k) =
      BitVec.ofNat 9 (0x20 + k) := by
    decide
  have hstep : testSerialInterrupt s data =
      { s with
        cpu := { s.cpu with memory := Function.update s.cpu.memory (slot s.arrived.length) data }
        receiver := ⟨0x20, BitVec.ofNat 8 (0x20 + (s.arrived.length + 1) % 93), false,
          BitVec.ofNat 8 (93 - (s.arrived.length + 1) % 93), 93,
          BitVec.ofNat 8 (s.arrived.length + 1)⟩
        arrived := s.arrived ++ [data]
        trace := s.trace ++ [.arrival s.waiting] } := by
    have hmod : (s.arrived.length % 93 + 1) % 93 = (s.arrived.length + 1) % 93 :=
      Nat.mod_add_mod _ 93 1
    have hcount : BitVec.ofNat 8 s.arrived.length + 1 = BitVec.ofNat 8 (s.arrived.length + 1) := by
      rw [BitVec.ofNat_add]
      rfl
    rw [testSerialInterrupt, h.receiver]
    dsimp only
    rw [if_neg (hremaining _ hk), rollover_eq hk, haddress _ hk, hmod, hcount]
    rfl
  rw [hstep]
  constructor
  · constructor
    · simp only [List.length_append, List.length_singleton]
    · intro i b hb hlast
      change Function.update s.cpu.memory (slot s.arrived.length) data (slot i) = b
      change (s.arrived ++ [data])[i]? = some b at hb
      simp only [List.length_append, List.length_singleton] at hlast
      rcases Nat.lt_or_ge i s.arrived.length with hi | hi
      · rw [List.getElem?_append_left hi] at hb
        rw [Function.update_of_ne, h.slots i b hb (by omega)]
        intro heq
        have hsame := slot_inj heq
        omega
      · rw [List.getElem?_append_right hi, List.getElem?_singleton] at hb
        split_ifs at hb with hzero
        obtain rfl : i = s.arrived.length := by omega
        rw [Function.update_self]
        exact Option.some.inj hb
  · exact List.prefix_append _ _
  · rfl
  · rfl
  · intro x hx
    apply Function.update_of_ne
    rintro rfl
    exact absurd hx (by rw [slot_msb]; decide)
  · exact List.prefix_append _ _
  · intro hroom hfine
    have hwaiting : s.arrived.length - s.position < 93 :=
      hfine (.arrival s.waiting) (List.mem_append_right _ (List.mem_singleton_self _))
    change (s.arrived ++ [data]).length ≤ s.position + 93
    rw [List.length_append, List.length_singleton]
    omega

theorem interrupts_spec (arrivals : ℕ → List Byte) (h : Stores s) :
    Interrupted s (interrupts arrivals s) := by
  have hall : ∀ (bytes : List Byte) (s : System), Stores s →
      Interrupted s (bytes.foldl testSerialInterrupt s) := by
    intro bytes
    induction bytes with
    | nil => exact fun s h => Interrupted.refl h
    | cons data bytes ih =>
      intro s h
      have hone := testSerialInterrupt_spec h data
      exact hone.trans (ih _ hone.stores)
  obtain ⟨hstores, hgrows, hrx, hcpu, hframe, htrace, hroom⟩ := hall (arrivals s.time) s h
  exact ⟨hstores.frame rfl rfl fun _ => rfl, hgrows, hrx, hcpu, hframe, htrace, hroom⟩

end Ring

section Peeks

variable (arrivals : ℕ → List Byte) (carry : ℕ → Bool) {s t u : System}

theorem cons_prefix_drop {l xs : List Byte} {i : ℕ} {b : Byte} (h : l[i]? = some b)
    (hxs : xs <+: l.drop (i + 1)) : b :: xs <+: l.drop i := by
  obtain ⟨hi, rfl⟩ := List.getElem?_eq_some_iff.mp h
  rw [List.drop_eq_getElem_cons hi]
  exact List.cons_prefix_cons.mpr ⟨rfl, hxs⟩

theorem append_prefix_drop {l xs ys : List Byte} {i : ℕ} (h : xs <+: l.drop i)
    (h' : ys <+: l.drop (i + xs.length)) : xs ++ ys <+: l.drop i := by
  obtain ⟨rest, hrest⟩ := h
  rw [← List.drop_drop, ← hrest, List.drop_left] at h'
  rw [← hrest]
  exact (List.prefix_append_right_inj xs).mpr h'

theorem getElem?_of_grows {l l' : List Byte} (h : l <+: l') {i : ℕ} {b : Byte}
    (hb : l[i]? = some b) : l'[i]? = some b := by
  obtain ⟨r, rfl⟩ := h
  obtain ⟨hi, -⟩ := List.getElem?_eq_some_iff.mp hb
  rw [List.getElem?_append_left hi, hb]

theorem next_byte (hu : Interrupted s u) (hpos : s.position < s.arrived.length)
    (hroom : s.arrived.length ≤ s.position + 93) (hfine : Fine u) :
    ∃ b, u.arrived[s.position]? = some b ∧ u.cpu.memory (slot s.position) = b := by
  have hposition : u.position = s.position := by
    rw [System.position, hu.cpu]
    rfl
  obtain ⟨b, hb⟩ : ∃ b, s.arrived[s.position]? = some b := ⟨_, List.getElem?_eq_getElem hpos⟩
  have hb' := getElem?_of_grows hu.grows hb
  have hlast := hu.room hroom hfine
  rw [hposition] at hlast
  exact ⟨b, hb', hu.stores.slots _ _ hb' hlast⟩

theorem endpoint_msb (e : Byte) (j : ℕ) : (endpoint e j).msb = true := by
  have h : ∀ x : Byte, (BitVec.ofBool true ++ x).msb = true := by decide
  exact h _

structure Peeking (n : ℕ) (s t : System) : Prop where
  stores : Stores t
  grows : s.arrived <+: t.arrived
  trace : s.trace <+: t.trace
  rx : t.rx = s.rx
  position : t.position = s.position + n
  BD0IAL : t.cpu.file BD0IAL = s.cpu.file BD0IAL
  frame : ∀ x : BitVec 9, x.msb = true → (∀ j < n, x ≠ endpoint (s.cpu.file buffer_ptr) j) →
    t.cpu.memory x = s.cpu.memory x
  room : s.arrived.length ≤ s.position + 93 → Fine t → t.arrived.length ≤ t.position + 93
  bytes : s.cpu.c = false →
    (0 < n → source s.cpu = BitVec.ofNat 9 (0x20 + s.position % 93)) →
    s.position % 93 + n ≤ 93 → s.position + n ≤ s.arrived.length →
    s.arrived.length ≤ s.position + 93 → Fine t →
    (List.range n).map (fun j => t.cpu.memory (endpoint (s.cpu.file buffer_ptr) j)) <+:
      t.arrived.drop s.position

theorem Peeking.refl (h : Stores s) : Peeking 0 s s where
  stores := h
  grows := List.prefix_rfl
  trace := List.prefix_rfl
  rx := rfl
  position := rfl
  BD0IAL := rfl
  frame _ _ _ := rfl
  room h _ := h
  bytes _ _ _ _ _ _ := List.nil_prefix

theorem advance_slot {k : ℕ} (hk : k + 1 < 93) :
    advance false (BitVec.ofNat 9 (0x20 + k)) = BitVec.ofNat 9 (0x20 + (k + 1)) := by
  rw [← Nat.add_assoc, advance_ofNat (by omega)]

theorem peek8Byte_spec (h : Stores s) :
    ∃ u, Interrupted s u ∧ peek8Byte arrivals s = { u with cpu := peek8Body u.cpu } ∧
      Stores (peek8Byte arrivals s) := by
  have hu := interrupts_spec arrivals h
  refine ⟨interrupts arrivals s, hu, rfl, hu.stores.frame rfl rfl fun i => ?_⟩
  change (peek8Body (interrupts arrivals s).cpu).memory (slot i) = _
  rw [peek8Body_memory, Function.update_of_ne (slot_ne_endpoint i _ _)]

theorem Peeking.body {n : ℕ} (hs : Stores s) (h : Peeking n (peek8Byte arrivals s) t)
    (hn : n < 255) : Peeking (n + 1) s t := by
  obtain ⟨u, hu, heq, -⟩ := peek8Byte_spec arrivals hs
  rw [heq] at h
  obtain ⟨hstores, hgrows, htrace, hrx, hposition, hBD0IAL, hframe, hroom, hbytes⟩ := h
  have hptr : ∀ j, endpoint ((peek8Body u.cpu).file buffer_ptr) j =
      endpoint (s.cpu.file buffer_ptr) (j + 1) := by
    intro j
    rw [peek8Body_ptr, endpoint_succ, hu.cpu]
  have hposition' : System.position { u with cpu := peek8Body u.cpu } = s.position + 1 := by
    change (peek8Body u.cpu).reads.length = _
    rw [peek8Body_reads, hu.cpu, List.length_append]
    rfl
  simp only [hptr] at hframe hbytes
  rw [hposition'] at hposition hroom hbytes
  have hfirst : ∀ x : BitVec 9, x.msb = true → x ≠ endpoint (s.cpu.file buffer_ptr) 0 →
      (peek8Body u.cpu).memory x = s.cpu.memory x := by
    intro x hx hne
    have hfile : u.cpu.file = s.cpu.file := by rw [hu.cpu]
    rw [peek8Body_memory, hfile, Function.update_of_ne hne, hu.frame x hx]
  constructor
  · exact hstores
  · exact hu.grows.trans hgrows
  · exact hu.trace.trans htrace
  · exact hrx.trans hu.rx
  · omega
  · rw [hBD0IAL, peek8Body_BD0IAL, hu.cpu]
  · intro x hx hne
    rw [hframe x hx fun j hj => hne (j + 1) (by omega)]
    exact hfirst x hx (hne 0 (by omega))
  · intro hs hfine
    have hroomu := hu.room hs (hfine.of_grows htrace)
    rw [System.position, hu.cpu] at hroomu
    exact hroom (Nat.le_trans hroomu (by change s.position + 93 ≤ _; omega)) hfine
  · intro hc hsource hring hpos hs hfine
    obtain ⟨b, hb, hmemory⟩ := next_byte hu (by omega) hs (hfine.of_grows htrace)
    have hsourceu : source u.cpu = slot s.position := by
      rw [slot, ← hsource (by omega), hu.cpu]
      rfl
    have hzero : t.cpu.memory (endpoint (s.cpu.file buffer_ptr) 0) = b := by
      have hfile : u.cpu.file = s.cpu.file := by rw [hu.cpu]
      rw [hframe _ (endpoint_msb _ _), peek8Body_memory, hfile, Function.update_self, hsourceu,
        hmemory]
      intro j hj heq
      exact absurd (endpoint_injective _ (by omega) (by omega) heq) (by omega)
    have hnext : 0 < n →
        source (peek8Body u.cpu) = BitVec.ofNat 9 (0x20 + (s.position + 1) % 93) := by
      intro hn
      have hcu : u.cpu.c = false := by rw [hu.cpu]; exact hc
      have hmod : (s.position + 1) % 93 = s.position % 93 + 1 := by omega
      rw [peek8Body_source, hsourceu, hcu, slot, advance_slot (by omega), hmod]
    have hroomu := hu.room hs (hfine.of_grows htrace)
    rw [System.position, hu.cpu] at hroomu
    have hrest := hbytes (by rw [peek8Body_c, hu.cpu]; exact hc) hnext (by omega)
      (Nat.le_trans (by omega) hu.grows.length_le)
      (Nat.le_trans hroomu (by change s.position + 93 ≤ _; omega)) hfine
    rw [List.range_succ_eq_map, List.map_cons, List.map_map, hzero]
    exact cons_prefix_drop (getElem?_of_grows hgrows hb) hrest

theorem peek8Bytes_spec (n fuel : ℕ) (hs : Stores s) (hn : n < 255) (hfuel : n < fuel)
    (hcount : s.cpu.file byte_count = BitVec.ofNat 8 (n + 1)) :
    Peeking (n + 1) s (peek8Bytes arrivals fuel s) := by
  induction n generalizing fuel s with
  | zero =>
    obtain ⟨fuel, rfl⟩ := Nat.exists_eq_succ_of_ne_zero (by omega : fuel ≠ 0)
    obtain ⟨u, hu, heq, hnext⟩ := peek8Byte_spec arrivals hs
    have hdone : (peek8Byte arrivals s).cpu.file byte_count = 0 := by
      rw [heq]
      exact peek8Body_counts u.cpu (hu.cpu ▸ hcount)
    rw [Nat.succ_eq_add_one, peek8Bytes, if_pos hdone]
    exact (Peeking.refl hnext).body arrivals hs hn
  | succ n ih =>
    obtain ⟨fuel, rfl⟩ := Nat.exists_eq_succ_of_ne_zero (by omega : fuel ≠ 0)
    obtain ⟨u, hu, heq, hnext⟩ := peek8Byte_spec arrivals hs
    have hcount' : (peek8Byte arrivals s).cpu.file byte_count = BitVec.ofNat 8 (n + 1) := by
      rw [heq]
      exact peek8Body_counts u.cpu (hu.cpu ▸ hcount)
    rw [Nat.succ_eq_add_one, peek8Bytes, hcount', if_neg (count_ne_zero (by omega))]
    exact (ih fuel hnext (by omega) (by omega) hcount').body arrivals hs hn

structure Reads (address n : ℕ) (s : System) (r : System × List Byte) : Prop where
  stores : Stores r.1
  grows : s.arrived <+: r.1.arrived
  trace : s.trace <+: r.1.trace
  rx : r.1.rx = s.rx
  position : r.1.position = s.position + n
  length : r.2.length = n
  room : s.arrived.length ≤ s.position + 93 → Fine r.1 → r.1.arrived.length ≤ r.1.position + 93
  bytes : (0 < n → address = 0x20 + s.position % 93) → s.position % 93 + n ≤ 93 →
    s.position + n ≤ s.arrived.length → s.arrived.length ≤ s.position + 93 → Fine r.1 →
    r.2 <+: r.1.arrived.drop s.position

theorem rcpod_Peek8_reads (hs : Stores s) (address : ℕ) :
    Reads address 8 s (rcpod_Peek8 arrivals carry address s) := by
  have hstart : Stores (peek8Setup carry address s) := hs.frame rfl rfl fun _ => rfl
  obtain ⟨hstores, hgrows, htrace, hrx, hposition, hBD0IAL, -, hroom, hbytes⟩ :=
    peek8Bytes_spec arrivals 7 256 hstart (by omega) (by omega) (by simp [peek8Setup])
  have hptr : (peek8Setup carry address s).cpu.file buffer_ptr = s.cpu.file BD0IAL := by
    simp [peek8Setup, setup]
  have hend : (peek8Setup carry address s).cpu.file BD0IAL = s.cpu.file BD0IAL := by
    simp [peek8Setup, setup]
  have hsource : source (peek8Setup carry address s).cpu = BitVec.ofNat 9 address := by
    rw [← source_setup s.cpu 0 address (carry s.time)]
    simp [peek8Setup, source]
  have htrace' : (peek8Setup carry address s).trace = s.trace ++ [.peek8 (carry s.time)] := rfl
  refine ⟨hstores, hgrows, (List.prefix_append _ _).trans (htrace' ▸ htrace), hrx, hposition,
    ?_, hroom, ?_⟩
  · exact (List.length_map _).trans List.length_range
  · intro haddress hring hpos hs hfine
    have hclear : carry s.time = false :=
      hfine (.peek8 (carry s.time)) (htrace.subset (by rw [htrace']; simp))
    have hreply := hbytes hclear (fun hn => by rw [hsource, haddress hn]; rfl) hring hpos hs hfine
    rw [hptr] at hreply
    change reply 8 (peek8Bytes arrivals 256 (peek8Setup carry address s)).cpu <+: _
    rw [reply, hBD0IAL, hend]
    exact hreply

theorem rcpod_Peek_reads (hs : Stores s) (address : ℕ) :
    Reads address 1 s (rcpod_Peek arrivals carry address s) := by
  have hu := interrupts_spec arrivals hs
  let u := interrupts arrivals s
  obtain ⟨hreads, -, hframe, hvalues⟩ := rcpod_Peek_replies u.cpu (carry u.time) address
  have hposition : u.position = s.position := by
    rw [System.position, hu.cpu]
    rfl
  have hposition' : (rcpod_Peek arrivals carry address s).1.position = s.position + 1 := by
    change (Rcpod.rcpod_Peek (carry u.time) address u.cpu).1.reads.length = _
    rw [hreads, List.length_append, ← hposition]
    rfl
  have hroom : s.arrived.length ≤ s.position + 93 →
      Fine (rcpod_Peek arrivals carry address s).1 → u.arrived.length ≤ s.position + 93 := by
    intro hroom hfine
    rw [← hposition]
    exact hu.room hroom hfine
  refine ⟨hu.stores.frame rfl rfl fun i => ?_, hu.grows, hu.trace, hu.rx, hposition', rfl, ?_, ?_⟩
  · exact hframe _ fun j _ => slot_ne_endpoint i _ j
  · intro hs hfine
    rw [hposition']
    exact Nat.le_trans (hroom hs hfine) (by omega)
  · intro haddress hring hpos hs hfine
    obtain ⟨b, hb, hmemory⟩ := next_byte hu (by omega) hs hfine
    have hslot : BitVec.ofNat 9 address = slot s.position := by rw [haddress Nat.one_pos, slot]
    have hvalue : (rcpod_Peek arrivals carry address s).2 = [b] := by
      refine (hvalues ?_).trans ?_
      · intro a ha j _
        rw [List.mem_singleton.mp ha, hslot]
        exact slot_ne_endpoint _ _ j
      · rw [List.map_singleton, hslot, hmemory]
    rw [hvalue]
    exact cons_prefix_drop hb List.nil_prefix

theorem Reads.append {address m n : ℕ} {xs ys : List Byte} (h : Reads address m s (t, xs))
    (h' : Reads (address + m) n t (u, ys)) : Reads address (m + n) s (u, xs ++ ys) := by
  have hroom : s.arrived.length ≤ s.position + 93 → Fine u → t.arrived.length ≤ t.position + 93 :=
    fun hs hfine => h.room hs (hfine.of_grows h'.trace)
  refine ⟨h'.stores, h.grows.trans h'.grows, h.trace.trans h'.trace, h'.rx.trans h.rx, ?_, ?_, ?_,
    ?_⟩
  · rw [h'.position, h.position, Nat.add_assoc]
  · rw [List.length_append, h.length, h'.length]
  · exact fun hs hfine => h'.room (hroom hs hfine) hfine
  · intro haddress hring hpos hs hfine
    have hposition := h.position
    have hlength := h.length
    change t.position = s.position + m at hposition
    change xs.length = m at hlength
    have hfirst := h.bytes (fun hm => haddress (by omega)) (by omega) (by omega) hs
      (hfine.of_grows h'.trace)
    have hgrows : t.arrived.length ≤ u.arrived.length := h'.grows.length_le
    have hgrows' : s.arrived.length ≤ t.arrived.length := h.grows.length_le
    have hrest := h'.bytes (fun hn => by rw [haddress (by omega)]; omega) (by omega) (by omega)
      (hroom hs hfine) hfine
    rw [hposition] at hrest
    exact append_prefix_drop (hfirst.trans (List.IsPrefix.drop h'.grows _)) (hlength ▸ hrest)

theorem rcpod_PeekBuffer_reads (hs : Stores s) (address n : ℕ) :
    Reads address n s (rcpod_PeekBuffer arrivals carry address n s) := by
  induction address, n, s using rcpod_PeekBuffer.induct arrivals carry with
  | case1 address n s t ih =>
    have hfirst := rcpod_Peek8_reads arrivals carry hs address
    have hboth := hfirst.append (ih hfirst.stores)
    rw [Nat.add_comm 8 n] at hboth
    rw [rcpod_PeekBuffer]
    exact hboth
  | case2 address n s hshort t ih =>
    have hfirst := rcpod_Peek_reads arrivals carry hs address
    have hboth := hfirst.append (ih hfirst.stores)
    rw [Nat.add_comm 1 n] at hboth
    rw [rcpod_PeekBuffer]
    · exact hboth
    · exact hshort
  | case3 address s =>
    rw [rcpod_PeekBuffer]
    exact ⟨hs, List.prefix_rfl, List.prefix_rfl, rfl, rfl, rfl, fun h _ => h,
      fun _ _ _ _ _ => List.nil_prefix⟩

end Peeks

section Calls

variable (arrivals : ℕ → List Byte) (carry : ℕ → Bool) {s t : System}

structure Between (s : System) : Prop where
  stores : Stores s
  room : s.arrived.length ≤ s.position + 93
  rx : ∃ polled count, s.rx =
    ⟨0x20, 93, polled % 256, count, polled - s.position, s.position % 93⟩ ∧
      s.position ≤ polled ∧ polled ≤ s.arrived.length

structure Polled (s : System) (r : System × Option ℕ) : Prop where
  stores : Stores r.1
  trace : s.trace <+: r.1.trace
  position : r.1.position = s.position
  polled : Between s → Fine r.1 → r.2.isNone = false ∧ r.1.arrived.length ≤ r.1.position + 93 ∧
    r.1.position ≤ r.1.arrived.length ∧ ∃ count, r.1.rx =
      ⟨0x20, 93, r.1.arrived.length % 256, count, r.1.waiting, r.1.position % 93⟩

theorem Send_Byte_pkt_memory (s : Firmware) : (Send_Byte_pkt s).memory =
    Function.update s.memory (endpoint (s.file BD0IAL) 0) s.w := by
  funext x
  simp [Send_Byte_pkt, endpoint, Cpu.indirect, Function.update_apply]

theorem rcpod_UsartRxProgress_spec (hs : Stores s) :
    ∃ u, Interrupted s u ∧ (rcpod_UsartRxProgress arrivals carry s).2 = u.arrived.length % 256 ∧
      ∃ cpu, (rcpod_UsartRxProgress arrivals carry s).1 = { u with cpu := cpu } ∧
        cpu.reads = s.cpu.reads ∧ ∀ i, cpu.memory (slot i) = u.cpu.memory (slot i) := by
  have hu := interrupts_spec arrivals hs
  let u := interrupts arrivals s
  let cpu : Firmware := { setup 0 0 (carry u.time) u.cpu with
    w := u.receiver.rx_count
    z := u.receiver.rx_count = 0 }
  have hBD0IAL : (Send_Byte_pkt cpu).file BD0IAL = cpu.file BD0IAL := by
    simp [Send_Byte_pkt]
  have hreads : (Send_Byte_pkt cpu).reads = s.cpu.reads := by
    have hsame : u.cpu.reads = s.cpu.reads := by rw [hu.cpu]
    rw [← hsame]
    simp [Send_Byte_pkt, cpu, setup]
  refine ⟨u, hu, ?_, Send_Byte_pkt cpu, rfl, hreads, fun i => ?_⟩
  · change ((Send_Byte_pkt cpu).memory (endpoint ((Send_Byte_pkt cpu).file BD0IAL) 0)).toNat = _
    rw [Send_Byte_pkt_memory, hBD0IAL, Function.update_self]
    change u.receiver.rx_count.toNat = _
    rw [hu.stores.receiver, BitVec.toNat_ofNat]
  · rw [Send_Byte_pkt_memory, Function.update_of_ne (slot_ne_endpoint i _ _)]
    rfl

theorem newBytes_eq {polled n : ℕ} (h : polled ≤ n) (hlt : n < polled + 256) :
    (if ((n % 256 : ℕ) : ℤ) - (polled % 256 : ℕ) < 0 then
      ((n % 256 : ℕ) : ℤ) - (polled % 256 : ℕ) + 256
    else ((n % 256 : ℕ) : ℤ) - (polled % 256 : ℕ)).toNat = n - polled := by
  split_ifs <;> omega

theorem rcpod_SerialRxProgress_spec (hs : Stores s) :
    Polled s (rcpod_SerialRxProgress arrivals carry s) := by
  obtain ⟨u, hu, hcount8, cpu, hsystem, hreads, hmemory⟩ :=
    rcpod_UsartRxProgress_spec arrivals carry hs
  have hposition : u.position = s.position := by
    rw [System.position, hu.cpu]
    rfl
  rw [rcpod_SerialRxProgress]
  dsimp only
  rw [hsystem, hcount8]
  refine ⟨hu.stores.frame rfl rfl hmemory, hu.trace, congrArg List.length hreads, ?_⟩
  rintro ⟨-, hroom, polled, count, hrx, hpolled, hle⟩ hfine
  have hlast := hu.room hroom hfine
  have hgrows := hu.grows.length_le
  have hunread : polled - s.position + (u.arrived.length - polled) =
      u.arrived.length - s.position := by
    omega
  have hcpu : cpu.reads.length = s.position := congrArg List.length hreads
  rw [hposition] at hlast
  simp only [hu.rx, hrx, newBytes_eq (Nat.le_trans hle hgrows) (by omega : _ < polled + 256),
    hunread]
  refine ⟨?_, ?_, ?_, count + (u.arrived.length - polled), ?_⟩
  · rw [if_neg (by omega)]
    rfl
  · change u.arrived.length ≤ cpu.reads.length + 93
    rw [hcpu]
    exact hlast
  · change cpu.reads.length ≤ u.arrived.length
    omega
  · change _ = (⟨0x20, 93, _, _, u.arrived.length - cpu.reads.length,
      cpu.reads.length % 93⟩ : Rx)
    rw [hcpu]

theorem readBlocks_of_read (count fuel : ℕ) {s : System} (h : s.rx.unread = 0)
    (buffer : List Byte) (retval : ℕ) :
    readBlocks arrivals carry count fuel s buffer retval = (s, buffer, retval) := by
  cases fuel with
  | zero => rfl
  | succ fuel => rw [readBlocks, if_neg fun h' => absurd h (Nat.ne_of_gt h'.2)]

theorem readBlocks_spec {count : ℕ} {buffer : List Byte} (hs : Stores s)
    (hroom : s.arrived.length ≤ s.position + 93) (hle : s.position ≤ s.arrived.length)
    (hrx : ∃ total, s.rx =
      ⟨0x20, 93, s.arrived.length % 256, total, s.waiting, s.position % 93⟩)
    (hblock : count = 0 ∨ s.waiting = 0 ∨ s.waiting ≤ count ∧ s.position % 93 + s.waiting ≤ 93)
    (hfine : Fine (readBlocks arrivals carry count (s.rx.unread + 1) s buffer 0).1) :
    Between (readBlocks arrivals carry count (s.rx.unread + 1) s buffer 0).1 ∧
      ∃ n block, (readBlocks arrivals carry count (s.rx.unread + 1) s buffer 0).2 =
          (block ++ buffer.drop n, n) ∧ n ≤ count ∧ block.length = n ∧
        (readBlocks arrivals carry count (s.rx.unread + 1) s buffer 0).1.position = s.position + n ∧
        block <+: (readBlocks arrivals carry count (s.rx.unread + 1) s buffer 0).1.arrived.drop
          s.position := by
  obtain ⟨total, hrx⟩ := hrx
  have hunread : s.rx.unread = s.waiting := by rw [hrx]
  by_cases hstop : 0 < count ∧ 0 < s.waiting
  · have hsize : blockSize s.rx count = s.waiting := by
      rw [blockSize, hrx]
      dsimp only
      split_ifs <;> omega
    have haddress : s.rx.address + s.rx.tail_index = 0x20 + s.position % 93 := by rw [hrx]
    have hread := rcpod_PeekBuffer_reads arrivals carry hs (0x20 + s.position % 93) s.waiting
    generalize hr :
      rcpod_PeekBuffer arrivals carry (0x20 + s.position % 93) s.waiting s = r at hread
    have heq : readBlocks arrivals carry count (s.rx.unread + 1) s buffer 0 =
        ({ r.1 with rx := ⟨0x20, 93, s.arrived.length % 256, total, 0,
          (s.position + s.waiting) % 93⟩ }, r.2 ++ buffer.drop s.waiting, s.waiting) := by
      rw [readBlocks, hunread, if_pos hstop]
      dsimp only
      rw [hsize, haddress, hr, readBlocks_of_read]
      · simp only [hread.rx, hrx, Nat.sub_self, Nat.zero_add, Nat.mod_add_mod]
      · change r.1.rx.unread - s.waiting = 0
        rw [hread.rx, hrx, Nat.sub_self]
    rw [heq] at hfine ⊢
    have hlt : s.position + s.waiting = s.arrived.length := by
      rw [System.waiting]
      omega
    have hposition : System.position { r.1 with rx := ⟨0x20, 93, s.arrived.length % 256, total, 0,
        (s.position + s.waiting) % 93⟩ } = s.position + s.waiting := hread.position
    have hbytes := hread.bytes (fun _ => rfl) (by omega) (Nat.le_of_eq hlt) hroom hfine
    refine ⟨⟨hread.stores.frame rfl rfl fun _ => rfl, hread.room hroom hfine,
      s.arrived.length, total, ?_, ?_, hread.grows.length_le⟩,
      s.waiting, r.2, rfl, by omega, hread.length, hposition, hbytes⟩
    · rw [hposition, hlt, Nat.sub_self]
    · exact Nat.le_of_eq (hposition.trans hlt)
  · have heq : readBlocks arrivals carry count (s.rx.unread + 1) s buffer 0 = (s, buffer, 0) := by
      rw [readBlocks, hunread, if_neg hstop]
    rw [heq]
    exact ⟨⟨hs, hroom, s.arrived.length, total, hrx, hle, Nat.le_refl _⟩, 0, [], rfl,
      Nat.zero_le _, rfl, rfl, List.nil_prefix⟩

theorem readBlocks_keeps (count fuel : ℕ) {s : System} (hs : Stores s) (buffer : List Byte)
    (retval : ℕ) :
    Stores (readBlocks arrivals carry count fuel s buffer retval).1 ∧
      s.trace <+: (readBlocks arrivals carry count fuel s buffer retval).1.trace := by
  induction fuel generalizing s buffer retval with
  | zero => exact ⟨hs, List.prefix_rfl⟩
  | succ fuel ih =>
    rw [readBlocks]
    split_ifs
    · have hread := rcpod_PeekBuffer_reads arrivals carry hs (s.rx.address + s.rx.tail_index)
        (blockSize s.rx count)
      let r := rcpod_PeekBuffer arrivals carry (s.rx.address + s.rx.tail_index)
        (blockSize s.rx count) s
      have hnext : Stores { r.1 with rx := { r.1.rx with
          unread := r.1.rx.unread - blockSize s.rx count
          tail_index := (r.1.rx.tail_index + blockSize s.rx count) % r.1.rx.size } } :=
        hread.stores.frame rfl rfl fun _ => rfl
      have hrest := ih hnext (r.2 ++ buffer.drop (blockSize s.rx count))
        (retval + blockSize s.rx count)
      exact ⟨hrest.1, hread.trace.trans hrest.2⟩
    · exact ⟨hs, List.prefix_rfl⟩

theorem rcpod_SerialRxRead_spec (hs : Stores s) (buffer : List Byte) :
    Stores (rcpod_SerialRxRead arrivals carry buffer s).system ∧
      s.trace <+: (rcpod_SerialRxRead arrivals carry buffer s).system.trace ∧
      (Between s → Fine (rcpod_SerialRxRead arrivals carry buffer s).system →
        Between (rcpod_SerialRxRead arrivals carry buffer s).system ∧
        (rcpod_SerialRxRead arrivals carry buffer s).system.position =
          s.position + (rcpod_SerialRxRead arrivals carry buffer s).value.toNat ∧
        Delivers s.position buffer (rcpod_SerialRxRead arrivals carry buffer s)) := by
  have hpoll := rcpod_SerialRxProgress_spec arrivals carry hs
  let p := rcpod_SerialRxProgress arrivals carry s
  let t : System :=
    { p.1 with trace := p.1.trace ++ [.read buffer.length p.1.position p.1.waiting] }
  have ht : Stores t := hpoll.stores.frame rfl rfl fun _ => rfl
  obtain ⟨hstores, htrace⟩ :=
    readBlocks_keeps arrivals carry buffer.length (t.rx.unread + 1) ht buffer 0
  refine ⟨hstores, (hpoll.trace.trans (List.prefix_append _ _)).trans htrace, ?_⟩
  intro hbetween hfine
  have hfinet : Fine t := hfine.of_grows htrace
  obtain ⟨hsome, hroom, hle, hrx⟩ :=
    hpoll.polled hbetween (hfinet.of_grows (List.prefix_append _ _))
  have hblock := hfinet (.read buffer.length p.1.position p.1.waiting) (by simp [t])
  obtain ⟨hbetween', n, block, heq, hn, hlength, hposition, hbytes⟩ :=
    readBlocks_spec arrivals carry ht hroom hle hrx hblock hfine
  have htposition : t.position = s.position := hpoll.position
  have hvalue : (rcpod_SerialRxRead arrivals carry buffer s).value = n :=
    congrArg (fun r : List Byte × ℕ => (r.2 : ℤ)) heq
  have hbuffer : (rcpod_SerialRxRead arrivals carry buffer s).buffer = block ++ buffer.drop n :=
    congrArg Prod.fst heq
  rw [htposition] at hposition hbytes
  refine ⟨hbetween', ?_, .inr ⟨?_, n, hvalue, ?_, hn, ?_⟩⟩
  · rw [hvalue]
    exact hposition
  · change ¬p.2.isNone = true
    rw [hsome]
    exact Bool.false_ne_true
  · obtain ⟨-, -, polled, total, -, hpolled, hle'⟩ := hbetween'
    exact Nat.le_trans (hposition ▸ hpolled) hle'
  · rw [hbuffer]
    congr 1
    rw [← hlength]
    exact List.prefix_iff_eq_take.mp hbytes

end Calls

section Runs

variable (arrivals : ℕ → List Byte) (carry : ℕ → Bool) {s : System}

theorem between_of_usartTxRx {n : ℕ} (hn : n ≤ 93) (s : System) :
    Between (rcpod_UsartTxRx carry RCPOD_REG_SCRATCHPAD n RCPOD_SCRATCHPAD_SIZE s).fresh := by
  have hsize : ∀ n < 94, (BitVec.ofNat 16 (n ||| 0x5D <<< 8)).extractLsb' 8 8 = (93 : Byte) := by
    decide
  have hreceiver : ∀ wVal : BitVec 16, wVal.extractLsb' 8 8 = 93 →
      (request_UsartTxRx { s with cpu := setup wVal 0x20 (carry s.time) s.cpu }).receiver =
        ⟨0x20, 0x20, false, 93, 93, 0⟩ := by
    intro wVal h
    simp [request_UsartTxRx, setup, Cpu.bit, h]
  refine ⟨⟨hreceiver _ (hsize n (Nat.lt_succ_of_le hn)), fun i b hb => ?_⟩, Nat.zero_le _, 0, 0,
    rfl, Nat.le_refl _, Nat.le_refl _⟩
  exact absurd hb (by simp [System.fresh])

theorem between_of_starts (h : Starts carry s) : Between s ∧ s.position = 0 := by
  obtain ⟨t, rfl | ⟨buffer, hbuffer, rfl⟩⟩ := h
  · exact ⟨between_of_usartTxRx carry (Nat.zero_le _) t, rfl⟩
  · rw [rcpod_SerialTxRxStart, if_neg (Nat.not_lt.mpr hbuffer)]
    exact ⟨between_of_usartTxRx carry hbuffer _, rfl⟩

theorem perform_spec {s : System × ℕ} (hs : Stores s.1) (c : Call) :
    Stores (perform arrivals carry s c).1 ∧ s.1.trace <+: (perform arrivals carry s c).1.trace ∧
      (Between s.1 → s.1.position = s.2 → Fine (perform arrivals carry s c).1 →
        Between (perform arrivals carry s c).1 ∧
          (perform arrivals carry s c).1.position = (perform arrivals carry s c).2) := by
  cases c with
  | progress =>
    obtain ⟨hstores, htrace, hposition, hpolled⟩ := rcpod_SerialRxProgress_spec arrivals carry hs
    refine ⟨hstores, htrace, fun hbetween heq hfine => ?_⟩
    obtain ⟨-, hroom, hle, total, hrx⟩ := hpolled hbetween hfine
    exact ⟨⟨hstores, hroom, _, total, hrx, hle, Nat.le_refl _⟩, hposition.trans heq⟩
  | read buffer =>
    obtain ⟨hstores, htrace, hread⟩ := rcpod_SerialRxRead_spec arrivals carry hs buffer
    refine ⟨hstores, htrace, fun hbetween heq hfine => ?_⟩
    obtain ⟨hbetween', hposition, -⟩ := hread hbetween hfine
    exact ⟨hbetween', hposition.trans (by rw [heq]; rfl)⟩

theorem run_spec (h : Between s) (hzero : s.position = 0) (calls : List Call) :
    Stores (run arrivals carry calls s).1 ∧
      (Fine (run arrivals carry calls s).1 → Between (run arrivals carry calls s).1 ∧
        (run arrivals carry calls s).1.position = (run arrivals carry calls s).2) := by
  have hrun : ∀ (calls : List Call) (r : System × ℕ), Stores r.1 →
      Stores (calls.foldl (perform arrivals carry) r).1 ∧
        r.1.trace <+: (calls.foldl (perform arrivals carry) r).1.trace ∧
        (Between r.1 → r.1.position = r.2 →
          Fine (calls.foldl (perform arrivals carry) r).1 →
            Between (calls.foldl (perform arrivals carry) r).1 ∧
            (calls.foldl (perform arrivals carry) r).1.position =
              (calls.foldl (perform arrivals carry) r).2) := by
    intro calls
    induction calls with
    | nil => exact fun r hr => ⟨hr, List.prefix_rfl, fun hbetween heq _ => ⟨hbetween, heq⟩⟩
    | cons c calls ih =>
      intro r hr
      obtain ⟨hstores, htrace, hstep⟩ := perform_spec arrivals carry hr c
      obtain ⟨hstores', htrace', hrest⟩ := ih _ hstores
      refine ⟨hstores', htrace.trans htrace', fun hbetween heq hfine => ?_⟩
      obtain ⟨hbetween', heq'⟩ := hstep hbetween heq (hfine.of_grows htrace')
      exact hrest hbetween' heq' hfine
  obtain ⟨hstores, -, hfine⟩ := hrun calls (s, 0) h.stores
  exact ⟨hstores, hfine h hzero⟩

end Runs

/-- In a run in which all that happens is fine, every read delivers the next bytes. -/
theorem serial_reads_deliver (arrivals : ℕ → List Byte) (carry : ℕ → Bool) {s : System}
    (h : Starts carry s) (calls : List Call) (buffer : List Byte)
    (hfine : Fine (rcpod_SerialRxRead arrivals carry buffer
      (run arrivals carry calls s).1).system) :
    Delivers (run arrivals carry calls s).2 buffer
      (rcpod_SerialRxRead arrivals carry buffer (run arrivals carry calls s).1) := by
  obtain ⟨hbetween, hzero⟩ := between_of_starts carry h
  obtain ⟨hstores, hrun⟩ := run_spec arrivals carry hbetween hzero calls
  obtain ⟨-, htrace, hread⟩ := rcpod_SerialRxRead_spec arrivals carry hstores buffer
  obtain ⟨hbetween', hposition⟩ := hrun (hfine.of_grows htrace)
  rw [← hposition]
  exact (hread hbetween' hfine).2.2

def idle : System :=
  ⟨⟨0, false, false, false, 0, fun _ => 0, fun _ => 0, []⟩, ⟨0, 0, false, 0, 0, 0⟩,
    ⟨0, 0, 0, 0, 0, 0⟩, 0, [], []⟩

def pair (t : ℕ) : List Byte := if t = 0 then [0x41, 0x42] else []

theorem serial_reads_deliver_pair :
    Delivers (run pair (fun _ => false) [.progress]
        (rcpod_SerialRxStart (fun _ => false) idle).fresh).2 [0, 0, 0]
      (rcpod_SerialRxRead pair (fun _ => false) [0, 0, 0] (run pair (fun _ => false) [.progress]
        (rcpod_SerialRxStart (fun _ => false) idle).fresh).1) :=
  serial_reads_deliver pair (fun _ => false) ⟨idle, .inl rfl⟩ [.progress] [0, 0, 0] (by
    unfold Fine
    decide +kernel)

/-- One byte is asked for, two are counted, and the first is overwritten. -/
theorem serial_read_repeats :
    let r := rcpod_SerialRxRead pair (fun _ => false) [0]
      (rcpod_SerialRxStart (fun _ => false) idle).fresh
    r.value = 2 ∧ r.buffer = [0x42] ∧ ¬Delivers 0 [0] r := by
  intro r
  have hvalue : r.value = 2 := by decide +kernel
  have hbuffer : r.buffer = [0x42] := by decide +kernel
  refine ⟨hvalue, hbuffer, ?_⟩
  rintro (⟨-, h⟩ | ⟨-, n, hn, -, hle, -⟩)
  · exact absurd (hvalue.symm.trans h) (by decide)
  · rw [hvalue] at hn
    change n ≤ 1 at hle
    omega

end NaviMisc.Rcpod.Serial
