import NaviMisc.Rcpod.SerialRx

/-!
I2C transfers (src/i2c.c, firmware/commands.asm, firmware/i2c.asm): the ones that the host makes by
asserting pins, and the ones that the firmware makes.
-/

namespace NaviMisc.Rcpod.I2c

open Lib.Pic Var Serial

structure rcpod_i2c_dev where
  speed : ℤ
  clock : Byte
  data : Byte
  address : Byte
  deriving DecidableEq

abbrev Pins := Byte × Byte

def rcpod_i2c_dev.pins (idev : rcpod_i2c_dev) : Pins := (idev.clock, idev.data)

/-- What is put on the bus: a byte has the acknowledgement of the slave, an answer is followed by
one of the master. -/
inductive Signal
  | start
  | byte (data : Byte) (acknowledged : Bool)
  | answer (data : Byte)
  | acknowledge (ack : Bool)
  | stop
  deriving DecidableEq

abbrev Bus := List (Pins × Signal)

structure Slave where
  acknowledges : Bus → Byte → Bool
  answers : Bus → Byte

section Software

variable (slave : Slave)

def put (pins : Pins) (signal : Signal) (bus : Bus) : Bus := bus ++ [(pins, signal)]

def write_byte (pins : Pins) (byte : Byte) (bus : Bus) : Bus × Bool :=
  (put pins (.byte byte (slave.acknowledges bus byte)) bus, slave.acknowledges bus byte)

def read_byte (pins : Pins) (bus : Bus) : Bus × Byte :=
  (put pins (.answer (slave.answers bus)) bus, slave.answers bus)

/-- The loop of `softi2c_write` from index `i` on, with `n` bytes left. -/
def softWrites (pins : Pins) (write_buffer : ℕ → Byte) : ℕ → ℕ → Bus → Bus × ℕ
  | 0, i, bus => (put pins .stop bus, i + 1)
  | n + 1, i, bus =>
    let (bus, ack) := write_byte slave pins (write_buffer i) bus
    if ack then softWrites pins write_buffer n (i + 1) bus else (put pins .stop bus, i + 1)

def softi2c_write (idev : rcpod_i2c_dev) (write_buffer : ℕ → Byte) (write_count : ℕ)
    (bus : Bus) : Bus × ℕ :=
  let bus := put idev.pins .start bus
  let (bus, ack) := write_byte slave idev.pins (idev.address <<< 1) bus
  if ack then softWrites slave idev.pins write_buffer write_count 0 bus
  else (put idev.pins .stop bus, 0)

def softReads (pins : Pins) : ℕ → Bus → Bus × List Byte
  | 0, bus => (bus, [])
  | n + 1, bus =>
    let (bus, data) := read_byte slave pins bus
    let (bus, rest) := softReads pins n (put pins (.acknowledge (0 < n)) bus)
    (bus, data :: rest)

structure Transfer where
  bus : Bus
  read_buffer : List Byte
  acks : ℕ
  deriving DecidableEq

def softi2c_read (idev : rcpod_i2c_dev) (read_buffer : List Byte) (read_count : ℕ)
    (bus : Bus) : Transfer :=
  let bus := put idev.pins .start bus
  let (bus, ack) := write_byte slave idev.pins (idev.address <<< 1 ||| 1) bus
  if ack then
    let (bus, data) := softReads slave idev.pins read_count bus
    ⟨put idev.pins .stop bus, data ++ read_buffer.drop read_count, 1⟩
  else ⟨put idev.pins .stop bus, read_buffer, 0⟩

def softi2c_write_read (idev : rcpod_i2c_dev) (write_buffer : ℕ → Byte) (write_count : ℕ)
    (read_buffer : List Byte) (read_count : ℕ) (bus : Bus) : Transfer :=
  let (bus, ack_total) := softi2c_write slave idev write_buffer write_count bus
  if ack_total = write_count + 1 then
    let r := softi2c_read slave idev read_buffer read_count bus
    { r with acks := ack_total + r.acks }
  else ⟨bus, read_buffer, ack_total⟩

end Software

structure Master where
  cpu : Firmware
  i2c_speed : Byte
  i2c_clock_pin : Byte
  i2c_data_pin : Byte
  i2c_address : Byte
  i2c_ack_count : Byte
  bus : Bus

section Firmware

variable (slave : Slave)

namespace Master

variable (s : Master)

def pins : Pins := (s.i2c_clock_pin, s.i2c_data_pin)

def put (signal : Signal) : Master := { s with bus := I2c.put s.pins signal s.bus }

end Master

def i2c_write_byte (byte : Byte) (s : Master) : Master × Bool :=
  let r := write_byte slave s.pins byte s.bus
  ({ s with bus := r.1 }, r.2)

def i2c_read_byte (s : Master) : Master × Byte :=
  let r := read_byte slave s.pins s.bus
  ({ s with bus := r.1 }, r.2)

/-- `indf j` is what stands `j` bytes behind the pointer. -/
def i2c_Write_loop (indf : ℕ → Byte) : ℕ → ℕ → Master → Master
  | 0, _, s => s.put .stop
  | n + 1, j, s =>
    let (s, z) := i2c_write_byte slave (indf j) s
    if z then
      i2c_Write_loop indf n (j + 1) { s with i2c_ack_count := s.i2c_ack_count + 1 }
    else s.put .stop

def i2c_Write (indf : ℕ → Byte) (w : Byte) (s : Master) : Master :=
  let (s, z) := i2c_write_byte slave (s.i2c_address <<< 1) (s.put .start)
  if z then
    i2c_Write_loop slave indf w.toNat 0 { s with i2c_ack_count := s.i2c_ack_count + 1 }
  else s.put .stop

def i2c_Read_loop (irp : Bool) : ℕ → Byte → Master → Master
  | 0, _, s => s
  | n + 1, fsr, s =>
    let (s, data) := i2c_read_byte slave s
    let s := { s with
      cpu := { s.cpu with
        memory := Function.update s.cpu.memory (BitVec.ofBool irp ++ fsr) data } }
    if n = 0 then s.put (.acknowledge false)
    else i2c_Read_loop irp n (fsr + 1) (s.put (.acknowledge true))

def i2c_Read (irp : Bool) (fsr w : Byte) (s : Master) : Master :=
  let (s, z) := i2c_write_byte slave (s.i2c_address <<< 1 ||| 1) (s.put .start)
  if z then
    (i2c_Read_loop slave irp w.toNat fsr { s with i2c_ack_count := s.i2c_ack_count + 1 }).put .stop
  else s.put .stop

/-- The bytes of the setup packet from `wValue` on. No request is made for more than four. -/
def setupBytes (cpu : Firmware) : ℕ → Byte
  | 0 => cpu.file wValue
  | 1 => cpu.file (wValue, 1)
  | 2 => cpu.file wIndex
  | 3 => cpu.file (wIndex, 1)
  | _ => 0

def request_I2CSet (s : Master) : Master :=
  { s with
    i2c_speed := s.cpu.file (wIndex, 1)
    i2c_address := s.cpu.file wIndex
    i2c_clock_pin := s.cpu.file (wValue, 1)
    i2c_data_pin := s.cpu.file wValue }

def sendAckCount (s : Master) : Master × List Byte :=
  let cpu := Send_Byte_pkt { s.cpu with w := s.i2c_ack_count, z := s.i2c_ack_count = 0 }
  ({ s with cpu := cpu }, reply 1 cpu)

def write4_common (w : Byte) (s : Master) : Master × List Byte :=
  sendAckCount (i2c_Write slave (setupBytes s.cpu) w { s with i2c_ack_count := 0 })

def request_I2CWrite0 (s : Master) : Master × List Byte := write4_common slave 0 s

def request_I2CWrite1 (s : Master) : Master × List Byte := write4_common slave 1 s

def request_I2CWrite2 (s : Master) : Master × List Byte := write4_common slave 2 s

def request_I2CWrite3 (s : Master) : Master × List Byte := write4_common slave 3 s

def request_I2CWrite4 (s : Master) : Master × List Byte := write4_common slave 4 s

def request_I2CRead8 (s : Master) : Master × List Byte :=
  let count := s.cpu.file wValue
  let s := i2c_Read slave true (s.cpu.file BD0IAL) count { s with i2c_ack_count := 0 }
  if s.i2c_ack_count = 1 then (s, reply count.toNat s.cpu) else (s, [])

def request_I2CW1Read8 (s : Master) : Master × List Byte :=
  let s := i2c_Write slave (setupBytes s.cpu) 1 { s with i2c_ack_count := 0 }
  if s.i2c_ack_count = 2 then
    let count := s.cpu.file wIndex
    let s := i2c_Read slave true (s.cpu.file BD0IAL) count s
    if s.i2c_ack_count = 3 then (s, reply count.toNat s.cpu) else (s, [])
  else (s, [])

/-- The transaction of `request_I2CTxRx` that reads. -/
def txrxRead (s : Master) : Master :=
  if s.cpu.file (wValue, 1) = 0 then s
  else i2c_Read slave (s.cpu.bit (wIndex, 1) 0) (s.cpu.file wIndex) (s.cpu.file (wValue, 1)) s

def request_I2CTxRx (s : Master) : Master × List Byte :=
  let s := { s with i2c_ack_count := 0 }
  let indf : ℕ → Byte := fun j =>
    s.cpu.memory (BitVec.ofBool (s.cpu.bit (wIndex, 1) 0) ++ (s.cpu.file wIndex + BitVec.ofNat 8 j))
  if s.cpu.file wValue = 0 then sendAckCount (txrxRead slave s)
  else
    let s := i2c_Write slave indf (s.cpu.file wValue) s
    -- a write that was acknowledged throughout has the address byte beside its count
    if s.i2c_ack_count - 1 = s.cpu.file wValue then sendAckCount (txrxRead slave s)
    else sendAckCount s

end Firmware

structure rcpod_dev where
  bcdDevice : ℕ
  last_i2c_dev : Option rcpod_i2c_dev
  pod : Master

/-- The buffer and the count that a call leaves, and the indices of `write_buffer` that it reads. -/
structure Returned where
  dev : rcpod_dev
  read_buffer : List Byte
  acks : ℕ
  reads : List ℕ

section Host

variable (slave : Slave) (s : rcpod_dev)

def rcpod_dev.setup (wVal wInd : BitVec 16) : Master :=
  { s.pod with cpu := Rcpod.setup wVal wInd s.pod.cpu.c s.pod.cpu }

def i2c_set_dev (idev : rcpod_i2c_dev) : rcpod_dev :=
  if s.last_i2c_dev = some idev then s
  else
    { s with
      last_i2c_dev := some idev
      pod := request_I2CSet (s.setup (idev.clock ++ idev.data) ((0 : Byte) ++ idev.address)) }

def fillScratchpad (carry : ℕ → Bool) (write_buffer : ℕ → Byte) (write_count : ℕ) : rcpod_dev :=
  { s with
    pod := { s.pod with
      cpu :=
        if 0 < write_count then
          rcpod_PokeBuffer carry RCPOD_REG_SCRATCHPAD ((List.range write_count).map write_buffer)
            s.pod.cpu
        else s.pod.cpu } }

def requestTxRx (write_count read_count : ℕ) : Master × List Byte :=
  request_I2CTxRx slave (s.setup (BitVec.ofNat 16 (read_count <<< 8 ||| write_count))
    (BitVec.ofNat 16 RCPOD_REG_SCRATCHPAD))

def readScratchpad (carry : ℕ → Bool) (read_count : ℕ) (cpu : Firmware) : Firmware × List Byte :=
  if 0 < read_count then rcpod_PeekBuffer carry RCPOD_REG_SCRATCHPAD read_count cpu else (cpu, [])

/-- The call for an error returns. -/
def i2c_write_read (pokeCarry peekCarry : ℕ → Bool) (write_buffer : ℕ → Byte) (write_count : ℕ)
    (read_buffer : List Byte) (read_count : ℕ) : Returned :=
  if RCPOD_SCRATCHPAD_SIZE < write_count then ⟨s, read_buffer, 0, []⟩
  else if RCPOD_SCRATCHPAD_SIZE < read_count then ⟨s, read_buffer, 0, []⟩
  else
    let s := fillScratchpad s pokeCarry write_buffer write_count
    let (pod, ack_count) := requestTxRx slave s write_count read_count
    let (cpu, data) := readScratchpad peekCarry read_count pod.cpu
    ⟨{ s with pod := { pod with cpu := cpu } }, data ++ read_buffer.drop read_count,
      (ack_count.headD 0).toNat, List.range write_count⟩

def receive (acks : ℕ) (reads : List ℕ) (read_buffer : List Byte) (r : Master × List Byte) :
    Returned :=
  ⟨{ s with pod := r.1 }, r.2 ++ read_buffer.drop r.2.length, if r.2 = [] then 0 else acks, reads⟩

def i2c_write1_read8 (write_byte : Byte) (read_buffer : List Byte) (read_count : ℕ) : Returned :=
  receive s 3 [0] read_buffer
    (request_I2CW1Read8 slave (s.setup (write_byte.setWidth 16) (BitVec.ofNat 16 read_count)))

def i2c_read8 (read_buffer : List Byte) (read_count : ℕ) : Returned :=
  receive s 1 [] read_buffer (request_I2CRead8 slave (s.setup (BitVec.ofNat 16 read_count) 0))

def write4_cmd : ℕ → Master → Master × List Byte
  | 0 => request_I2CWrite0 slave
  | 1 => request_I2CWrite1 slave
  | 2 => request_I2CWrite2 slave
  | 3 => request_I2CWrite3 slave
  | _ => request_I2CWrite4 slave

def i2c_write4 (write_buffer : ℕ → Byte) (write_count : ℕ) : Returned :=
  let (pod, ack_count) := write4_cmd slave (if 4 < write_count then 4 else write_count)
    (s.setup (write_buffer 1 ++ write_buffer 0) (write_buffer 3 ++ write_buffer 2))
  ⟨{ s with pod := pod }, [], (ack_count.headD 0).toNat, [0, 1, 2, 3]⟩

def rcpod_HasAcceleratedI2C : Bool := 0x0120 ≤ s.bcdDevice

def soft (reads : List ℕ) (r : Transfer) : Returned :=
  ⟨{ s with pod := { s.pod with bus := r.bus } }, r.read_buffer, r.acks, reads⟩

def rcpod_I2CWriteRead (pokeCarry peekCarry : ℕ → Bool) (idev : rcpod_i2c_dev)
    (write_buffer : ℕ → Byte) (write_count : ℕ) (read_buffer : List Byte) (read_count : ℕ) :
    Returned :=
  if !rcpod_HasAcceleratedI2C s then
    soft s (List.range write_count)
      (softi2c_write_read slave idev write_buffer write_count read_buffer read_count s.pod.bus)
  else
    let s := i2c_set_dev s idev
    if write_count = 1 ∧ read_count ≤ 8 ∧ 0 < read_count then
      i2c_write1_read8 slave s (write_buffer 0) read_buffer read_count
    else
      i2c_write_read slave s pokeCarry peekCarry write_buffer write_count read_buffer read_count

def rcpod_I2CWrite (pokeCarry peekCarry : ℕ → Bool) (idev : rcpod_i2c_dev)
    (write_buffer : ℕ → Byte) (write_count : ℕ) : Returned :=
  if !rcpod_HasAcceleratedI2C s then
    let (bus, acks) := softi2c_write slave idev write_buffer write_count s.pod.bus
    soft s (List.range write_count) ⟨bus, [], acks⟩
  else
    let s := i2c_set_dev s idev
    if write_count ≤ 4 then i2c_write4 slave s write_buffer write_count
    else i2c_write_read slave s pokeCarry peekCarry write_buffer write_count [] 0

def rcpod_I2CRead (pokeCarry peekCarry : ℕ → Bool) (idev : rcpod_i2c_dev)
    (read_buffer : List Byte) (read_count : ℕ) : Returned :=
  if !rcpod_HasAcceleratedI2C s then
    soft s [] (softi2c_read slave idev read_buffer read_count s.pod.bus)
  else
    let s := i2c_set_dev s idev
    if read_count ≤ 8 ∧ 0 < read_count then i2c_read8 slave s read_buffer read_count
    else i2c_write_read slave s pokeCarry peekCarry (fun _ => 0) 0 read_buffer read_count

end Host

end NaviMisc.Rcpod.I2c
