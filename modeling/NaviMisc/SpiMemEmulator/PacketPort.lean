import NaviMisc.Lib.ByteStuffing
import NaviMisc.Lib.Text

/-!
The framing of packets on the serial port, as the client has it (spime.py).
-/

namespace NaviMisc.SpiMemEmulator

open NaviMisc.Lib
open NaviMisc.Lib.ByteStuffing

abbrev Byte := BitVec 8

def FLAG : Byte := 0x7e

def ESCAPE : Byte := 0x7d

def ESC_XOR : Byte := 0x20

def stuffing : Stuffing Byte where
  flag := FLAG
  escape := ESCAPE
  mask a := a ^^^ ESC_XOR
  mask_mask a := by rw [BitVec.xor_assoc, BitVec.xor_self, BitVec.xor_zero]
  flag_ne := by decide
  mask_flag := by decide
  mask_escape := by decide

inductive Error
  | indexError
  | structError
  | protocolError (text : String)
  deriving DecidableEq

structure PacketPort where
  rxBuffer : List (List Byte) := []
  escBuffer : List Byte := []
  incoming : List Byte

namespace PacketPort

def escape (data : List Byte) : List Byte :=
  Text.replace [FLAG] [ESCAPE, 0x5e] (Text.replace [ESCAPE] [ESCAPE, 0x5d] data)

def unescape (data : List Byte) : Except Error (List Byte) := do
  match data.splitOn ESCAPE with
  | [] => .ok []
  | first :: chunks =>
    let chunks ← chunks.mapM fun
      | [] => Except.error Error.indexError
      | c :: chunk => .ok ((ESC_XOR ^^^ c) :: chunk)
    .ok (first ++ chunks.flatten)

/-- What `write` sends. -/
def written (packet : List Byte) : List Byte := FLAG :: escape packet

def readBuffer (limit : Option ℕ) (port : PacketPort) : Option (List Byte) × PacketPort :=
  match port.rxBuffer with
  | [] => (none, port)
  | packet :: rest =>
    if port.rxBuffer.length > 1 ∨ ∃ n ∈ limit, packet.length ≥ n then
      (some packet, { port with rxBuffer := rest })
    else
      (none, port)

def subEscapes : List Byte → List Byte
  | [] => []
  | c :: data =>
    if c = ESCAPE ∧ data.head? = some ESCAPE then subEscapes data else c :: subEscapes data

def splitPackets (data : List Byte) (port : PacketPort) :
    Except Error (List (List Byte) × PacketPort) := do
  let data := port.escBuffer ++ data
  let data := subEscapes data
  let data := Text.replace [ESCAPE, FLAG] [FLAG] data
  match data.getLast? with
  | none => .error .indexError
  | some last =>
    let (data, escBuffer) := if last = ESCAPE then (data.dropLast, [ESCAPE]) else (data, [])
    let chunks ← (data.splitOn FLAG).mapM unescape
    .ok (chunks, { port with escBuffer := escBuffer })

def addChunks (rxBuffer chunks : List (List Byte)) : List (List Byte) :=
  match chunks with
  | [] => rxBuffer
  | first :: chunks => rxBuffer.modifyLast (· ++ first) ++ chunks

/-- Up to `n` bytes, of which `available` arrive before the timeout. -/
def serialRead (n available : ℕ) (port : PacketPort) : List Byte × PacketPort :=
  let k := min n available
  (port.incoming.take k, { port with incoming := port.incoming.drop k })

/-- A call of `read`. The list has how many bytes arrive for each read of the serial port. -/
def read (limit : Option ℕ) : List ℕ → PacketPort →
    Except Error (Option (List Byte) × List ℕ × PacketPort)
  | arrivals, port =>
    let (packet, port) := port.readBuffer limit
    match packet.getD [] with
    | c :: packet => .ok (some (c :: packet), arrivals, port)
    | [] =>
      match arrivals with
      | [] => .ok (none, [], port)
      | available :: arrivals => do
        let bufferedBytes := (port.rxBuffer.headD []).length
        let blockSize := max 1 (limit.getD 0 - bufferedBytes)
        let (block, port) := port.serialRead blockSize available
        if block = [] then .ok (none, arrivals, port)
        else do
          let (chunks, port) ← port.splitPackets block
          read limit arrivals { port with rxBuffer := addChunks port.rxBuffer chunks }

end PacketPort

end NaviMisc.SpiMemEmulator

/-!
The protocol for reading and writing memory (protocol.v): three state machines on one clock. The
values that are left open there come with the clock.
-/

namespace NaviMisc.SpiMemEmulator

structure SioInput where
  txReady : Bool
  rxData : Byte
  rxDataStrobe : Bool
  rxFlag : Bool
  memFinish : Bool
  memDataRd : Byte
  cmdIdX : BitVec 4
  cmdAddressX : BitVec 20
  txDataX : Byte

inductive RxState
  | error
  | command
  | addr2
  | addr3
  | data
  deriving DecidableEq

def CMD_WRITE : BitVec 4 := 1

def CMD_READ_16 : BitVec 4 := 2

def CMD_READ_1K : BitVec 4 := 3

def CMD_READ_64K : BitVec 4 := 4

structure SioReceive where
  rxState : RxState
  cmdId : BitVec 4
  cmdAddress : BitVec 20

namespace SioReceive

def reset : SioReceive := ⟨.error, 0, 0⟩

def cmdValid (r : SioReceive) : Bool :=
  r.rxState == .addr2 || r.rxState == .addr3 || r.rxState == .data

def cmdIsWrite (r : SioReceive) : Bool := r.cmdValid && r.cmdId == CMD_WRITE

def cmdIsRead (r : SioReceive) : Bool :=
  r.cmdValid && (r.cmdId == CMD_READ_16 || r.cmdId == CMD_READ_1K || r.cmdId == CMD_READ_64K)

def cmdReplyLen (r : SioReceive) : BitVec 17 :=
  if r.cmdId = CMD_READ_16 then 0x10
  else if r.cmdId = CMD_READ_1K then 0x400
  else if r.cmdId = CMD_READ_64K then 0x10000
  else 0

def cmdNextAddress (i : SioInput) (r : SioReceive) : BitVec 20 :=
  r.cmdAddress.extractLsb' 8 12 ++ i.rxData

def cmdHeaderStrobe (i : SioInput) (r : SioReceive) : Bool := r.rxState == .addr3 && i.rxDataStrobe

def cmdDataStrobe (i : SioInput) (r : SioReceive) : Bool := r.rxState == .data && i.rxDataStrobe

def clock (i : SioInput) (r : SioReceive) : SioReceive :=
  if i.rxFlag then ⟨.command, i.cmdIdX, i.cmdAddressX⟩
  else if i.rxDataStrobe then
    match r.rxState with
    | .error => ⟨.error, i.cmdIdX, i.cmdAddressX⟩
    | .command => ⟨.addr2, i.rxData.extractLsb' 4 4,
        i.rxData.extractLsb' 0 4 ++ r.cmdAddress.extractLsb' 0 16⟩
    | .addr2 => { r with
        rxState := .addr3
        cmdAddress :=
          r.cmdAddress.extractLsb' 16 4 ++ i.rxData ++ r.cmdAddress.extractLsb' 0 8 }
    | .addr3 => { r with rxState := .data, cmdAddress := r.cmdNextAddress i }
    | .data => { r with cmdAddress := r.cmdAddress + 1 }
  else r

end SioReceive

inductive TxState
  | idle
  | flag
  | command
  | addr2
  | addr3
  | data
  deriving DecidableEq

/-- The length of the reply and the address of its data are not reset. -/
structure SioTransmit where
  txState : TxState
  txReplyLen : BitVec 17
  txAddress : BitVec 20
  txData : Byte
  txDataStrobe : Bool
  txFlag : Bool

namespace SioTransmit

def reset (txReplyLen : BitVec 17) (txAddress : BitVec 20) : SioTransmit :=
  ⟨.idle, txReplyLen, txAddress, 0, false, false⟩

def clock (i : SioInput) (rx : SioReceive) (cmdReplyData : Byte) (r : SioTransmit) : SioTransmit :=
  if rx.cmdHeaderStrobe i then
    ⟨.flag, rx.cmdReplyLen, rx.cmdNextAddress i, i.txDataX, false, false⟩
  else if i.txReady && !r.txDataStrobe && !r.txFlag then
    match r.txState with
    | .idle => { r with txData := i.txDataX, txDataStrobe := false, txFlag := false }
    | .flag => { r with
        txState := .command, txData := i.txDataX, txDataStrobe := false, txFlag := true }
    | .command => { r with
        txState := .addr2
        txData := rx.cmdId ++ r.txAddress.extractLsb' 16 4
        txDataStrobe := true, txFlag := false }
    | .addr2 => { r with
        txState := .addr3
        txData := r.txAddress.extractLsb' 8 8
        txDataStrobe := true, txFlag := false }
    | .addr3 => { r with
        txState := .data
        txData := r.txAddress.extractLsb' 0 8
        txDataStrobe := true, txFlag := false }
    | .data =>
      if r.txReplyLen ≠ 0 then
        ⟨.data, r.txReplyLen - 1, r.txAddress + 1, cmdReplyData, true, false⟩
      else
        ⟨.idle, 0, r.txAddress, i.txDataX, false, false⟩
  else { r with txData := i.txDataX, txDataStrobe := false, txFlag := false }

end SioTransmit

inductive MemState
  | idle
  | read
  | write
  deriving DecidableEq

structure SioMemory where
  memState : MemState
  memAddr : BitVec 20
  memBeginRd : Bool
  memBeginWr : Bool
  memDataWr : Byte
  cmdReplyData : Byte

namespace SioMemory

def reset : SioMemory := ⟨.idle, 0, false, false, 0, 0⟩

def clock (i : SioInput) (rx : SioReceive) (tx : SioTransmit) (r : SioMemory) : SioMemory :=
  match r.memState with
  | .idle =>
    if rx.cmdIsWrite && rx.cmdDataStrobe i then
      ⟨.write, rx.cmdAddress, false, true, i.rxData, r.cmdReplyData⟩
    else if rx.cmdIsRead && tx.txState == .data && tx.txDataStrobe then
      { r with memState := .read, memBeginRd := true, memBeginWr := false, memAddr := tx.txAddress }
    else { r with memBeginRd := false, memBeginWr := false }
  | .read => { r with
      cmdReplyData := if i.memFinish then i.memDataRd else r.cmdReplyData
      memState := if i.memFinish then .idle else .read
      memBeginRd := false, memBeginWr := false }
  | .write => { r with memState := .idle, memBeginRd := false, memBeginWr := false }

end SioMemory

structure SioProtocol where
  rx : SioReceive
  tx : SioTransmit
  mem : SioMemory

namespace SioProtocol

def reset (txReplyLen : BitVec 17) (txAddress : BitVec 20) : SioProtocol :=
  ⟨.reset, .reset txReplyLen txAddress, .reset⟩

def clock (i : SioInput) (r : SioProtocol) : SioProtocol where
  rx := r.rx.clock i
  tx := r.tx.clock i r.rx r.mem.cmdReplyData
  mem := r.mem.clock i r.rx r.tx

end SioProtocol

end NaviMisc.SpiMemEmulator
