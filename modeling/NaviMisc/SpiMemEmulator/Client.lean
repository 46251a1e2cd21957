import NaviMisc.SpiMemEmulator.PacketPort

/-!
Calls of `memRead` and `memWrite` (spime.py) on a board with a memory. Neither the serial port nor
the memory takes a certain time.
-/

namespace NaviMisc.SpiMemEmulator

open NaviMisc.Lib.ByteStuffing

structure Packet where
  name : String
  type : BitVec 24
  replyDataLen : ℕ
  address : BitVec 20

namespace Packet

def write (address : ℤ) : Packet := ⟨"Write", 0x100000, 0, BitVec.ofInt 20 address⟩

def read16 (address : ℤ) : Packet := ⟨"Read16", 0x200000, 16, BitVec.ofInt 20 address⟩

def read1K (address : ℤ) : Packet := ⟨"Read1K", 0x300000, 0x400, BitVec.ofInt 20 address⟩

def read64K (address : ℤ) : Packet := ⟨"Read64K", 0x400000, 0x10000, BitVec.ofInt 20 address⟩

def repr (p : Packet) : String := p.name ++ "<0x" ++ p.address.toHex ++ ">"

def header (p : Packet) : List Byte :=
  let word := p.type ||| p.address.setWidth 24
  [word.extractLsb' 16 8, word.extractLsb' 8 8, word.extractLsb' 0 8]

/-- What `send` makes of the reply. -/
def replyData (p : Packet) (reply : List Byte) : Except Error (List Byte) :=
  if reply = [] then .error (.protocolError ("Timed out while sending " ++ p.repr))
  else if reply.take p.header.length ≠ p.header then
    .error (.protocolError ("Incorrect response header for " ++ p.repr))
  else if (reply.drop p.header.length).length ≠ p.replyDataLen then
    .error (.protocolError ("Incorrect response length for " ++ p.repr))
  else .ok (reply.drop p.header.length)

end Packet

inductive Call
  | memRead (offset : ℤ) (length : ℕ)
  | memWrite (offset : ℤ) (data : List Byte)

/-- What a call goes on with when `send` returns. -/
inductive Task
  | memRead (offset : ℤ) (length : ℕ) (data : List Byte)
  | memWrite

/-- A call is in `send`, or it is done. -/
inductive Progress
  | send (packet : Packet) (data : List Byte) (task : Task)
  | done (result : Option (List Byte))

def memRead (offset : ℤ) (length : ℕ) (data : List Byte) : Progress :=
  if length > 0 then
    let packet :=
      if length > 1024 then .read64K offset
      else if length > 16 then .read1K offset
      else .read16 offset
    .send packet [] (.memRead offset length data)
  else .done (some data)

def memWrite (offset : ℤ) (data : List Byte) : Progress := .send (.write offset) data .memWrite

def Call.start : Call → Progress
  | .memRead offset length => SpiMemEmulator.memRead offset length []
  | .memWrite offset data => SpiMemEmulator.memWrite offset data

def Task.resume (block : List Byte) : Task → Progress
  | .memRead offset length data =>
    let block := block.take length
    SpiMemEmulator.memRead (offset + block.length) (length - block.length) (data ++ block)
  | .memWrite => .done none

structure Host where
  calls : List Call
  waiting : Option (Packet × Task) := none
  returned : List (List Byte) := []
  raised : Option Error := none

inductive Access
  | read
  | write
  deriving DecidableEq

structure Board where
  sio : SioProtocol
  txReady : Bool
  request : Option Access
  content : BitVec 20 → Byte
  /-- What the client sent and the board did not receive yet. -/
  toBoard : List (Symbol Byte)
  port : PacketPort
  host : Host

structure Choice where
  deliver : Bool
  ready : Bool
  finish : Bool
  host : Bool
  rxDataX : Byte
  memDataX : Byte
  cmdIdX : BitVec 4
  cmdAddressX : BitVec 20
  txDataX : Byte

namespace Board

def answered (b : Board) : Bool :=
  b.request.isNone && !b.sio.mem.memBeginRd && !b.sio.mem.memBeginWr

def delivered (c : Choice) (b : Board) : Option (Symbol Byte) :=
  if c.deliver && b.answered then b.toBoard.head? else none

def finished (c : Choice) (b : Board) : Option Access := if c.finish then b.request else none

def input (c : Choice) (b : Board) : SioInput where
  txReady := b.txReady
  rxData :=
    match b.delivered c with
    | some (.data a) => a
    | _ => c.rxDataX
  rxDataStrobe :=
    match b.delivered c with
    | some (.data _) => true
    | _ => false
  rxFlag := b.delivered c == some .flag
  memFinish := b.finished c == some .read
  memDataRd := if b.finished c = some .read then b.content b.sio.mem.memAddr else c.memDataX
  cmdIdX := c.cmdIdX
  cmdAddressX := c.cmdAddressX
  txDataX := c.txDataX

def sent (b : Board) : Option (Symbol Byte) :=
  if !b.txReady then none
  else if b.sio.tx.txFlag then some .flag
  else if b.sio.tx.txDataStrobe then some (.data b.sio.tx.txData)
  else none

/-- A clock of the board. The transmitter is ready until a byte or a flag is strobed, and again
when that is sent. -/
def clock (c : Choice) (b : Board) : Board where
  sio := b.sio.clock (b.input c)
  txReady :=
    if b.sio.tx.txFlag || b.sio.tx.txDataStrobe then false
    else b.txReady || c.ready && b.answered
  request :=
    if b.sio.mem.memBeginRd then some .read
    else if b.sio.mem.memBeginWr then some .write
    else if (b.finished c).isSome then none
    else b.request
  content :=
    if b.finished c = some .write then
      Function.update b.content b.sio.mem.memAddr b.sio.mem.memDataWr
    else b.content
  toBoard := if (b.delivered c).isSome then b.toBoard.tail else b.toBoard
  port := { b.port with rxBuffer := b.sent.toList.foldl deliver b.port.rxBuffer }
  host := b.host

def start (progress : Progress) (b : Board) : Board :=
  match progress with
  | .send packet data task => { b with
      toBoard := b.toBoard ++ .flag :: (packet.header ++ data).map .data
      host := { b.host with waiting := some (packet, task) } }
  | .done result => { b with
      host := { b.host with waiting := none, returned := b.host.returned ++ result.toList } }

def hostStep (b : Board) : Board :=
  if b.host.raised.isSome then b
  else match b.host.waiting with
  | none =>
    match b.host.calls with
    | [] => b
    | call :: calls => start call.start { b with host := { b.host with calls := calls } }
  | some (packet, task) =>
    match b.port.readBuffer (some (packet.header.length + packet.replyDataLen)) with
    | (none, _) => b
    | (some reply, port) =>
      if reply = [] then { b with port := port }
      else match packet.replyData reply with
      | .error e => { b with port := port, host := { b.host with raised := some e } }
      | .ok block => start (task.resume block) { b with port := port }

def step (b : Board) (c : Choice) : Board := if c.host then (b.clock c).hostStep else b.clock c

inductive Chance
  | deliver
  | ready
  | finish
  | host

def offered (c : Choice) : Chance → Prop
  | .deliver => c.deliver = true
  | .ready => c.ready = true
  | .finish => c.finish = true
  | .host => c.host = true

def reset (txReplyLen : BitVec 17) (txAddress : BitVec 20) (content : BitVec 20 → Byte)
    (calls : List Call) : Board where
  sio := .reset txReplyLen txAddress
  txReady := false
  request := none
  content := content
  toBoard := []
  port := { incoming := [] }
  host := { calls := calls }

end Board

end NaviMisc.SpiMemEmulator

/-!
What the board makes of the bytes and flags that it receives.
-/

namespace NaviMisc.SpiMemEmulator

open NaviMisc.Lib.ByteStuffing

inductive Heard
  | nothing
  | header (bytes : List Byte)
  | data (cmdId : BitVec 4) (address : BitVec 20)

abbrev Content := BitVec 20 → Byte

namespace Heard

def command (cmdId : BitVec 4) (address : BitVec 20) : List Byte :=
  [cmdId ++ address.extractLsb' 16 4, address.extractLsb' 8 8, address.extractLsb' 0 8]

def step : Heard → Symbol Byte → Heard
  | _, .flag => .header []
  | .nothing, .data _ => .nothing
  | .header [b₀, b₁], .data b₂ =>
    .data (b₀.extractLsb' 4 4) (b₀.extractLsb' 0 4 ++ b₁ ++ b₂)
  | .header bytes, .data b => .header (bytes ++ [b])
  | .data cmdId address, .data _ => .data cmdId (address + 1)

def store (content : Content) : Heard → Symbol Byte → Content
  | .data cmdId address, .data b =>
    if cmdId = CMD_WRITE then Function.update content address b else content
  | _, _ => content

def effect : Heard → List (Symbol Byte) → Content → Content
  | _, [], content => content
  | h, s :: l, content => effect (h.step s) l (store content h s)

end Heard

def stored (address : BitVec 20) : List Byte → Content → Content
  | [], content => content
  | b :: data, content => stored (address + 1) data (Function.update content address b)

namespace SioReceive

def heard (r : SioReceive) : Heard :=
  match r.rxState with
  | .error => .nothing
  | .command => .header []
  | .addr2 => .header [r.cmdId ++ r.cmdAddress.extractLsb' 16 4]
  | .addr3 => .header [r.cmdId ++ r.cmdAddress.extractLsb' 16 4, r.cmdAddress.extractLsb' 8 8]
  | .data => .data r.cmdId r.cmdAddress

end SioReceive

def SioInput.received (i : SioInput) : Option (Symbol Byte) :=
  if i.rxFlag then some .flag else if i.rxDataStrobe then some (.data i.rxData) else none

section Fields

theorem high_nibble (a b : BitVec 4) : BitVec.extractLsb' 4 4 (a ++ b : Byte) = a :=
  BitVec.extractLsb'_append_eq_left

theorem low_nibble (a b : BitVec 4) : BitVec.extractLsb' 0 4 (a ++ b : Byte) = b :=
  BitVec.extractLsb'_append_eq_right

theorem nibbles (b : Byte) : (b.extractLsb' 4 4 ++ b.extractLsb' 0 4 : Byte) = b :=
  BitVec.extractLsb'_append_extractLsb'

theorem address_high (a : BitVec 4) (b : BitVec 16) :
    BitVec.extractLsb' 16 4 (a ++ b : BitVec 20) = a :=
  BitVec.extractLsb'_append_eq_left

theorem address_middle (a : BitVec 4) (b c : Byte) :
    BitVec.extractLsb' 16 4 (a ++ b ++ c : BitVec 20) = a ∧
      BitVec.extractLsb' 8 8 (a ++ b ++ c : BitVec 20) = b := by
  constructor
  · exact (BitVec.extractLsb'_append_eq_of_le (by omega)).trans BitVec.extractLsb'_append_eq_left
  · exact (BitVec.extractLsb'_append_eq_of_le (by omega)).trans BitVec.extractLsb'_append_eq_right

theorem address_bytes (a : BitVec 20) :
    (a.extractLsb' 16 4 ++ a.extractLsb' 8 8 : BitVec 12) = a.extractLsb' 8 12 :=
  BitVec.extractLsb'_append_extractLsb'_eq_extractLsb' rfl

theorem address_low (a : BitVec 20) : (a.extractLsb' 8 12 ++ a.extractLsb' 0 8 : BitVec 20) = a :=
  BitVec.extractLsb'_append_extractLsb'

end Fields

theorem SioReceive.heard_clock (r : SioReceive) (i : SioInput) :
    (r.clock i).heard = (i.received.map r.heard.step).getD r.heard := by
  rw [clock, SioInput.received]
  by_cases hflag : i.rxFlag = true
  · rw [if_pos hflag, if_pos hflag, Option.map_some, Option.getD_some, Heard.step]
    rfl
  · rw [if_neg hflag, if_neg hflag]
    by_cases hstrobe : i.rxDataStrobe = true
    · rw [if_pos hstrobe, if_pos hstrobe, Option.map_some, Option.getD_some]
      obtain ⟨rxState, cmdId, cmdAddress⟩ := r
      cases rxState with
      | error => rfl
      | command =>
        dsimp only [heard]
        rw [address_high, nibbles]
        rfl
      | addr2 =>
        dsimp only [heard]
        rw [(address_middle _ _ _).1, (address_middle _ _ _).2]
        rfl
      | addr3 =>
        dsimp only [heard, Heard.step, cmdNextAddress]
        rw [high_nibble, low_nibble, address_bytes]
      | data => rfl
    · rw [if_neg hstrobe, if_neg hstrobe]
      rfl

namespace Heard

variable {cmdId : BitVec 4} {address : BitVec 20} {content : Content}

theorem effect_append (h : Heard) (l l' : List (Symbol Byte)) (content : Content) :
    h.effect (l ++ l') content = (l.foldl step h).effect l' (h.effect l content) := by
  induction l generalizing h content with
  | nil => rfl
  | cons s l ih => exact ih _ _

theorem step_flag (h : Heard) : h.step .flag = .header [] := by cases h <;> rfl

theorem effect_data (data : List Byte) :
    (Heard.data cmdId address).effect (data.map .data) content =
      if cmdId = CMD_WRITE then stored address data content else content := by
  induction data generalizing address content with
  | nil => rw [List.map_nil, effect, stored, ite_self]
  | cons b data ih =>
    rw [List.map_cons, effect, store, step, ih]
    split_ifs <;> rfl

theorem foldl_step_command (h : Heard) (cmdId : BitVec 4) (address : BitVec 20) :
    (Symbol.flag :: (command cmdId address).map .data).foldl step h = .data cmdId address := by
  rw [List.foldl_cons, step_flag]
  change Heard.data (BitVec.extractLsb' 4 4 (cmdId ++ address.extractLsb' 16 4 : Byte))
    (BitVec.extractLsb' 0 4 (cmdId ++ address.extractLsb' 16 4 : Byte) ++
      address.extractLsb' 8 8 ++ address.extractLsb' 0 8) = _
  rw [high_nibble, low_nibble, address_bytes, address_low]

theorem effect_command (h : Heard) (cmdId : BitVec 4) (address : BitVec 20) (data : List Byte)
    (content : Content) :
    h.effect (.flag :: (command cmdId address ++ data).map .data) content =
      if cmdId = CMD_WRITE then stored address data content else content := by
  have hheader : h.effect (.flag :: (command cmdId address).map .data) content = content := by
    cases h <;> rfl
  rw [List.map_append, ← List.cons_append, effect_append, hheader, foldl_step_command, effect_data]

end Heard

end NaviMisc.SpiMemEmulator
