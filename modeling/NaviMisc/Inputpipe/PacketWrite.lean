import NaviMisc.Lib.ByteOrder
import NaviMisc.Lib.Memory
import NaviMisc.Lib.Runs

/-!
The byte order conversions of `netinet/in.h`, on a host of either byte order.
-/

namespace NaviMisc.Inputpipe

open Lib.ByteOrder (Endian)

def htons (e : Endian) (x : BitVec 16) : BitVec 16 := Lib.ByteOrder.hton e (n := 2) x

def ntohs (e : Endian) (x : BitVec 16) : BitVec 16 := Lib.ByteOrder.ntoh e (n := 2) x

def htonl (e : Endian) (x : BitVec 32) : BitVec 32 := Lib.ByteOrder.hton e (n := 4) x

def ntohl (e : Endian) (x : BitVec 32) : BitVec 32 := Lib.ByteOrder.ntoh e (n := 4) x

@[simp] theorem ntohs_htons (e : Endian) (x : BitVec 16) : ntohs e (htons e x) = x :=
  Lib.ByteOrder.ntoh_hton e (n := 2) x

@[simp] theorem ntohl_htonl (e : Endian) (x : BitVec 32) : ntohl e (htonl e x) = x :=
  Lib.ByteOrder.ntoh_hton e (n := 4) x

end NaviMisc.Inputpipe

/-!
Packets of `inputpipe.h`: a header of two 16-bit fields in network order, and
the content.
-/

namespace NaviMisc.Inputpipe

open Lib.ByteOrder (Endian Byte store load)

/-- `struct inputpipe_packet`, with its fields as they stand in memory. -/
structure InputpipePacket where
  type : BitVec 16
  length : BitVec 16
  deriving DecidableEq

def sizeofHeader : ℕ := 4

namespace InputpipePacket

def toBytes (e : Endian) (pkt : InputpipePacket) : List Byte :=
  store e (n := 2) pkt.type ++ store e (n := 2) pkt.length

def ofBytes (e : Endian) (l : List Byte) : InputpipePacket where
  type := load e 2 (l.take 2)
  length := load e 2 (l.drop 2)

def encode (e : Endian) (type : BitVec 16) (length : ℕ) : InputpipePacket where
  type := htons e type
  length := htons e (BitVec.ofNat 16 length)

end InputpipePacket

def header (type : BitVec 16) (length : ℕ) : List Byte :=
  store .big (n := 2) type ++ store .big (n := 2) (BitVec.ofNat 16 length)

variable {e : Endian}

@[simp] theorem length_header (type : BitVec 16) (length : ℕ) :
    (header type length).length = sizeofHeader := by
  simp [header, sizeofHeader]

theorem toBytes_encode (type : BitVec 16) (length : ℕ) :
    (InputpipePacket.encode e type length).toBytes e = header type length := by
  rw [InputpipePacket.toBytes, header]
  congr 1
  · exact Lib.ByteOrder.store_hton e (n := 2) type
  · exact Lib.ByteOrder.store_hton e (n := 2) (BitVec.ofNat 16 length)

theorem ofBytes_toBytes (pkt : InputpipePacket) : .ofBytes e (pkt.toBytes e) = pkt := by
  have h₁ : load e 2 (store e (n := 2) pkt.type) = pkt.type := Lib.ByteOrder.load_store e (n := 2) _
  have h₂ : load e 2 (store e (n := 2) pkt.length) = pkt.length :=
    Lib.ByteOrder.load_store e (n := 2) _
  have hlength := Lib.ByteOrder.length_store e (n := 2) pkt.type
  rw [InputpipePacket.ofBytes, InputpipePacket.toBytes, List.take_left' hlength,
    List.drop_left' hlength, h₁, h₂]

theorem ofBytes_header (type : BitVec 16) (length : ℕ) :
    .ofBytes e (header type length) = InputpipePacket.encode e type length := by
  rw [← toBytes_encode, ofBytes_toBytes]

structure Packet where
  type : BitVec 16
  content : List Byte
  length_lt : content.length < 0x10000

def Packet.bytes (p : Packet) : List Byte := header p.type p.content.length ++ p.content

def stream (packets : List Packet) : List Byte := (packets.map Packet.bytes).flatten

@[simp] theorem Packet.length_bytes (p : Packet) :
    p.bytes.length = sizeofHeader + p.content.length := by
  rw [Packet.bytes, List.length_append, length_header]

@[simp] theorem stream_nil : stream [] = [] := rfl

@[simp] theorem stream_cons (p : Packet) (packets : List Packet) :
    stream (p :: packets) = p.bytes ++ stream packets := rfl

end NaviMisc.Inputpipe

/-!
Input events and the constants of `input.h` and `uinput.h`.
-/

namespace NaviMisc.Inputpipe

def EV_SYN : ℕ := 0x00
def EV_KEY : ℕ := 0x01
def EV_REL : ℕ := 0x02
def EV_ABS : ℕ := 0x03
def EV_MSC : ℕ := 0x04
def EV_LED : ℕ := 0x11
def EV_SND : ℕ := 0x12
def EV_FF : ℕ := 0x15
def EV_MAX : ℕ := 0x1f

def ABS_MAX : ℕ := 0x3f

def UI_FF_UPLOAD : ℕ := 1
def UI_FF_ERASE : ℕ := 2

structure Timeval where
  tv_sec : ℤ
  tv_usec : ℤ
  deriving DecidableEq

structure InputEvent where
  time : Timeval
  type : BitVec 16
  code : BitVec 16
  value : BitVec 32
  deriving DecidableEq

end NaviMisc.Inputpipe

/-!
The send side of `packet.c`: packets gather in a buffer that is flushed to a
non-blocking socket.
-/

namespace NaviMisc.Inputpipe.PacketWrite

open Lib.ByteOrder (Endian Byte)

def sizeofData : ℕ := 4096

/-- `current` is the offset of the pointer from the start of `data`. -/
structure WriteBuffer where
  data : ℕ → Byte
  remaining : ℤ
  current : ℤ

def WriteBuffer.init : WriteBuffer := ⟨fun _ => 0, sizeofData, 0⟩

inductive Fault
  | assertion
  | overrun
  deriving DecidableEq

/-- The operating system's answer to a `write` of any size: an error, or a number of bytes that is
cut down to the size. -/
abbrev Answer := Option ℕ

def Answer.accepted (answer : Answer) (size : ℕ) : ℕ :=
  match answer with
  | some n => min n size
  | none => 0

def memcpy (buf : WriteBuffer) (src : List Byte) : Except Fault WriteBuffer :=
  if 0 ≤ buf.current ∧ buf.current + src.length ≤ sizeofData then
    .ok { buf with data := Lib.Memory.copy buf.data buf.current.toNat src }
  else .error .overrun

def packetSocketFlush (buf : WriteBuffer) (answer : Answer) : WriteBuffer × List Byte :=
  let size := buf.current
  if size = 0 then (buf, [])
  else
    ({ buf with remaining := sizeofData, current := 0 },
      (Lib.Memory.read buf.data size.toNat).take (answer.accepted size.toNat))

/-- A comparison of an `int` with a `size_t` makes the `int` unsigned. -/
def toSize (i : ℤ) : ℤ := i % 2 ^ 64

/-- The first half of `packet_socket_write`: a packet that does not fit any more flushes the
buffer. -/
def makeRoom (buf : WriteBuffer) (length : ℕ) (answer : Answer) : WriteBuffer × List Byte :=
  if (length + sizeofHeader : ℤ) > toSize buf.remaining then packetSocketFlush buf answer
  else (buf, [])

def putPacket (buf : WriteBuffer) (pkt content : List Byte) : Except Fault WriteBuffer := do
  let buf := { buf with remaining := buf.remaining - (content.length + sizeofHeader) }
  let buf ← memcpy buf pkt
  let buf := { buf with current := buf.current + sizeofHeader }
  let buf ← memcpy buf content
  return { buf with current := buf.current + content.length }

def packetSocketWrite (e : Endian) (buf : WriteBuffer) (packetType : BitVec 32)
    (content : List Byte) (answer : Answer) : Except Fault (WriteBuffer × List Byte) := do
  let length := content.length
  if ¬(length < 0x10000 ∧ length + sizeofHeader < sizeofData) then throw .assertion
  let pkt := InputpipePacket.encode e (packetType.setWidth 16) length
  let (buf, accepted) := makeRoom buf length answer
  let buf ← putPacket buf (pkt.toBytes e) content
  return (buf, accepted)

def buffered (buf : WriteBuffer) : List Byte := Lib.Memory.read buf.data buf.current.toNat

structure BufferOk (buf : WriteBuffer) : Prop where
  data_le_current : 0 ≤ buf.current
  current_add_remaining : buf.current + buf.remaining = sizeofData
  remaining_nonneg : 0 ≤ buf.remaining

section buffer

variable {e : Endian} {buf : WriteBuffer} {answer : Answer} {packetType : BitVec 32}
  {content src : List Byte}

theorem bufferOk_init : BufferOk .init := ⟨le_rfl, rfl, Int.natCast_nonneg _⟩

theorem BufferOk.length_buffered (h : BufferOk buf) : ((buffered buf).length : ℤ) = buf.current := by
  rw [buffered, Lib.Memory.length_read, Int.toNat_of_nonneg h.data_le_current]

theorem memcpy_ok (hpos : 0 ≤ buf.current) (hroom : buf.current + src.length ≤ sizeofData) :
    memcpy buf src =
      .ok { buf with data := Lib.Memory.copy buf.data buf.current.toNat src } :=
  if_pos ⟨hpos, hroom⟩

theorem buffered_copy (data : ℕ → Byte) (remaining remaining' : ℤ) {current : ℤ}
    (hpos : 0 ≤ current) (src : List Byte) :
    buffered ⟨Lib.Memory.copy data current.toNat src, remaining, current + src.length⟩ =
      buffered ⟨data, remaining', current⟩ ++ src := by
  have hend : (current + src.length).toNat = current.toNat + src.length := by omega
  rw [buffered, buffered, hend]
  exact Lib.Memory.read_copy _ _ _

theorem flush_spec (h : BufferOk buf) (answer : Answer) :
    BufferOk (packetSocketFlush buf answer).1 ∧
      (packetSocketFlush buf answer).1.remaining = sizeofData ∧
      buffered (packetSocketFlush buf answer).1 = [] ∧
      (packetSocketFlush buf answer).2 =
        (buffered buf).take (answer.accepted (buffered buf).length) := by
  have hlength := h.length_buffered
  by_cases hzero : buf.current = 0
  · have hnil : buffered buf = [] := by
      rw [← List.length_eq_zero_iff]
      omega
    have hrem := h.current_add_remaining
    have hsame : packetSocketFlush buf answer = (buf, []) := if_pos hzero
    rw [hsame, hnil, List.take_nil]
    exact ⟨h, by rw [← hrem, hzero, Int.zero_add], rfl, rfl⟩
  · have hsize : (buffered buf).length = buf.current.toNat := by omega
    rw [packetSocketFlush, if_neg hzero, hsize]
    exact ⟨⟨le_rfl, rfl, Int.natCast_nonneg _⟩, rfl, rfl, rfl⟩

def Flushes (buf : WriteBuffer) (length : ℕ) : Prop :=
  (length + sizeofHeader : ℤ) > buf.remaining

theorem makeRoom_spec (h : BufferOk buf) (answer : Answer) {length : ℕ}
    (hfits : length + sizeofHeader < sizeofData) :
    BufferOk (makeRoom buf length answer).1 ∧
      (length + sizeofHeader : ℤ) ≤ (makeRoom buf length answer).1.remaining ∧
      (¬Flushes buf length → makeRoom buf length answer = (buf, [])) ∧
      (Flushes buf length → buffered (makeRoom buf length answer).1 = [] ∧
        (makeRoom buf length answer).2 =
          (buffered buf).take (answer.accepted (buffered buf).length)) := by
  have hsize : toSize buf.remaining = buf.remaining := by
    have h₁ := h.data_le_current
    have h₂ := h.current_add_remaining
    have h₃ := h.remaining_nonneg
    simp only [toSize, sizeofData] at *
    omega
  by_cases hflush : Flushes buf length
  · obtain ⟨hok, hrem, hnil, htaken⟩ := flush_spec h answer
    have hmake : makeRoom buf length answer = packetSocketFlush buf answer := by
      rw [makeRoom, hsize]
      exact if_pos hflush
    rw [hmake]
    refine ⟨hok, ?_, fun hno => absurd hflush hno, fun _ => ⟨hnil, htaken⟩⟩
    rw [hrem]
    exact_mod_cast hfits.le
  · have hmake : makeRoom buf length answer = (buf, []) := by
      rw [makeRoom, hsize]
      exact if_neg hflush
    rw [hmake]
    exact ⟨h, not_lt.mp hflush, fun _ => rfl, fun hyes => absurd hyes hflush⟩

theorem putPacket_spec (h : BufferOk buf) {pkt : List Byte} (hpkt : pkt.length = sizeofHeader)
    (hroom : (content.length + sizeofHeader : ℤ) ≤ buf.remaining) :
    ∃ buf', putPacket buf pkt content = .ok buf' ∧ BufferOk buf' ∧
      buffered buf' = buffered buf ++ (pkt ++ content) := by
  have hpos := h.data_le_current
  have hsum := h.current_add_remaining
  have hnonneg : (0 : ℤ) ≤ content.length := Int.natCast_nonneg _
  have hheader : (0 : ℤ) ≤ sizeofHeader := Int.natCast_nonneg _
  have hpos' : 0 ≤ buf.current + sizeofHeader := by omega
  have hcopy₁ := @memcpy_ok { buf with
    remaining := buf.remaining - (content.length + sizeofHeader) } pkt hpos
    (by rw [hpkt]; simp only; omega)
  have hcopy₂ := @memcpy_ok ⟨Lib.Memory.copy buf.data buf.current.toNat pkt,
    buf.remaining - (content.length + sizeofHeader), buf.current + sizeofHeader⟩ content hpos'
    (by simp only; omega)
  have hput : putPacket buf pkt content = .ok
      ⟨Lib.Memory.copy (Lib.Memory.copy buf.data buf.current.toNat pkt)
        (buf.current + sizeofHeader).toNat content,
        buf.remaining - (content.length + sizeofHeader),
        buf.current + sizeofHeader + content.length⟩ := by
    simp only [putPacket, hcopy₁, hcopy₂, bind, Except.bind, pure, Except.pure]
  refine ⟨_, hput, ⟨?_, ?_, ?_⟩, ?_⟩
  · simp only
    omega
  · simp only
    omega
  · simp only
    omega
  · rw [buffered_copy _ _ buf.remaining hpos', ← hpkt, buffered_copy _ _ buf.remaining hpos,
      List.append_assoc]

theorem write_spec (h : BufferOk buf) (answer : Answer)
    (hfits : content.length + sizeofHeader < sizeofData) :
    ∃ buf', packetSocketWrite e buf packetType content answer =
        .ok (buf', (makeRoom buf content.length answer).2) ∧ BufferOk buf' ∧
      buffered buf' = buffered (makeRoom buf content.length answer).1 ++
        (header (packetType.setWidth 16) content.length ++ content) := by
  have hassert : content.length < 0x10000 ∧ content.length + sizeofHeader < sizeofData := by
    simp only [sizeofHeader, sizeofData] at *
    omega
  obtain ⟨hok, hroom, -⟩ := makeRoom_spec h answer hfits
  obtain ⟨buf', hput, hok', hread⟩ := putPacket_spec hok
    (length_header (packetType.setWidth 16) content.length) hroom
  refine ⟨buf', ?_, hok', hread⟩
  rw [← toBytes_encode (e := e)] at hput
  simp only [packetSocketWrite, hassert, hput, bind, Except.bind, pure, Except.pure, not_true,
    and_self, ite_false]

end buffer

structure Sender where
  buf : WriteBuffer
  accepted : List Byte
  encoded : List Byte

inductive Action
  | write (packetType : BitVec 32) (content : List Byte)
      (fits : content.length + sizeofHeader < sizeofData) (answer : Answer)
  | flush (answer : Answer)

namespace Sender

def init : Sender := ⟨.init, [], []⟩

def step (e : Endian) : Except Fault Sender → Action → Except Fault Sender
  | .ok s, .write packetType content _ answer => do
    let (buf, taken) ← packetSocketWrite e s.buf packetType content answer
    return ⟨buf, s.accepted ++ taken,
      s.encoded ++ (header (packetType.setWidth 16) content.length ++ content)⟩
  | .ok s, .flush answer =>
    let (buf, taken) := packetSocketFlush s.buf answer
    .ok ⟨buf, s.accepted ++ taken, s.encoded⟩
  | .error fault, _ => .error fault

def Intact : Except Fault Sender → Prop
  | .ok s => BufferOk s.buf ∧ s.accepted ++ buffered s.buf = s.encoded
  | .error _ => False

def Accepting : Except Fault Sender → Action → Prop
  | .ok s, .write _ content _ answer => Flushes s.buf content.length →
      answer.accepted (buffered s.buf).length = (buffered s.buf).length
  | .ok s, .flush answer =>
      answer.accepted (buffered s.buf).length = (buffered s.buf).length
  | .error _, _ => False

def Running : Except Fault Sender → Prop
  | .ok s => BufferOk s.buf
  | .error _ => False

variable {e : Endian}

theorem Answer.accepted_le (answer : Answer) (size : ℕ) : answer.accepted size ≤ size := by
  cases answer with
  | none => exact Nat.zero_le size
  | some n => exact Nat.min_le_right n size

theorem step_write {s : Sender} (h : BufferOk s.buf) (packetType : BitVec 32) (content : List Byte)
    (fits : content.length + sizeofHeader < sizeofData) (answer : Answer) :
    ∃ buf, step e (.ok s) (.write packetType content fits answer) =
        .ok ⟨buf, s.accepted ++ (makeRoom s.buf content.length answer).2,
          s.encoded ++ (header (packetType.setWidth 16) content.length ++ content)⟩ ∧
      BufferOk buf ∧ buffered buf = buffered (makeRoom s.buf content.length answer).1 ++
        (header (packetType.setWidth 16) content.length ++ content) := by
  obtain ⟨buf, hwrite, hok, hread⟩ :=
    @write_spec e s.buf packetType content h answer fits
  refine ⟨buf, ?_, hok, hread⟩
  simp only [step, hwrite, bind, Except.bind, pure, Except.pure]

theorem Running.step {s : Except Fault Sender} (h : Running s) (a : Action) :
    Running (step e s a) := by
  cases s with
  | error fault => exact h
  | ok s =>
    cases a with
    | write packetType content fits answer =>
      obtain ⟨buf, hstep, hok, -⟩ := step_write (e := e) h packetType content fits answer
      rw [hstep]
      exact hok
    | flush answer => exact (flush_spec h answer).1

theorem take_eq_self_iff (l : List Byte) (answer : Answer) :
    l.take (answer.accepted l.length) = l ↔ answer.accepted l.length = l.length := by
  have hle := Answer.accepted_le answer l.length
  constructor
  · intro hsame
    have hlength := congrArg List.length hsame
    rw [List.length_take] at hlength
    omega
  · intro hall
    exact List.take_of_length_le hall.ge

theorem intact_step_iff {s : Except Fault Sender} (h : Running s) (hintact : Intact s)
    (a : Action) : Intact (step e s a) ↔ Accepting s a := by
  cases s with
  | error fault => exact absurd hintact id
  | ok s =>
    obtain ⟨-, hbytes⟩ := hintact
    cases a with
    | write packetType content fits answer =>
      obtain ⟨buf, hstep, hok, hread⟩ := step_write (e := e) h packetType content fits answer
      obtain ⟨-, -, hkeep, hflush⟩ := makeRoom_spec h answer fits
      simp only [hstep, Intact, Accepting, hread, ← List.append_assoc, and_iff_right hok,
        List.append_cancel_right_eq, ← hbytes]
      by_cases hfl : Flushes s.buf content.length
      · obtain ⟨hnil, htaken⟩ := hflush hfl
        rw [hnil, htaken, List.append_nil, List.append_cancel_left_eq, take_eq_self_iff]
        exact ⟨fun heq _ => heq, fun heq => heq hfl⟩
      · rw [hkeep hfl, List.append_nil]
        exact iff_of_true rfl fun hyes => absurd hyes hfl
    | flush answer =>
      obtain ⟨hok, -, hnil, htaken⟩ := flush_spec h answer
      simp only [Sender.step, Intact, Accepting, and_iff_right hok, hnil, htaken, List.append_nil,
        ← hbytes, List.append_cancel_left_eq]
      exact take_eq_self_iff _ answer

theorem running_init : Running (.ok init) := bufferOk_init

theorem intact_init : Intact (.ok init) := ⟨bufferOk_init, rfl⟩

theorem intact_iff (e : Endian) (run : List Action) :
    Lib.Runs.Always (step e) Intact (.ok init) run ↔
      Lib.Runs.Meets (step e) Accepting (.ok init) run :=
  Lib.Runs.always_iff_meets (I := Running) (fun _ a h => Running.step h a)
    (fun _ a h hintact => intact_step_iff h hintact a) running_init intact_init run

theorem refused_flush_loses : ¬Lib.Runs.Always (step .little) Intact (.ok init)
    [.write 0x301#32 [] (by decide) none, .flush none] := by
  rintro ⟨-, -, -, hbytes⟩
  cases hbytes

end Sender

end NaviMisc.Inputpipe.PacketWrite
