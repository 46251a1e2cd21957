import NaviMisc.Inputpipe.ForceFeedback

/-!
`client_received_packet` of `server.c`: what the server does with a packet from
one of its clients.
-/

namespace NaviMisc.Inputpipe

open Lib.ByteOrder (Endian Byte load)

def IPIPE_EVENT : ℕ := 0x0101
def IPIPE_DEVICE_NAME : ℕ := 0x0201
def IPIPE_DEVICE_ID : ℕ := 0x0202
def IPIPE_DEVICE_FF_EFFECTS_MAX : ℕ := 0x0203
def IPIPE_DEVICE_ABSINFO : ℕ := 0x0204
def IPIPE_DEVICE_BITS : ℕ := 0x0205
def IPIPE_DEVICE_PHYS : ℕ := 0x0206
def IPIPE_CREATE : ℕ := 0x0301
def IPIPE_UPLOAD_EFFECT_RESPONSE : ℕ := 0x0403
def IPIPE_ERASE_EFFECT_RESPONSE : ℕ := 0x0404

def UINPUT_MAX_NAME_SIZE : ℕ := 80

structure InputId where
  bustype : BitVec 16
  vendor : BitVec 16
  product : BitVec 16
  version : BitVec 16

structure UinputUserDev where
  name : ℕ → Byte
  id : InputId
  ffEffectsMax : BitVec 32
  absmax : Fin (ABS_MAX + 1) → BitVec 32
  absmin : Fin (ABS_MAX + 1) → BitVec 32
  absfuzz : Fin (ABS_MAX + 1) → BitVec 32
  absflat : Fin (ABS_MAX + 1) → BitVec 32

namespace Server

/-- `addr` is the text that `client_format_addr` makes of the peer's address. -/
structure Client where
  deviceCreated : Bool
  devInfo : UinputUserDev
  evSynBit : Bool
  addr : List Byte

inductive SetBit
  | EVBIT | KEYBIT | RELBIT | ABSBIT | MSCBIT | LEDBIT | SNDBIT | FFBIT
  deriving DecidableEq

inductive UinputCall
  | writeEvent (ev : InputEvent)
  | writeDevInfo (info : UinputUserDev) (result : ℤ)
  | devCreate (result : ℤ)
  | setBit (ioc : SetBit) (bit : ℕ)
  | setPhys (path : List Byte)
  | endFFUpload (requestId retval : BitVec 32) (effect : ForceFeedback.FFEffect)
  | endFFErase (requestId retval effectId : BitVec 32)

/-- What the environment decides: the results of creating a device, and what the uninitialised
struct on the stack holds. -/
structure Env where
  writeResult : ℤ
  createResult : ℤ
  stack : ForceFeedback.FFEffect

inductive Fault
  | outOfBounds
  deriving DecidableEq

section fields

variable (e : Endian) (content : List Byte)

def half (offset : ℕ) : BitVec 16 := load e 2 ((content.drop offset).take 2)

def word (offset : ℕ) : BitVec 32 := load e 4 ((content.drop offset).take 4)

def ntohInputEvent : InputEvent where
  time := ⟨(ntohl e (word e content 0)).toNat, (ntohl e (word e content 4)).toNat⟩
  value := ntohl e (word e content 8)
  type := ntohs e (half e content 12)
  code := ntohs e (half e content 14)

def ntohInputId : InputId where
  bustype := ntohs e (half e content 0)
  vendor := ntohs e (half e content 2)
  product := ntohs e (half e content 4)
  version := ntohs e (half e content 6)

def ipipeFFEffect (offset : ℕ) : ForceFeedback.IpipeFFEffect where
  type := half e content offset
  id := half e content (offset + 2)
  direction := half e content (offset + 4)
  triggerButton := half e content (offset + 6)
  triggerInterval := half e content (offset + 8)
  replayLength := half e content (offset + 10)
  replayDelay := half e content (offset + 12)
  u := fun k => half e content (offset + 14 + 2 * k)

end fields

def sizeofIpipeEvent : ℕ := 16
def sizeofIpipeInputId : ℕ := 8
def sizeofIpipeAbsinfo : ℕ := 20
def sizeofUploadEffectResponse : ℕ := 48
def sizeofEraseEffectResponse : ℕ := 8

abbrev Outcome := Except Fault (Client × List UinputCall)

def setName (self : Client) (content : List Byte) : Outcome :=
  let length := if content.length ≥ UINPUT_MAX_NAME_SIZE then UINPUT_MAX_NAME_SIZE - 1
    else content.length
  if length < UINPUT_MAX_NAME_SIZE then
    let name := Lib.Memory.copy self.devInfo.name 0 (content.take length)
    .ok ({ self with devInfo := { self.devInfo with name := Function.update name length 0 } }, [])
  else .error .outOfBounds

def physPrefix : List Byte := [0x69, 0x70, 0x69, 0x70, 0x65, 0x3A, 0x2F, 0x2F]

/-- `client_set_phys`: the path built in a buffer of 1024 bytes, without its closing zero. -/
def setPhys (self : Client) (content : List Byte) : Outcome :=
  let start := physPrefix ++ self.addr ++ [0x2F]
  .ok (self, [.setPhys (start ++ content.take (1024 - start.length - 1))])

def setAbsinfo (e : Endian) (self : Client) (content : List Byte) : Outcome :=
  if content.length ≠ sizeofIpipeAbsinfo then .ok (self, [])
  else
    let axis := (ntohl e (word e content 0)).toInt
    if axis > ABS_MAX then .ok (self, [])
    else if h : 0 ≤ axis ∧ axis < (ABS_MAX + 1 : ℕ) then
      let i : Fin (ABS_MAX + 1) := ⟨axis.toNat, by omega⟩
      let max := ntohl e (word e content 4)
      let min := ntohl e (word e content 8)
      let fuzz := ntohl e (word e content 12)
      let flat := ntohl e (word e content 16)
      let max := if max.slt (min + 2) then min + 2 else max
      let flat := if flat.sle min then min + 1 else flat
      let flat := if max.sle flat then max - 1 else flat
      let info := self.devInfo
      .ok ({ self with devInfo := { info with
        absmax := Function.update info.absmax i max
        absmin := Function.update info.absmin i min
        absfuzz := Function.update info.absfuzz i fuzz
        absflat := Function.update info.absflat i flat } }, [])
    else .error .outOfBounds

def ioctlFor (ev : ℕ) : Option SetBit :=
  if ev = 0 then some .EVBIT
  else if ev = EV_KEY then some .KEYBIT
  else if ev = EV_REL then some .RELBIT
  else if ev = EV_ABS then some .ABSBIT
  else if ev = EV_MSC then some .MSCBIT
  else if ev = EV_LED then some .LEDBIT
  else if ev = EV_SND then some .SNDBIT
  else if ev = EV_FF then some .FFBIT
  else none

def unpackBit (ev : ℕ) (ioc : SetBit) (bit : ℕ) (byte : Byte) (self : Client) :
    Client × List UinputCall :=
  let bitValue := byte &&& 1#8 = 1#8
  let self := if ev = 0 ∧ bit = EV_SYN then { self with evSynBit := bitValue } else self
  (self, if bitValue then [.setBit ioc bit] else [])

def unpackByte (ev : ℕ) (ioc : SetBit) : ℕ → ℕ → Byte → Client → Client × List UinputCall
  | 0, _, _, self => (self, [])
  | n + 1, bit, byte, self =>
    let (self, calls) := unpackBit ev ioc bit byte self
    let (self, more) := unpackByte ev ioc n (bit + 1) (byte >>> 1) self
    (self, calls ++ more)

def unpackBits (ev : ℕ) (ioc : SetBit) : ℕ → List Byte → Client → Client × List UinputCall
  | _, [], self => (self, [])
  | bit, byte :: bytes, self =>
    let (self, calls) := unpackByte ev ioc 8 bit byte self
    let (self, more) := unpackBits ev ioc (bit + 8) bytes self
    (self, calls ++ more)

def setBits (e : Endian) (self : Client) (content : List Byte) : Outcome :=
  if content.length < 2 then .ok (self, [])
  else
    let ev := (ntohs e (half e content 0)).toNat
    match ioctlFor ev with
    | none => .ok (self, [])
    | some ioc => .ok (unpackBits ev ioc 0 (content.drop 2) self)

def receivedEvent (e : Endian) (self : Client) (content : List Byte) : Outcome :=
  if content.length ≠ sizeofIpipeEvent then .ok (self, [])
  else if ¬self.deviceCreated then .ok (self, [])
  else
    let ev := ntohInputEvent e content
    .ok (self, .writeEvent ev ::
      if ¬self.evSynBit then
        [.writeEvent { ev with type := BitVec.ofNat 16 EV_SYN, code := 0, value := 0 }]
      else [])

def create (env : Env) (self : Client) : Outcome :=
  if self.deviceCreated then .ok (self, [])
  else
    let calls := [.writeDevInfo self.devInfo env.writeResult, .devCreate env.createResult]
    if env.writeResult < 0 ∨ env.createResult < 0 then .ok (self, calls)
    else .ok ({ self with deviceCreated := true }, calls)

def clientReceivedPacket (e : Endian) (env : Env) (self : Client) (type : ℕ)
    (content : List Byte) : Outcome :=
  if type = IPIPE_EVENT then receivedEvent e self content
  else if type = IPIPE_DEVICE_NAME then setName self content
  else if type = IPIPE_DEVICE_PHYS then setPhys self content
  else if type = IPIPE_DEVICE_ID then
    if content.length ≠ sizeofIpipeInputId then .ok (self, [])
    else .ok ({ self with devInfo := { self.devInfo with id := ntohInputId e content } }, [])
  else if type = IPIPE_DEVICE_FF_EFFECTS_MAX then
    if content.length ≠ 4 then .ok (self, [])
    else
      let effects := ntohl e (word e content 0)
      .ok ({ self with devInfo := { self.devInfo with ffEffectsMax := effects } }, [])
  else if type = IPIPE_DEVICE_ABSINFO then setAbsinfo e self content
  else if type = IPIPE_DEVICE_BITS then setBits e self content
  else if type = IPIPE_CREATE then create env self
  else if type = IPIPE_UPLOAD_EFFECT_RESPONSE then
    if content.length ≠ sizeofUploadEffectResponse then .ok (self, [])
    else
      let effect := ForceFeedback.ntohFFEffect e env.stack (ipipeFFEffect e content 8)
      .ok (self, [.endFFUpload (ntohl e (word e content 0)) (ntohl e (word e content 4)) effect])
  else if type = IPIPE_ERASE_EFFECT_RESPONSE then
    if content.length ≠ sizeofEraseEffectResponse then .ok (self, [])
    else .ok (self, [.endFFErase (ntohl e (word e content 0)) (ntohl e (word e content 4)) (-1)])
  else .ok (self, [])

end Server

end NaviMisc.Inputpipe
