import NaviMisc.Inputpipe.Server
import NaviMisc.Lib.Bits

/-!
What the unpacking of a bitmap calls and remembers.
-/

namespace NaviMisc.Inputpipe.Server

open Lib.ByteOrder (Byte)
open Lib.Bits (wordsBit and_one_eq_one_iff wordsBit_cons_of_lt wordsBit_cons_add)

variable (ev : ℕ) (ioc : SetBit)

theorem unpackBit_client (bit : ℕ) (byte : Byte) (self : Client) :
    (unpackBit ev ioc bit byte self).1 = { self with
      evSynBit := if ev = 0 ∧ bit = EV_SYN then byte.getLsbD 0 else self.evSynBit } := by
  rw [unpackBit]
  split
  · simp only [and_one_eq_one_iff byte (by simp), Bool.decide_eq_true]
  · rfl

theorem mem_unpackBit {bit : ℕ} {byte : Byte} {self : Client} {c : UinputCall} :
    c ∈ (unpackBit ev ioc bit byte self).2 ↔ c = .setBit ioc bit ∧ byte.getLsbD 0 = true := by
  rw [unpackBit, ← and_one_eq_one_iff byte (by simp)]
  by_cases h : byte &&& 1#8 = 1#8
  · simp [h]
  · simp [h]

theorem unpackByte_client (n bit : ℕ) (byte : Byte) (self : Client) :
    (unpackByte ev ioc n bit byte self).1 = { self with
      evSynBit := if ev = 0 ∧ bit = EV_SYN ∧ 0 < n then byte.getLsbD 0 else self.evSynBit } := by
  induction n generalizing bit byte self with
  | zero => simp [unpackByte]
  | succ n ih =>
    rw [unpackByte]
    dsimp only
    rw [ih, unpackBit_client]
    simp [EV_SYN]

theorem mem_unpackByte {n bit : ℕ} {byte : Byte} {self : Client} {c : UinputCall} :
    c ∈ (unpackByte ev ioc n bit byte self).2 ↔
      ∃ j < n, c = .setBit ioc (bit + j) ∧ byte.getLsbD j = true := by
  induction n generalizing bit byte self with
  | zero => simp [unpackByte]
  | succ n ih =>
    rw [unpackByte]
    dsimp only
    rw [List.mem_append, mem_unpackBit, ih]
    constructor
    · rintro (⟨rfl, h⟩ | ⟨j, hj, rfl, h⟩)
      · exact ⟨0, Nat.zero_lt_succ n, rfl, h⟩
      · rw [BitVec.getLsbD_ushiftRight] at h
        exact ⟨1 + j, by omega, by rw [Nat.add_assoc], h⟩
    · rintro ⟨j, hj, rfl, h⟩
      cases j with
      | zero => exact .inl ⟨rfl, h⟩
      | succ j =>
        refine .inr ⟨j, Nat.lt_of_succ_lt_succ hj, by rw [Nat.add_assoc, Nat.add_comm 1], ?_⟩
        rw [BitVec.getLsbD_ushiftRight, Nat.add_comm 1]
        exact h

theorem unpackBits_client (bit : ℕ) (bytes : List Byte) (self : Client) :
    (unpackBits ev ioc bit bytes self).1 = { self with
      evSynBit := if ev = 0 ∧ bit = EV_SYN ∧ bytes ≠ [] then wordsBit bytes 0 else self.evSynBit } := by
  induction bytes generalizing bit self with
  | nil => simp [unpackBits]
  | cons byte bytes ih =>
    rw [unpackBits]
    dsimp only
    rw [ih, unpackByte_client, wordsBit_cons_of_lt byte bytes (by simp)]
    simp [EV_SYN]

theorem mem_unpackBits {bit : ℕ} {bytes : List Byte} {self : Client} {c : UinputCall} :
    c ∈ (unpackBits ev ioc bit bytes self).2 ↔
      ∃ k, c = .setBit ioc (bit + k) ∧ wordsBit bytes k = true := by
  induction bytes generalizing bit self with
  | nil => simp [unpackBits]
  | cons byte bytes ih =>
    rw [unpackBits]
    dsimp only
    rw [List.mem_append, mem_unpackByte, ih]
    constructor
    · rintro (⟨j, hj, rfl, h⟩ | ⟨k, rfl, h⟩)
      · exact ⟨j, rfl, by rw [wordsBit_cons_of_lt byte bytes hj, h]⟩
      · exact ⟨8 + k, by rw [Nat.add_assoc], by rw [wordsBit_cons_add (by simp), h]⟩
    · rintro ⟨k, rfl, h⟩
      by_cases hk : k < 8
      · rw [wordsBit_cons_of_lt byte bytes hk] at h
        exact .inl ⟨k, hk, rfl, h⟩
      · obtain ⟨k, rfl⟩ := Nat.exists_eq_add_of_le (Nat.le_of_not_lt hk)
        rw [wordsBit_cons_add (by simp)] at h
        exact .inr ⟨k, by rw [Nat.add_assoc], h⟩

end NaviMisc.Inputpipe.Server

/-!
Sessions of a client with the server: any sequence of packets, whatever they
hold and whatever the uinput calls return.
-/

namespace NaviMisc.Inputpipe.Server

open Lib.ByteOrder (Endian Byte)
open Lib.Bits (wordsBit)

structure Incoming where
  type : ℕ
  content : List Byte
  env : Env

def absinfoOf (e : Endian) (p : Incoming) : Option (ℤ × BitVec 32 × BitVec 32) :=
  if p.type = IPIPE_DEVICE_ABSINFO ∧ p.content.length = sizeofIpipeAbsinfo then
    some ((ntohl e (word e p.content 0)).toInt, ntohl e (word e p.content 8),
      ntohl e (word e p.content 4))
  else none

def evBitmapOf (e : Endian) (p : Incoming) : Option (List Byte) :=
  if p.type = IPIPE_DEVICE_BITS ∧ 2 ≤ p.content.length ∧ ntohs e (half e p.content 0) = 0 then
    some (p.content.drop 2)
  else none

/-- The server's client with a record of what it has received and called: the axes whose absinfo
was not rejected, the last EV bitmap, all uinput calls. -/
structure Session where
  client : Client
  axes : ℤ → Prop
  evBitmap : List Byte
  calls : List UinputCall

def zeroDev : UinputUserDev where
  name := fun _ => 0
  id := ⟨0, 0, 0, 0⟩
  ffEffectsMax := 0
  absmax := fun _ => 0
  absmin := fun _ => 0
  absfuzz := fun _ => 0
  absflat := fun _ => 0

def zeroEnv : Env := ⟨0, 0, ⟨0, 0, 0, ⟨0, 0⟩, ⟨0, 0⟩, fun _ => 0⟩⟩

namespace Session

def init (addr : List Byte) : Session where
  client := ⟨false, zeroDev, false, addr⟩
  axes := fun _ => False
  evBitmap := []
  calls := []

def step (e : Endian) : Except Fault Session → Incoming → Except Fault Session
  | .error fault, _ => .error fault
  | .ok s, p => do
    let (client, calls) ← clientReceivedPacket e p.env s.client p.type p.content
    return {
      client := client
      axes := fun i => s.axes i ∨ ∃ min max, absinfoOf e p = some (i, min, max) ∧ i ≤ ABS_MAX
      evBitmap := (evBitmapOf e p).getD s.evBitmap
      calls := s.calls ++ calls }

variable {e : Endian} {s : Session} {p : Incoming}

theorem step_ok {client : Client} {calls : List UinputCall}
    (h : clientReceivedPacket e p.env s.client p.type p.content = .ok (client, calls)) :
    step e (.ok s) p = .ok {
      client := client
      axes := fun i => s.axes i ∨ ∃ min max, absinfoOf e p = some (i, min, max) ∧ i ≤ ABS_MAX
      evBitmap := (evBitmapOf e p).getD s.evBitmap
      calls := s.calls ++ calls } := by
  rw [step, h]
  rfl

theorem step_error {fault : Fault}
    (h : clientReceivedPacket e p.env s.client p.type p.content = .error fault) :
    step e (.ok s) p = .error fault := by
  rw [step, h]
  rfl

end Session

def UinputCall.Quiet : UinputCall → Prop
  | .writeEvent _ => False
  | .devCreate _ => False
  | _ => True

structure Keeps (client client' : Client) : Prop where
  deviceCreated_eq : client'.deviceCreated = client.deviceCreated
  evSynBit_eq : client'.evSynBit = client.evSynBit
  name_eq : client'.devInfo.name = client.devInfo.name
  absmax_eq : client'.devInfo.absmax = client.devInfo.absmax
  absmin_eq : client'.devInfo.absmin = client.devInfo.absmin
  absflat_eq : client'.devInfo.absflat = client.devInfo.absflat

theorem Keeps.refl (self : Client) : Keeps self self := ⟨rfl, rfl, rfl, rfl, rfl, rfl⟩

theorem received_cases (e : Endian) (env : Env) (self : Client) (type : ℕ) (content : List Byte) :
    (type = IPIPE_EVENT ∧
      clientReceivedPacket e env self type content = receivedEvent e self content) ∨
    (type = IPIPE_DEVICE_NAME ∧
      clientReceivedPacket e env self type content = setName self content) ∨
    (type = IPIPE_DEVICE_ABSINFO ∧
      clientReceivedPacket e env self type content = setAbsinfo e self content) ∨
    (type = IPIPE_DEVICE_BITS ∧
      clientReceivedPacket e env self type content = setBits e self content) ∨
    (type = IPIPE_CREATE ∧
      clientReceivedPacket e env self type content = create env self) ∨
    (type ∉ [IPIPE_EVENT, IPIPE_DEVICE_NAME, IPIPE_DEVICE_ABSINFO, IPIPE_DEVICE_BITS,
        IPIPE_CREATE] ∧
      ∃ self' calls, clientReceivedPacket e env self type content = .ok (self', calls) ∧
        Keeps self self' ∧ ∀ c ∈ calls, c.Quiet) := by
  by_cases hevent : type = IPIPE_EVENT
  · subst hevent
    exact .inl ⟨rfl, rfl⟩
  by_cases hname : type = IPIPE_DEVICE_NAME
  · subst hname
    exact .inr (.inl ⟨rfl, rfl⟩)
  by_cases habsinfo : type = IPIPE_DEVICE_ABSINFO
  · subst habsinfo
    exact .inr (.inr (.inl ⟨rfl, rfl⟩))
  by_cases hbits : type = IPIPE_DEVICE_BITS
  · subst hbits
    exact .inr (.inr (.inr (.inl ⟨rfl, rfl⟩)))
  by_cases hcreate : type = IPIPE_CREATE
  · subst hcreate
    exact .inr (.inr (.inr (.inr (.inl ⟨rfl, rfl⟩))))
  refine .inr (.inr (.inr (.inr (.inr ⟨by simp [*], ?_⟩))))
  rw [clientReceivedPacket, if_neg hevent, if_neg hname, if_neg habsinfo, if_neg hbits,
    if_neg hcreate]
  split
  · exact ⟨_, _, rfl, .refl self, by simp [UinputCall.Quiet]⟩
  split
  · split
    · exact ⟨_, _, rfl, .refl self, by simp⟩
    · exact ⟨_, _, rfl, ⟨rfl, rfl, rfl, rfl, rfl, rfl⟩, by simp⟩
  split
  · split
    · exact ⟨_, _, rfl, .refl self, by simp⟩
    · exact ⟨_, _, rfl, ⟨rfl, rfl, rfl, rfl, rfl, rfl⟩, by simp⟩
  split
  · split
    · exact ⟨_, _, rfl, .refl self, by simp⟩
    · exact ⟨_, _, rfl, .refl self, by simp [UinputCall.Quiet]⟩
  split
  · split
    · exact ⟨_, _, rfl, .refl self, by simp⟩
    · exact ⟨_, _, rfl, .refl self, by simp [UinputCall.Quiet]⟩
  · exact ⟨_, _, rfl, .refl self, by simp⟩

theorem setName_spec (self : Client) (content : List Byte) :
    ∃ name, setName self content =
        .ok ({ self with devInfo := { self.devInfo with name := name } }, []) ∧
      ∃ i < UINPUT_MAX_NAME_SIZE, name i = 0 := by
  have hlength : (if content.length ≥ UINPUT_MAX_NAME_SIZE then UINPUT_MAX_NAME_SIZE - 1
      else content.length) < UINPUT_MAX_NAME_SIZE := by
    split <;> simp only [UINPUT_MAX_NAME_SIZE] at * <;> omega
  refine ⟨_, if_pos hlength, _, hlength, ?_⟩
  apply Function.update_self

theorem receivedEvent_spec (e : Endian) (self : Client) (content : List Byte) :
    ∃ calls, receivedEvent e self content = .ok (self, calls) := by
  rw [receivedEvent]
  split
  · exact ⟨_, rfl⟩
  split
  · exact ⟨_, rfl⟩
  · exact ⟨_, rfl⟩

theorem create_spec (env : Env) (self : Client) :
    ∃ created calls, create env self = .ok ({ self with deviceCreated := created }, calls) := by
  rw [create]
  split
  · exact ⟨_, _, rfl⟩
  dsimp only
  split
  · exact ⟨_, _, rfl⟩
  · exact ⟨_, _, rfl⟩

def rememberedSyn (old : Bool) : Option (List Byte) → Bool
  | none => old
  | some [] => old
  | some (byte :: bytes) => wordsBit (byte :: bytes) EV_SYN

theorem setBits_spec {e : Endian} {p : Incoming} (htype : p.type = IPIPE_DEVICE_BITS)
    (self : Client) :
    ∃ calls, setBits e self p.content =
        .ok ({ self with evSynBit := rememberedSyn self.evSynBit (evBitmapOf e p) }, calls) ∧
      ∀ c ∈ calls, c.Quiet := by
  rw [setBits, evBitmapOf]
  by_cases hlength : p.content.length < 2
  · rw [if_pos hlength, if_neg (by omega)]
    exact ⟨[], rfl, by simp⟩
  rw [if_neg hlength]
  by_cases hev : ntohs e (half e p.content 0) = 0
  · have hioc : ioctlFor (0 : BitVec 16).toNat = some .EVBIT := rfl
    rw [hev, if_pos ⟨htype, Nat.le_of_not_lt hlength, rfl⟩]
    dsimp only
    rw [hioc]
    refine ⟨_, congrArg Except.ok (Prod.ext ?_ rfl), ?_⟩
    · rw [unpackBits_client]
      cases p.content.drop 2 with
      | nil => simp [rememberedSyn]
      | cons byte bytes => simp [rememberedSyn, EV_SYN]
    · intro c hc
      obtain ⟨k, rfl, -⟩ := (mem_unpackBits _ _).mp hc
      trivial
  · have hne : (ntohs e (half e p.content 0)).toNat ≠ 0 := by
      intro h
      exact hev (BitVec.eq_of_toNat_eq h)
    rw [if_neg (fun h => hev h.2.2)]
    dsimp only
    split
    · exact ⟨[], rfl, by simp⟩
    · refine ⟨_, congrArg Except.ok (Prod.ext ?_ rfl), ?_⟩
      · rw [unpackBits_client, if_neg (fun h => hne h.1)]
        rfl
      · intro c hc
        obtain ⟨k, rfl, -⟩ := (mem_unpackBits _ _).mp hc
        trivial

end NaviMisc.Inputpipe.Server
