import NaviMisc.Therm.RadioLink
import NaviMisc.Therm.StorePacket

/-!
From the transmitters' loop (therm-tc74.asm) through the loops of the base station
(receiver/main.c) and of the daemon (daemon/main.c) to what is stored.
-/

namespace NaviMisc.Therm

open NaviMisc.Lib
open NaviMisc.Lib.BitLists
open NaviMisc.Lib.Bits
open NaviMisc.Lib.BitStuffing
open NaviMisc.Lib.Outcome
open Receiver

structure BaseStation where
  receiver : Receiver
  other : List Byte

namespace BaseStation

/-- `receiver_init`, and `receiver_set_buffer` with the first of the buffers. -/
def start (packetBuffer₁ packetBuffer₂ : List Byte) : BaseStation :=
  ⟨⟨0, 0, 0, packetBuffer₁, 0⟩, packetBuffer₂⟩

def poll (s : BaseStation) (b : Bool × Byte) : Except Fault (Option (List Byte) × BaseStation) := do
  let (c, receiver) ← s.receiver.pushBit b.1 b.2
  if c = 0 then return (none, { s with receiver := receiver })
  return (some (receiver.buffer.take c.toNat), ⟨receiver.setBuffer s.other, receiver.buffer⟩)

def run (s : BaseStation) (l : List (Bool × Byte)) :
    Except Fault (List (List Byte) × BaseStation) :=
  l.foldlM (fun (packets, s) b => do
    let (packet, s) ← s.poll b
    return (packets ++ packet.toList, s)) ([], s)

end BaseStation

/-- A turn of the inner loop of `main` in which the transfer does not time out. -/
def Daemon.turn {F : Type} (alloc : Allocator) (ops : Floats F) (d : Daemon F) (x : Transfer) :
    Except Failure (Daemon F) := do
  match ← receiverRead alloc ops x.buffer x.count with
  | some packet => d.storePacket alloc ops packet
  | none => return d

structure Carries (packet : List Byte) (x : Transfer) : Prop where
  count_eq : x.count = packet.length
  take_eq : x.buffer.take x.count = packet

namespace Transmitter

variable (timer : List Bool → Bool)

def N_PACKETS : ℕ := 5

/-- The bits that the receiver makes of the time before a burst, the preamble with it, and what
is measured for the burst. -/
structure Sample where
  gap : List Bool
  adresl : Byte
  adresh : Byte
  thermTotalLow : Byte
  thermTotalHigh : Byte
  thermCount : Byte

def Sample.registers (x : Sample) (stationId packetSeq : Byte) : Registers where
  stationId := stationId
  packetSeq := packetSeq
  adresl := x.adresl
  adresh := x.adresh
  thermTotalLow := x.thermTotalLow
  thermTotalHigh := x.thermTotalHigh
  thermCount := x.thermCount

def burst (gap : List Bool) (regs : Registers) (t : Transmitter) : Transmitter :=
  (txPacketProto0 timer regs)^[N_PACKETS] { t with sent := t.sent ++ gap }

def mainLoop (stationId : Byte) : List Sample → Byte → Transmitter → Transmitter
  | [], _, t => t
  | x :: samples, packetSeq, t =>
    mainLoop stationId samples (packetSeq + 1)
      (burst timer x.gap (x.registers stationId (packetSeq + 1)) t)

def readings (stationId : Byte) : List Sample → Byte → List Reading
  | [], _ => []
  | x :: samples, packetSeq =>
    (x.registers stationId (packetSeq + 1)).reading :: readings stationId samples (packetSeq + 1)

end Transmitter

section Bursts

open Transmitter

def CAPACITY : ℕ := 464

def heard (l : List Bool) : List (List Bool) :=
  ((⟨0, []⟩ : Deframer).frames RUN 256 CAPACITY l).filterMap validContent

def Quiet (gap : List Bool) : Prop := heard (gap ++ flag RUN) = []

structure Heard (contents : List (List Bool)) (t : Transmitter) : Prop where
  feed_eq : (⟨0, []⟩ : Deframer).feed RUN 256 CAPACITY t.sent = ⟨0, []⟩
  heard_eq : heard t.sent = contents

variable (timer : List Bool → Bool) {contents : List (List Bool)} {t : Transmitter}

theorem quiet_nil : Quiet [] := rfl

theorem feed_flag (d : Deframer) : d.feed RUN 256 CAPACITY (flag RUN) = ⟨0, []⟩ :=
  Deframer.feed_flag (by decide) d

theorem Heard.packet (h : Heard contents t) {gap : List Bool} (hgap : Quiet gap)
    (regs : Registers) :
    Heard (contents ++ [regs.reading.content])
      (txPacketProto0 timer regs { t with sent := t.sent ++ gap }) := by
  have hfeed : (⟨0, []⟩ : Deframer).feed RUN 256 CAPACITY (t.sent ++ gap ++ preamble) = ⟨0, []⟩ := by
    rw [preamble, Deframer.feed_append, Deframer.feed_append, feed_flag]
  have hpreamble : heard (t.sent ++ gap ++ preamble) = contents := by
    have hsplit : t.sent ++ gap ++ preamble =
        t.sent ++ ((gap ++ flag RUN) ++ (flag RUN ++ flag RUN ++ flag RUN)) := by
      simp only [preamble, List.append_assoc]
    have hgap' := hgap
    rw [Quiet, heard] at hgap'
    rw [hsplit, heard, Deframer.frames_append, h.feed_eq, Deframer.frames_append,
      List.filterMap_append, List.filterMap_append, hgap', Deframer.feed_append, feed_flag, ← heard,
      h.heard_eq, List.nil_append]
    exact List.append_nil contents
  obtain ⟨hones, hones', hstored⟩ := @Deframer.feed_content RUN 256 CAPACITY ⟨0, []⟩ (by decide)
    ⟨0, t.sent ++ gap ++ preamble⟩ (Nat.succ_pos 2) (by rw [hfeed]) (checked regs.reading.content)
  have hframes := @Deframer.frames_content RUN 256 CAPACITY ⟨0, []⟩ (by decide)
    ⟨0, t.sent ++ gap ++ preamble⟩ (Nat.succ_pos 2) (by rw [hfeed]) (checked regs.reading.content)
  have hlength : (checked regs.reading.content).length = 63 := by
    rw [checked, List.length_append, length_lowFirst, Reading.length_content]
  have hchecked : (checked regs.reading.content).foldl (Deframer.keep CAPACITY) [] =
      checked regs.reading.content := by
    rw [Deframer.foldl_keep, List.nil_append]
    rw [hlength]
    decide
  rw [hfeed, hchecked] at hstored
  have hsent := (txPacketProto0_sent timer regs { t with sent := t.sent ++ gap }).trans
    (txPacket_sent timer _ _)
  generalize (checked regs.reading.content).foldl (Stuffer.push RUN)
    ⟨0, t.sent ++ gap ++ preamble⟩ = s at *
  constructor
  · rw [hsent, Deframer.feed_append, feed_flag]
  · have hroom : ((⟨0, []⟩ : Deframer).feed RUN 256 CAPACITY s.sent).stored.length + (RUN + 3) ≤
        CAPACITY := by
      rw [hstored, hlength]
      decide
    have hflag := Deframer.frames_flag (k := RUN) (m := 256) (by decide) (by omega) hroom
    rw [hsent, heard, Deframer.frames_append, hflag, hstored, List.filterMap_append, hframes,
      ← heard, hpreamble]
    exact congrArg (contents ++ ·) (by rw [List.filterMap_cons_some (validContent_checked _)]; rfl)

theorem Heard.packets (h : Heard contents t) (regs : Registers) (n : ℕ) :
    Heard (contents ++ List.replicate n regs.reading.content)
      ((txPacketProto0 timer regs)^[n] t) := by
  induction n with
  | zero => rwa [List.replicate_zero, List.append_nil]
  | succ n ih =>
    have hpacket := ih.packet timer quiet_nil regs
    rw [List.append_nil] at hpacket
    rw [Function.iterate_succ_apply', List.replicate_succ', ← List.append_assoc]
    exact hpacket

theorem Heard.burst (h : Heard contents t) {gap : List Bool} (hgap : Quiet gap)
    (regs : Registers) :
    Heard (contents ++ List.replicate N_PACKETS regs.reading.content) (burst timer gap regs t) := by
  have hpackets := (h.packet timer hgap regs).packets timer regs 4
  rwa [List.append_assoc] at hpackets

theorem Heard.mainLoop (stationId : Byte) {samples : List Sample}
    (hgaps : ∀ x ∈ samples, Quiet x.gap) (packetSeq : Byte) (h : Heard contents t) :
    Heard (contents ++ (readings stationId samples packetSeq).flatMap fun r =>
        List.replicate N_PACKETS r.content)
      (mainLoop timer stationId samples packetSeq t) := by
  induction samples generalizing contents packetSeq t with
  | nil => rwa [readings, List.flatMap_nil, List.append_nil]
  | cons x samples ih =>
    obtain ⟨hgap, hgaps⟩ := List.forall_mem_cons.mp hgaps
    have hrest := ih hgaps (packetSeq + 1)
      (h.burst timer hgap (x.registers stationId (packetSeq + 1)))
    rwa [List.append_assoc] at hrest

theorem isChain_readings (stationId : Byte) (samples : List Sample) (packetSeq : Byte) :
    (readings stationId samples packetSeq).IsChain (· ≠ ·) := by
  induction samples generalizing packetSeq with
  | nil => exact .nil
  | cons x samples ih =>
    cases samples with
    | nil => exact .singleton _
    | cons y samples =>
      refine List.isChain_cons_cons.mpr ⟨?_, ih (packetSeq + 1)⟩
      intro heq
      have hsequence := congrArg Reading.sequence heq
      simp only [Registers.reading, Sample.registers] at hsequence
      bv_omega

end Bursts

section Receiving

structure Delivered (content : List Bool) (packet : List Byte) : Prop where
  length_eq : packet.length = 6 + (content.length + 7) / 8
  header_eq : headerInt packet 0 = content.length
  bits_eq : firstBits (packet.drop 6) content.length = content

structure Follows (l : List Bool) (packets : List (List Byte)) (s : BaseStation) : Prop where
  receiver_eq : s.receiver.buffer.length = 6 + 58
  other_eq : s.other.length = 6 + 58
  follows : s.receiver.Follows ((⟨0, []⟩ : Deframer).feed RUN 256 CAPACITY l)
  delivered : List.Forall₂ Delivered (heard l) packets

theorem heard_append_singleton (l : List Bool) (b : Bool) :
    heard (l ++ [b]) = heard l ++ ((((⟨0, []⟩ : Deframer).feed RUN 256 CAPACITY l).push RUN 256
      CAPACITY b).1.bind validContent).toList := by
  rw [heard, Deframer.frames_append, Deframer.frames_singleton, List.filterMap_append, ← heard]
  generalize (((⟨0, []⟩ : Deframer).feed RUN 256 CAPACITY l).push RUN 256 CAPACITY b).1 = frame
  cases frame with
  | none => rfl
  | some frame =>
    rw [Option.toList_some, Option.bind_some]
    cases hcontent : validContent frame with
    | none => rw [List.filterMap_cons_none hcontent]; rfl
    | some content => rw [List.filterMap_cons_some hcontent]; rfl

theorem delivered_of_delivers {ret : ℤ} {r : Receiver} {content : List Bool}
    (h : Delivers ret r (some content)) (hlen : r.buffer.length = 6 + 58)
    (hcontent : content.length ≤ CAPACITY) : Delivered content (r.buffer.take ret.toNat) := by
  obtain ⟨rfl, hstored, hheader⟩ := h
  have hret : (HEADER_SIZE + ((content.length + 7) / 8 : ℕ)).toNat =
      6 + (content.length + 7) / 8 := by
    rw [HEADER_SIZE]
    omega
  rw [CAPACITY] at hcontent
  have hbyte (i : ℕ) (hi : i < 6) : (r.buffer.take (6 + (content.length + 7) / 8)).getD i 0 =
      r.buffer.getD i 0 := by
    rw [List.getD_eq_getElem?_getD, List.getElem?_take_of_lt (by omega),
      ← List.getD_eq_getElem?_getD]
  rw [hret]
  constructor
  · rw [List.length_take, hlen]
    omega
  · rw [headerInt, hbyte 0 (by decide), hbyte 1 (by decide), Nat.or_comm,
      ← Nat.shiftLeft_add_eq_or_of_lt (r.buffer.getD 0 0).isLt, Nat.shiftLeft_eq]
    have hword : (r.buffer.getD 0 0).toNat + 256 * (r.buffer.getD 1 0).toNat = content.length :=
      hheader (by omega)
    omega
  · rw [List.drop_take, Nat.add_sub_cancel_left, firstBits_take _ (by omega)]
    exact hstored

theorem poll_follows {l : List Bool} {packets : List (List Byte)} {s : BaseStation}
    (h : Follows l packets s) (b : Bool × Byte) :
    ∃ packet s', s.poll b = .ok (packet, s') ∧
      Follows (l ++ [b.1]) (packets ++ packet.toList) s' := by
  have hcap : ((⟨0, []⟩ : Deframer).feed RUN 256 CAPACITY l).stored.length ≤ 8 * 58 :=
    Deframer.feed_length (Nat.zero_le _) l
  obtain ⟨ret, r', hr', hlen, hfollows, hdelivers⟩ :=
    pushBit_spec h.receiver_eq h.follows hcap (fun _ => by omega) b.1 b.2
  have hheard := heard_append_singleton l b.1
  have hfeed : (⟨0, []⟩ : Deframer).feed RUN 256 CAPACITY (l ++ [b.1]) = _ :=
    Deframer.feed_append _ l [b.1]
  change Delivers ret r' ((Deframer.push RUN 256 CAPACITY _ b.1).1.bind validContent) at hdelivers
  change r'.Follows (Deframer.push RUN 256 CAPACITY _ b.1).2 at hfollows
  have hframe := (@Deframer.push_length RUN 256 CAPACITY _ hcap b.1).2
  have hflag := @Deframer.push_of_some RUN 256 CAPACITY
    ((⟨0, []⟩ : Deframer).feed RUN 256 CAPACITY l) b.1
  change (⟨0, []⟩ : Deframer).feed RUN 256 CAPACITY (l ++ [b.1]) = (Deframer.push _ _ _ _ _).2
    at hfeed
  generalize Deframer.push RUN 256 CAPACITY
    ((⟨0, []⟩ : Deframer).feed RUN 256 CAPACITY l) b.1 = pushed at *
  rw [BaseStation.poll, hr']
  cases hcontent : pushed.1.bind validContent with
  | none =>
    rw [hcontent] at hdelivers hheard
    cases hdelivers
    refine ⟨none, _, rfl, hlen.trans h.receiver_eq, h.other_eq, hfeed ▸ hfollows, ?_⟩
    rw [hheard]
    exact List.rel_append h.delivered .nil
  | some content =>
    rw [hcontent] at hdelivers hheard
    obtain ⟨frame, hsome, hvalid⟩ := Option.bind_eq_some_iff.mp hcontent
    have hle := hframe frame hsome
    rw [(of_validContent hvalid).1] at hle
    have hpacket := delivered_of_delivers hdelivers (hlen.trans h.receiver_eq) (by omega)
    have hne : ret ≠ 0 := by
      rw [hdelivers.1, HEADER_SIZE]
      omega
    have hones := hfollows.ones
    rw [hflag hsome] at hones hfeed
    refine ⟨some (r'.buffer.take ret.toNat), _, if_neg hne, h.other_eq, hlen.trans h.receiver_eq,
      ?_, ?_⟩
    · have hbuffer := setBuffer_follows r' s.other
      rwa [hones, ← hfeed] at hbuffer
    · rw [hheard]
      exact List.rel_append h.delivered (.cons hpacket .nil)

theorem run_follows (l : List (Bool × Byte)) {packetBuffer₁ packetBuffer₂ : List Byte}
    (h₁ : packetBuffer₁.length = 64) (h₂ : packetBuffer₂.length = 64) :
    ∃ packets s, (BaseStation.start packetBuffer₁ packetBuffer₂).run l = .ok (packets, s) ∧
      List.Forall₂ Delivered (heard (l.map Prod.fst)) packets := by
  let start := BaseStation.start packetBuffer₁ packetBuffer₂
  have hstart : Follows [] [] start := ⟨h₁, h₂, ⟨rfl, holds_nil rfl⟩, .nil⟩
  have hrun : Yields (fun _ => False) (fun p => Follows (l.map Prod.fst) p.1 p.2)
      (start.run l) := by
    apply Yields.foldlM (I := fun done (p : List (List Byte) × BaseStation) =>
      Follows (done.map Prod.fst) p.1 p.2) (a := ([], start)) hstart
    rintro b - done ⟨packets, s⟩ h
    obtain ⟨packet, s', hpoll, h'⟩ := poll_follows h b
    rw [List.map_append, List.map_singleton]
    simp only [hpoll]
    exact h'
  obtain ⟨⟨packets, s⟩, hrun, hfollows⟩ := hrun.exists_ok fun _ => id
  exact ⟨packets, s, hrun, hfollows.delivered⟩

end Receiving

section Storing

open Transmitter

variable {F : Type} (alloc : Allocator) (ops : Floats F)

theorem receiverRead_delivered {content : List Bool} {packet : List Byte} {x : Transfer}
    (h : Delivered content packet) (hx : Carries packet x) :
    ∃ p : Received F, receiverRead alloc ops x.buffer x.count = .ok (some p.packet) ∧
      p.packet.content = content := by
  have hcount := hx.count_eq.trans h.length_eq
  have hbyte (i : ℕ) (hi : i < 6) : packet.getD i 0 = x.buffer.getD i 0 := by
    rw [← hx.take_eq, List.getD_eq_getElem?_getD, List.getElem?_take_of_lt (by omega),
      ← List.getD_eq_getElem?_getD]
  have hbits : x.bits = content.length := by
    have hheader := h.header_eq
    rwa [headerInt, hbyte 0 (by decide), hbyte 1 (by decide)] at hheader
  obtain ⟨p, hread, hcontent⟩ := receiverRead_received alloc ops x (by omega) (by omega)
  refine ⟨p, hread, ?_⟩
  have hpacket := h.bits_eq
  rw [← hx.take_eq, List.drop_take, firstBits_take _ (by omega), ← hbits] at hpacket
  rw [hcontent, hpacket]

theorem foldlM_turn {contents : List (List Bool)} {packets : List (List Byte)} {xs : List Transfer}
    (h : List.Forall₂ Delivered contents packets) (hxs : List.Forall₂ Carries packets xs)
    (d : Daemon F) :
    ∃ ps : List (Received F), ps.map (·.packet.content) = contents ∧
      xs.foldlM (Daemon.turn alloc ops) d =
        ps.foldlM (fun d p => Daemon.storePacket alloc ops p.packet d) d := by
  suffices ∃ ps : List (Received F), ps.map (·.packet.content) = contents ∧
      ∀ d : Daemon F, xs.foldlM (Daemon.turn alloc ops) d =
        ps.foldlM (fun d p => Daemon.storePacket alloc ops p.packet d) d from
    this.imp fun ps hps => ⟨hps.1, hps.2 d⟩
  induction h generalizing xs with
  | nil =>
    cases hxs
    exact ⟨[], rfl, fun _ => rfl⟩
  | cons hcontent _ ih =>
    obtain ⟨x, xs, hx, hrest, rfl⟩ := List.forall₂_cons_left_iff.mp hxs
    obtain ⟨p, hread, rfl⟩ := receiverRead_delivered alloc ops hcontent hx
    obtain ⟨ps, rfl, hps⟩ := ih hrest
    refine ⟨p :: ps, rfl, fun d => ?_⟩
    rw [List.foldlM_cons, List.foldlM_cons, Daemon.turn, hread]
    exact bind_congr hps

theorem accepted_bursts {ps : List (Received F)} {rs : List Reading}
    (hps : ps.map (·.packet.content) = rs.flatMap fun r => List.replicate N_PACKETS r.content)
    (hrs : rs.IsChain (· ≠ ·)) : (accepted ps).map Measurement.reading = rs := by
  have hmeasured : (ps.filterMap Received.measurement).map Measurement.reading =
      (ps.map (·.packet.content)).filterMap Reading.ofContent := by
    rw [List.map_filterMap, List.filterMap_map]
    refine List.filterMap_congr fun p _ => ?_
    rw [Received.measurement, Option.map_map]
    exact Option.map_id'
  have hcontents : (rs.flatMap fun r => List.replicate N_PACKETS r.content).filterMap
      Reading.ofContent = rs.flatMap (List.replicate N_PACKETS) := by
    rw [List.filterMap_flatMap]
    refine congrArg rs.flatMap (funext fun r => ?_)
    rw [List.filterMap_replicate_of_some r.ofContent_content]
  have hmap (l : List (Measurement F)) :
      (l.destutter fun a b => a.reading ≠ b.reading).map Measurement.reading =
        (l.map Measurement.reading).destutter (· ≠ ·) := List.map_destutter fun _ _ _ _ => Iff.rfl
  rw [accepted, hmap, hmeasured, hps, hcontents]
  exact Lists.destutter_flatMap_replicate 4 hrs

/-- Each burst that has measured something is stored, in order and once, with what was measured. -/
theorem bursts_stored_once (timer : List Bool → Bool) (stationId : Byte) {samples : List Sample}
    (hgaps : ∀ x ∈ samples, Quiet x.gap) (t : Transmitter) {l : List (Bool × Byte)}
    (hl : l.map Prod.fst = (mainLoop timer stationId samples 0 { t with sent := [] }).sent)
    {packetBuffer₁ packetBuffer₂ : List Byte} (h₁ : packetBuffer₁.length = 64)
    (h₂ : packetBuffer₂.length = 64) :
    ∃ packets s, (BaseStation.start packetBuffer₁ packetBuffer₂).run l = .ok (packets, s) ∧
      ∀ xs, List.Forall₂ Carries packets xs →
        ∃ d, xs.foldlM (Daemon.turn alloc ops) Daemon.start = .ok d ∧
          List.Forall₂ (fun r info => ∃ strength, info = Measurement.info ops ⟨r, strength⟩)
            ((readings stationId samples 0).filter fun r => r.count ≠ 0) d.stored := by
  have hnothing : Heard [] { t with sent := [] } := ⟨rfl, rfl⟩
  have hheard := (hnothing.mainLoop timer stationId hgaps 0).heard_eq
  obtain ⟨packets, s, hrun, hdelivered⟩ := run_follows l h₁ h₂
  rw [hl, hheard, List.nil_append] at hdelivered
  refine ⟨packets, s, hrun, fun xs hxs => ?_⟩
  obtain ⟨ps, hps, hturns⟩ := foldlM_turn alloc ops hdelivered hxs Daemon.start
  have hkeeps : Keeps ops [] Daemon.start := ⟨rfl, .none⟩
  have hstored := Yields.foldlM (f := fun d p => Daemon.storePacket alloc ops p.packet d) (l := ps)
    hkeeps fun p _ done d hd => storePacket_keeps alloc p hd
  obtain ⟨d, hd, hkept⟩ := hstored.exists_ok fun _ => id
  refine ⟨d, hturns.trans hd, ?_⟩
  rw [hkept.stored, records, ← accepted_bursts hps (isChain_readings stationId samples 0),
    List.filter_map, List.forall₂_map_left_iff, List.forall₂_map_right_iff]
  exact List.forall₂_same.mpr fun m _ => ⟨m.signalStrength, rfl⟩

def plainFloats : Floats ℚ := ⟨id, fun n => n, (· * ·), (· / ·), fun a b => decide (a < b)⟩

theorem bursts_stored_once_one : ∃ packets s,
    (BaseStation.start (List.replicate 64 0) (List.replicate 64 0)).run
      ((mainLoop (fun _ => false) 3 [⟨[], 0x20, 1, 0x5e, 1, 14⟩] 0
        ⟨0, 0, 0, 0, 0, false, []⟩).sent.map fun b => (b, 0)) = .ok (packets, s) ∧
      ∀ xs, List.Forall₂ Carries packets xs →
        ∃ d, xs.foldlM (Daemon.turn plainAllocator plainFloats) Daemon.start = .ok d ∧
          List.Forall₂ (fun r info => ∃ strength, info = Measurement.info plainFloats ⟨r, strength⟩)
            [⟨3, 1, 0x120, 0x15e, 14⟩] d.stored := by
  have hbits (l : List Bool) : (l.map fun b => (b, (0 : Byte))).map Prod.fst = l :=
    (List.map_map ..).trans (List.map_id _)
  exact @bursts_stored_once _ plainAllocator plainFloats (fun _ => false) 3
    [⟨[], 0x20, 1, 0x5e, 1, 14⟩] (List.forall_mem_singleton.mpr quiet_nil)
    ⟨0, 0, 0, 0, 0, false, []⟩ _ (hbits _) _ _ rfl rfl

end Storing

end NaviMisc.Therm
