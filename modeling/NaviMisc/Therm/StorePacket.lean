import NaviMisc.Therm.PacketBounds
import NaviMisc.Therm.Transmitter

/-!
The content of a packet of protocol 0, as `tx_packet_proto0` sends it.
-/

namespace NaviMisc.Therm

open NaviMisc.Lib.BitLists
open NaviMisc.Lib.BitStuffing

structure Reading where
  stationId : BitVec 6
  sequence : BitVec 5
  battery : BitVec 10
  total : BitVec 16
  count : BitVec 8
  deriving DecidableEq

namespace Reading

def content (r : Reading) : List Bool :=
  lowFirst 0#2 2 ++ lowFirst r.stationId 6 ++ lowFirst r.sequence 5 ++ lowFirst r.battery 10 ++
    lowFirst r.total 16 ++ lowFirst r.count 8

def ofContent (l : List Bool) : Option Reading :=
  if l.length = 47 ∧ gather 2 (l.take 2) = 0 then
    some {
      stationId := gather 6 ((l.drop 2).take 6)
      sequence := gather 5 ((l.drop 8).take 5)
      battery := gather 10 ((l.drop 13).take 10)
      total := gather 16 ((l.drop 23).take 16)
      count := gather 8 ((l.drop 39).take 8) }
  else
    none

theorem length_content (r : Reading) : r.content.length = 47 := by simp [content]

theorem ofContent_content (r : Reading) : ofContent r.content = some r := by
  rw [ofContent, if_pos]
  · rw [content]
    simp (disch := simp) [List.drop_append, List.drop_of_length_le, List.take_of_length_le,
      gather_lowFirst]
  · rw [length_content, content]
    simp [gather_lowFirst]

theorem content_of_ofContent {l : List Bool} {r : Reading} (h : ofContent l = some r) :
    r.content = l := by
  rw [ofContent] at h
  split at h
  · rename_i hvalid
    obtain ⟨hlength, hzero⟩ := hvalid
    have hprotocol : gather 2 (l.take 2) = 0#2 := hzero
    cases h
    rw [content]
    dsimp only
    rw [← hprotocol, lowFirst_gather (by simp [hlength]), lowFirst_gather (by simp [hlength]),
      lowFirst_gather (by simp [hlength]), lowFirst_gather (by simp [hlength]),
      lowFirst_gather (by simp [hlength]), lowFirst_gather (by simp [hlength]), ← List.take_add,
      ← List.take_add, ← List.take_add, ← List.take_add, ← List.take_add,
      List.take_of_length_le hlength.le]
  · cases h

end Reading

/-- What `tx_packet_proto0` reads: the constant and the registers of a measurement. -/
structure Registers where
  stationId : Byte
  packetSeq : Byte
  adresl : Byte
  adresh : Byte
  thermTotalLow : Byte
  thermTotalHigh : Byte
  thermCount : Byte

def Registers.reading (regs : Registers) : Reading where
  stationId := regs.stationId.setWidth 6
  sequence := regs.packetSeq.setWidth 5
  battery := regs.adresh.setWidth 2 ++ regs.adresl
  total := regs.thermTotalHigh ++ regs.thermTotalLow
  count := regs.thermCount

namespace Transmitter

variable (timer : List Bool → Bool)

def txPacketProto0 (regs : Registers) (t : Transmitter) : Transmitter :=
  let t := txBeginContent timer t
  let t := txContent timer 2 { t with temp := 0 }
  let t := txContent timer 6 { t with temp := regs.stationId }
  let t := txContent timer 5 { t with temp := regs.packetSeq }
  let t := txContent timer 8 { t with temp := regs.adresl }
  let t := txContent timer 2 { t with temp := regs.adresh }
  let t := txContent timer 8 { t with temp := regs.thermTotalLow }
  let t := txContent timer 8 { t with temp := regs.thermTotalHigh }
  let t := txContent timer 8 { t with temp := regs.thermCount }
  txEndContent timer t

variable {t : Transmitter} {s : Stuffer} {crc : BitVec 16}

structure Sent (s : Stuffer) (l : List Bool) (t : Transmitter) : Prop where
  tracks : t.Tracks (l.foldl (Stuffer.push RUN) s) (l.foldl crcStep 0)
  ones : s.ones < RUN

theorem Sent.content {l : List Bool} (h : Sent s l t) (x : Byte) {n : ℕ} (hn : n ≤ 8) :
    Sent s (l ++ lowFirst x n) (txContent timer n { t with temp := x }) := by
  have hload : Tracks { t with temp := x } _ _ := ⟨h.tracks.ones, h.tracks.sent, h.tracks.crc⟩
  refine ⟨?_, h.ones⟩
  rw [List.foldl_append, List.foldl_append]
  exact (txContent_spec timer hload (foldl_push_ones_lt h.ones l) hn).1

theorem txPacketProto0_sent (regs : Registers) (t : Transmitter) :
    (txPacketProto0 timer regs t).sent = (txPacket timer regs.reading.content t).sent := by
  have hcontent : regs.reading.content =
      [] ++ lowFirst (0 : Byte) 2 ++ lowFirst regs.stationId 6 ++ lowFirst regs.packetSeq 5 ++
        lowFirst regs.adresl 8 ++ lowFirst regs.adresh 2 ++ lowFirst regs.thermTotalLow 8 ++
          lowFirst regs.thermTotalHigh 8 ++ lowFirst regs.thermCount 8 := by
    have hbattery : lowFirst (regs.adresh.setWidth 2 ++ regs.adresl) 10 = _ := lowFirst_append _ _
    have htotal : lowFirst (regs.thermTotalHigh ++ regs.thermTotalLow) 16 = _ :=
      lowFirst_append _ _
    rw [Reading.content, Registers.reading]
    dsimp only
    rw [hbattery, htotal, lowFirst_setWidth, lowFirst_setWidth, lowFirst_setWidth]
    simp only [List.append_assoc, List.nil_append]
    rfl
  have hbegin : Sent ⟨0, t.sent ++ preamble⟩ [] (txBeginContent timer t) :=
    ⟨txBeginContent_spec timer t, Nat.zero_lt_succ 2⟩
  have hsent := ((((((((hbegin.content timer 0 (by decide : 2 ≤ 8)).content timer
    regs.stationId (by decide : 6 ≤ 8)).content timer regs.packetSeq (by decide : 5 ≤ 8)).content
    timer regs.adresl (Nat.le_refl 8)).content timer regs.adresh (by decide : 2 ≤ 8)).content timer
    regs.thermTotalLow (Nat.le_refl 8)).content timer regs.thermTotalHigh
    (Nat.le_refl 8)).content timer regs.thermCount (Nat.le_refl 8))
  rw [← hcontent] at hsent
  rw [txPacketProto0, txEndContent_spec timer hsent.tracks (foldl_push_ones_lt hsent.ones _), txPacket_sent,
    checked, List.foldl_append, crc16, List.foldl_append]

end Transmitter

end NaviMisc.Therm

/-!
How the daemon stores the packets of protocol 0 (daemon/main.c).
-/

namespace NaviMisc.Therm

open NaviMisc.Lib
open NaviMisc.Lib.BitLists
open NaviMisc.Lib.BitStuffing
open NaviMisc.Lib.Outcome

structure TemperatureInfo (F : Type) where
  sensorType : String
  sensorIndex : ℤ
  sequence : ℤ
  batteryVoltage : F
  temperature : F
  signalStrength : F

structure Daemon (F : Type) where
  previousPacket : Option (RxPacket F)
  stored : List (TemperatureInfo F)
  stderr : List String

namespace Daemon

variable {F : Type}

def start : Daemon F := ⟨none, [], []⟩

def storeTemperatureInfo (info : TemperatureInfo F) (d : Daemon F) : Daemon F :=
  { d with stored := d.stored ++ [info] }

def fprintf (text : String) (d : Daemon F) : Daemon F := { d with stderr := d.stderr ++ [text] }

variable (alloc : Allocator) (ops : Floats F)

def storePacketTherm0 (packet : RxPacket F) (d : Daemon F) : Except Failure (Daemon F) := do
  let (difference, previous, packet') ← RxPacket.cmp d.previousPacket (some packet)
  let packet := packet'.getD packet
  let d := { d with previousPacket := previous }
  if difference = 0 then .ok d
  else if packet.bufferBits ≠ 47 then
    .ok (d.fprintf
      s!"Received a protocol 0 temperature packet with incorrect length ({packet.bufferBits} bits)\n")
  else do
    let (sensorIndex, packet) ← packet.readInt 6
    let (sequence, packet) ← packet.readInt 5
    let (battery, packet) ← packet.readInt 10
    let (tempTotal, packet) ← packet.readSignedInt 16
    let (tempCount, packet) ← packet.readInt 8
    let info : TemperatureInfo F := {
      sensorType := "rf"
      sensorIndex := sensorIndex.toInt
      sequence := sequence.toInt
      batteryVoltage := ops.div (ops.ofInt battery.toInt) (ops.literal 102.4)
      temperature := ops.div (ops.ofInt tempTotal.toInt) (ops.ofInt tempCount.toInt)
      signalStrength := packet.signalStrength }
    let d := if tempCount.toInt > 0 then d.storeTemperatureInfo info else d
    let previous ← packet.dup alloc
    .ok { d with previousPacket := some previous }

def storePacket (packet : RxPacket F) (d : Daemon F) : Except Failure (Daemon F) := do
  let (protocol, packet) ← packet.readInt 2
  if protocol.toInt = 0 then d.storePacketTherm0 alloc ops packet
  else .ok (d.fprintf s!"Received a packet with unknown protocol {protocol.toInt}\n")

end Daemon

structure Received (F : Type) where
  packet : RxPacket F
  whole : packet.Whole
  start : packet.currentBit = 0

structure Measurement (F : Type) where
  reading : Reading
  signalStrength : F

section Measurements

variable {F : Type}

def Received.measurement (p : Received F) : Option (Measurement F) :=
  (Reading.ofContent p.packet.content).map fun r => ⟨r, p.packet.signalStrength⟩

def accepted (l : List (Received F)) : List (Measurement F) :=
  (l.filterMap Received.measurement).destutter fun a b => a.reading ≠ b.reading

def Measurement.info (ops : Floats F) (m : Measurement F) : TemperatureInfo F where
  sensorType := "rf"
  sensorIndex := m.reading.stationId.toNat
  sequence := m.reading.sequence.toNat
  batteryVoltage := ops.div (ops.ofInt m.reading.battery.toNat) (ops.literal 102.4)
  temperature := ops.div (ops.ofInt m.reading.total.toInt) (ops.ofInt m.reading.count.toNat)
  signalStrength := m.signalStrength

def records (ops : Floats F) (l : List (Received F)) : List (TemperatureInfo F) :=
  ((accepted l).filter fun m => m.reading.count ≠ 0).map (Measurement.info ops)

structure Keeps (ops : Floats F) (l : List (Received F)) (d : Daemon F) : Prop where
  stored : d.stored = records ops l
  previous : Option.Rel (fun m q => q.Whole ∧ Reading.ofContent q.content = some m.reading)
    (accepted l).getLast? d.previousPacket

variable {ops : Floats F} {l : List (Received F)} {p : Received F} {m : Measurement F}

theorem accepted_of_none (h : p.measurement = none) : accepted (l ++ [p]) = accepted l := by
  rw [accepted, List.filterMap_append, List.filterMap_cons_none h, List.filterMap_nil,
    List.append_nil, accepted]

theorem filterMap_of_some (h : p.measurement = some m) :
    (l ++ [p]).filterMap Received.measurement = l.filterMap Received.measurement ++ [m] := by
  rw [List.filterMap_append, List.filterMap_cons_some h, List.filterMap_nil]

theorem accepted_of_repeat {a : Measurement F} (h : p.measurement = some m)
    (ha : a ∈ (accepted l).getLast?) (hsame : a.reading = m.reading) :
    accepted (l ++ [p]) = accepted l := by
  rw [accepted, filterMap_of_some h]
  exact Lists.destutter_concat_of_not_rel ha (not_not_intro hsame)

theorem accepted_of_ne (h : p.measurement = some m)
    (hne : ∀ a ∈ (accepted l).getLast?, a.reading ≠ m.reading) :
    accepted (l ++ [p]) = accepted l ++ [m] := by
  rw [accepted, filterMap_of_some h]
  exact Lists.destutter_concat hne

theorem records_of_ne (h : p.measurement = some m)
    (hne : ∀ a ∈ (accepted l).getLast?, a.reading ≠ m.reading) :
    records ops (l ++ [p]) =
      if m.reading.count = 0 then records ops l else records ops l ++ [m.info ops] := by
  rw [records, accepted_of_ne h hne, List.filter_append, List.map_append, ← records]
  by_cases hcount : m.reading.count = 0
  · rw [if_pos hcount, List.filter_cons_of_neg (by simpa using hcount)]
    exact List.append_nil _
  · rw [if_neg hcount, List.filter_cons_of_pos (by simpa using hcount)]
    rfl

end Measurements

section Fields

variable {w : ℕ} {l : List Bool}

theorem toInt_gather (hw : w < 32) : (gather 32 (l.take w)).toInt = (gather w (l.take w)).toNat := by
  have hlt : (gather w (l.take w)).toNat < 2 ^ w := (gather w (l.take w)).isLt
  have hle : 2 ^ w ≤ 2 ^ 31 := Nat.pow_le_pow_right (by decide) (by omega)
  have hnat : ((gather w (l.take w)).setWidth 32).toNat = (gather w (l.take w)).toNat := by
    rw [BitVec.toNat_setWidth, Nat.mod_eq_of_lt (by omega)]
  rw [gather_setWidth 32 (List.length_take_le w l), BitVec.toInt_eq_toNat_of_lt, hnat]
  omega

end Fields

section Step

variable {F : Type} {alloc : Allocator} {ops : Floats F} {p : RxPacket F} {d : Daemon F} {r : Reading}

theorem cmp_previous {previous : Option (RxPacket F)} (hprevious : ∀ q ∈ previous, q.Whole)
    (hp : p.Whole) : ∃ z, RxPacket.cmp previous (some p) = .ok (z, previous, some p) ∧
      (z = 0 ↔ ∃ q ∈ previous, q.content = p.content) := by
  cases previous with
  | none => exact ⟨1, rfl, by simp⟩
  | some q =>
    obtain ⟨z, hcmp, hz⟩ := RxPacket.cmp_content (hprevious q rfl) hp
    refine ⟨z, hcmp, hz.trans ?_⟩
    simp

theorem storePacketTherm0_of_repeat (hprevious : ∀ q ∈ d.previousPacket, q.Whole) (hp : p.Whole)
    (h : ∃ q ∈ d.previousPacket, q.content = p.content) :
    d.storePacketTherm0 alloc ops p = .ok d := by
  obtain ⟨z, hcmp, hz⟩ := cmp_previous hprevious hp
  rw [Daemon.storePacketTherm0, hcmp]
  exact if_pos (hz.mpr h)

theorem storePacketTherm0_of_length (hprevious : ∀ q ∈ d.previousPacket, q.Whole) (hp : p.Whole)
    (h : ¬∃ q ∈ d.previousPacket, q.content = p.content) (hlength : p.bufferBits ≠ 47) :
    ∃ text, d.storePacketTherm0 alloc ops p = .ok (d.fprintf text) := by
  obtain ⟨z, hcmp, hz⟩ := cmp_previous hprevious hp
  rw [Daemon.storePacketTherm0, hcmp]
  exact ⟨_, (if_neg (mt hz.mp h)).trans (if_pos hlength)⟩

theorem storePacketTherm0_of_reading (hprevious : ∀ q ∈ d.previousPacket, q.Whole) (hp : p.Whole)
    (h : ¬∃ q ∈ d.previousPacket, q.content = p.content)
    (hr : Reading.ofContent p.content = some r) :
    d.storePacketTherm0 alloc ops (p.seek 2) = .ok {
      (if r.count = 0 then d
        else d.storeTemperatureInfo (Measurement.info ops ⟨r, p.signalStrength⟩)) with
      previousPacket := some (p.seek 47) } := by
  obtain ⟨z, hcmp, hz⟩ := cmp_previous hprevious (hp.seek 2)
  rw [Reading.ofContent, RxPacket.length_content] at hr
  split at hr
  · rename_i hvalid
    cases hr
    have hread {c w : ℕ} (hw : w < 32) (hcw : c + w ≤ 47) : (p.seek c).readInt w =
        .ok (gather 32 ((p.content.drop c).take w), p.seek (c + w)) := by
      rw [RxPacket.readInt_content hp (by omega) (by omega), hvalid.1, Nat.min_eq_left hcw]
    have htotal : (p.seek 23).readSignedInt 16 =
        .ok ((gather 16 ((p.content.drop 23).take 16)).signExtend 32, p.seek 39) := by
      have hsigned := RxPacket.readSignedInt_content hp (c := 23) (by omega)
        (show 0 < 16 by decide) (by decide)
      rwa [hvalid.1] at hsigned
    have hindex := hread (c := 2) (w := 6) (by decide) (by decide)
    have hsequence := hread (c := 8) (w := 5) (by decide) (by decide)
    have hbattery := hread (c := 13) (w := 10) (by decide) (by decide)
    have hcount := hread (c := 39) (w := 8) (by decide) (by decide)
    rw [Daemon.storePacketTherm0, hcmp]
    refine (if_neg (mt hz.mp h)).trans ((if_neg (not_not_intro hvalid.1)).trans ?_)
    rw [Option.getD_some]
    simp only [Nat.cast_ofNat] at hindex hsequence hbattery hcount
    simp only [hindex, hsequence, hbattery, htotal, hcount, RxPacket.dup_whole alloc (hp.seek _),
      bind, Except.bind, toInt_gather (show 5 < 32 by decide), toInt_gather (show 6 < 32 by decide),
      toInt_gather (show 8 < 32 by decide), toInt_gather (show 10 < 32 by decide),
      BitVec.toInt_signExtend_of_le (show 16 ≤ 32 by decide)]
    generalize gather 8 ((p.content.drop 39).take 8) = count
    by_cases hzero : count = 0
    · subst hzero
      rfl
    · have hpos : (count.toNat : ℤ) > 0 := by
        have hne := BitVec.toNat_ne.mp hzero
        change count.toNat ≠ 0 at hne
        omega
      rw [if_pos hpos, if_neg hzero]
      rfl
  · cases hr

theorem protocol_eq_zero_iff (l : List Bool) :
    (gather 32 (l.take 2)).toInt = 0 ↔ gather 2 (l.take 2) = 0 := by
  rw [toInt_gather (by decide), Int.natCast_eq_zero]
  exact (BitVec.toNat_eq (y := 0)).symm

end Step

section Run

variable {F : Type} (alloc : Allocator) {ops : Floats F} {l : List (Received F)}

theorem Keeps.of_previous {d : Daemon F} (hd : Keeps ops l d) :
    ∀ q ∈ d.previousPacket, q.Whole ∧ ∃ r, Reading.ofContent q.content = some r := by
  have hprevious := hd.previous
  generalize (accepted l).getLast? = last at hprevious
  rintro q hq
  rw [Option.mem_def] at hq
  rw [hq] at hprevious
  cases hprevious with
  | some h => exact ⟨h.1, _, h.2⟩

theorem Keeps.whole {d : Daemon F} (hd : Keeps ops l d) : ∀ q ∈ d.previousPacket, q.Whole :=
  fun q hq => (hd.of_previous q hq).1

theorem Keeps.repeats_iff {d : Daemon F} (hd : Keeps ops l d) {content : List Bool} {r : Reading}
    (hr : Reading.ofContent content = some r) :
    (∃ q ∈ d.previousPacket, q.content = content) ↔
      ∃ a ∈ (accepted l).getLast?, a.reading = r := by
  have hprevious := hd.previous
  generalize (accepted l).getLast? = last at hprevious ⊢
  generalize d.previousPacket = previous at hprevious ⊢
  cases hprevious with
  | none => simp
  | @some a q h =>
    simp only [Option.mem_some_iff, exists_eq_left']
    constructor
    · intro heq
      rw [← heq, h.2, Option.some.injEq] at hr
      exact hr
    · intro heq
      rw [← Reading.content_of_ofContent hr, ← Reading.content_of_ofContent h.2, heq]

theorem readInt_protocol (p : Received F) : p.packet.readInt 2 =
    .ok (gather 32 (p.packet.content.take 2), p.packet.seek (min 2 p.packet.bufferBits)) := by
  have hread := RxPacket.readInt_content p.whole (Nat.zero_le _) (show 2 ≤ 32 by decide)
  rw [List.drop_zero, Nat.zero_add] at hread
  have hseek : p.packet.seek 0 = p.packet := by rw [RxPacket.seek, ← p.start]
  rwa [hseek] at hread

theorem storePacket_of_none {p : Received F} {d : Daemon F} (hd : Keeps ops l d)
    (hnone : p.measurement = none) :
    ∃ text, d.storePacket alloc ops p.packet = .ok (d.fprintf text) := by
  rw [Received.measurement, Option.map_eq_none_iff] at hnone
  rw [Daemon.storePacket, readInt_protocol]
  change ∃ text, (if (gather 32 (p.packet.content.take 2)).toInt = 0 then _ else _) = _
  by_cases hprotocol : (gather 32 (p.packet.content.take 2)).toInt = 0
  · have hnew : ¬∃ q ∈ d.previousPacket, q.content = p.packet.content := by
      rintro ⟨q, hq, heq⟩
      obtain ⟨r, hr⟩ := (hd.of_previous q hq).2
      rw [heq, hnone] at hr
      cases hr
    have hlength : p.packet.bufferBits ≠ 47 := by
      intro hlength
      rw [Reading.ofContent, RxPacket.length_content,
        if_pos ⟨hlength, (protocol_eq_zero_iff _).mp hprotocol⟩] at hnone
      cases hnone
    rw [if_pos hprotocol]
    exact storePacketTherm0_of_length hd.whole (p.whole.seek _) hnew hlength
  · exact ⟨_, if_neg hprotocol⟩

theorem storePacket_of_reading {p : Received F} {d : Daemon F} {r : Reading}
    (hr : Reading.ofContent p.packet.content = some r) :
    d.storePacket alloc ops p.packet = d.storePacketTherm0 alloc ops (p.packet.seek 2) := by
  rw [Reading.ofContent, RxPacket.length_content] at hr
  split at hr
  · rename_i hvalid
    have hmin : min 2 p.packet.bufferBits = 2 := Nat.min_eq_left (by omega)
    rw [Daemon.storePacket, readInt_protocol, hmin]
    exact if_pos ((protocol_eq_zero_iff _).mpr hvalid.2)
  · cases hr

theorem storePacket_keeps (p : Received F) {d : Daemon F} (hd : Keeps ops l d) :
    Yields (fun _ => False) (Keeps ops (l ++ [p])) (d.storePacket alloc ops p.packet) := by
  cases hmeasurement : p.measurement with
  | none =>
    obtain ⟨text, htext⟩ := storePacket_of_none alloc hd hmeasurement
    rw [htext]
    refine ⟨?_, ?_⟩
    · rw [records, accepted_of_none hmeasurement]
      exact hd.stored
    · rw [accepted_of_none hmeasurement]
      exact hd.previous
  | some m =>
    obtain ⟨r, hr, rfl⟩ := Option.map_eq_some_iff.mp hmeasurement
    have hrepeats := hd.repeats_iff hr
    rw [storePacket_of_reading alloc hr]
    by_cases hrepeat : ∃ q ∈ d.previousPacket, q.content = p.packet.content
    · obtain ⟨a, ha, hsame⟩ := hrepeats.mp hrepeat
      have haccepted := accepted_of_repeat hmeasurement ha hsame
      rw [storePacketTherm0_of_repeat hd.whole (p.whole.seek 2) hrepeat]
      refine ⟨?_, ?_⟩
      · rw [records, haccepted]
        exact hd.stored
      · rw [haccepted]
        exact hd.previous
    · have hne : ∀ a ∈ (accepted l).getLast?, a.reading ≠ r :=
        fun a ha hsame => hrepeat (hrepeats.mpr ⟨a, ha, hsame⟩)
      rw [storePacketTherm0_of_reading hd.whole p.whole hrepeat hr]
      refine ⟨?_, ?_⟩
      · rw [records_of_ne hmeasurement hne, ← hd.stored]
        by_cases hcount : r.count = 0
        · rw [if_pos hcount, if_pos hcount]
        · rw [if_neg hcount, if_neg hcount]
          rfl
      · rw [accepted_of_ne hmeasurement hne, List.getLast?_concat]
        exact .some ⟨p.whole.seek 47, hr⟩

theorem receiverRead_received (ops : Floats F) (x : Transfer) (h : 6 ≤ x.count)
    (hbits : x.bits ≤ 8 * (x.count - 6)) :
    ∃ p : Received F, receiverRead alloc ops x.buffer x.count = .ok (some p.packet) ∧
      p.packet.content = firstBits (x.buffer.drop 6) x.bits := by
  obtain ⟨p, hp, hbytes, hpbits, hstart, hbuffer⟩ := receiverRead_of_le alloc ops h
  have hle := x.le
  have hlength : p.buffer.length = x.count - 6 := by
    rw [hbuffer, List.length_take, List.length_drop, x.length_eq]
    omega
  have hwhole : p.Whole := ⟨by omega, by omega, by omega⟩
  refine ⟨⟨p, hwhole, hstart⟩, hp, ?_⟩
  change firstBits p.buffer p.bufferBits = _
  rw [hpbits, hbuffer, firstBits_take _ hbits]

/-- What is stored are the records of the packets, with the values that went out. -/
theorem measurements_stored_once (ops : Floats F) (l : List (Received F)) :
    (∃ d, l.foldlM (fun d p => Daemon.storePacket alloc ops p.packet d) .start = .ok d ∧
      d.stored = records ops l) ∧
    ∀ (timer : List Bool → Bool) (regs : Registers) (t : Transmitter),
      (t.txPacketProto0 timer regs).sent = (t.txPacket timer regs.reading.content).sent ∧
        Reading.ofContent regs.reading.content = some regs.reading := by
  constructor
  · have hstart : Keeps ops [] Daemon.start := ⟨rfl, .none⟩
    have hrun := Yields.foldlM (f := fun d p => Daemon.storePacket alloc ops p.packet d) (l := l)
      hstart fun p _ done d hd => storePacket_keeps alloc p hd
    obtain ⟨d, hd, hkeeps⟩ := hrun.exists_ok fun _ => id
    exact ⟨d, hd, hkeeps.stored⟩
  · intro timer regs t
    exact ⟨t.txPacketProto0_sent timer regs, regs.reading.ofContent_content⟩

end Run

end NaviMisc.Therm
