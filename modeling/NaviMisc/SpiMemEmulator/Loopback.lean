import NaviMisc.SpiMemEmulator.PacketStream
import NaviMisc.SpiMemEmulator.UartLink

/-!
The serial port of the board with its transmitter wired to its receiver.
-/

namespace NaviMisc.SpiMemEmulator

open NaviMisc.Lib.ByteStuffing

namespace SerialEscape

def encoded : Symbol Byte → List Byte
  | .flag => [FLAG]
  | .data a => stuffing.stuff a

theorem decode_encoded (symbols : List (Symbol Byte)) :
    stuffing.decode false (symbols.flatMap encoded) = symbols ∧
      stuffing.escaped false (symbols.flatMap encoded) = false := by
  induction symbols with
  | nil => exact ⟨rfl, rfl⟩
  | cons symbol symbols ih =>
    have hsymbol : stuffing.decode false (encoded symbol) = [symbol] ∧
        stuffing.escaped false (encoded symbol) = false := by
      cases symbol with
      | flag => exact ⟨rfl, rfl⟩
      | data a => exact Stuffing.stuff_spec a
    rw [List.flatMap_cons, Stuffing.decode_append, Stuffing.escaped_append, hsymbol.1, hsymbol.2,
      ih.1, ih.2]
    exact ⟨rfl, rfl⟩

structure Offering (uReady : Bool) (r : SerialEscape) : Prop where
  strobe : r.uDataStrobe = true → uReady = true
  ready : r.hReady = true → uReady = true ∧ r.uDataStrobe = false ∧ r.stuffEn = false

def offered (r : SerialEscape) : List Byte :=
  strobed r.uData r.uDataStrobe ++ strobed r.stuffByte r.stuffEn

end SerialEscape

structure LoopInput where
  request : Option (Symbol Byte)
  data : Byte
  x : Byte
  x' : Byte
  x'' : Byte

namespace LoopInput

variable (i : LoopInput)

def txData : Byte :=
  match i.request with
  | some (.data a) => a
  | _ => i.data

def txDataStrobe : Bool :=
  match i.request with
  | some (.data _) => true
  | _ => false

def txFlag : Bool := i.request == some .flag

def uart (rxd : Bool) : UartInput :=
  ⟨rxd, i.txData, i.txDataStrobe, i.txFlag, i.x, i.x', i.x''⟩

end LoopInput

namespace SerialEscape

variable {uReady uReady' : Bool} {r : SerialEscape}

theorem Offering.clock_stalled (h : Offering uReady r) (i : LoopInput)
    (hstalled : uReady = false ∨ r.uDataStrobe = true) (uReady' : Bool) :
    r.hReady = false ∧
      Offering uReady' (r.clock i.x i.x' uReady i.txData i.txDataStrobe i.txFlag) ∧
        offered (r.clock i.x i.x' uReady i.txData i.txDataStrobe i.txFlag) =
          strobed r.stuffByte r.stuffEn := by
  have hclock : r.clock i.x i.x' uReady i.txData i.txDataStrobe i.txFlag =
      { r with uDataStrobe := false, hReady := false } := by
    rw [clock]
    rcases hstalled with hready | hstrobe
    · rw [hready]
      rfl
    · rw [h.strobe hstrobe, hstrobe]
      rfl
  refine ⟨?_, ?_, ?_⟩
  · rw [Bool.eq_false_iff]
    intro hhost
    obtain ⟨hready, hstrobe, -⟩ := h.ready hhost
    rcases hstalled with hnot | hnot
    · exact absurd (hready.symm.trans hnot) Bool.noConfusion
    · exact absurd (hstrobe.symm.trans hnot) Bool.noConfusion
  · rw [hclock]
    exact ⟨(fun hstrobe => by cases hstrobe), (fun hready => by cases hready)⟩
  · rw [hclock]
    rfl

theorem encoded_data (a : Byte) :
    encoded (.data a) = if a == FLAG || a == ESCAPE then [ESCAPE, a ^^^ ESC_XOR] else [a] := by
  rw [encoded, Stuffing.stuff]
  congr 1
  rw [Bool.or_eq_true, beq_iff_eq, beq_iff_eq]
  rfl

theorem clock_request (i : LoopInput) (hstrobe : r.uDataStrobe = false) (hstuff : r.stuffEn = false) :
    offered (r.clock i.x i.x' true i.txData i.txDataStrobe i.txFlag) =
        i.request.toList.flatMap encoded ∧
      ((r.clock i.x i.x' true i.txData i.txDataStrobe i.txFlag).hReady = true →
        (r.clock i.x i.x' true i.txData i.txDataStrobe i.txFlag).uDataStrobe = false ∧
          (r.clock i.x i.x' true i.txData i.txDataStrobe i.txFlag).stuffEn = false) := by
  obtain ⟨request, data, x, x', x''⟩ := i
  rw [clock, hstrobe, hstuff]
  cases request with
  | none => exact ⟨rfl, fun _ => ⟨rfl, rfl⟩⟩
  | some symbol =>
    cases symbol with
    | flag => exact ⟨rfl, fun hready => by cases hready⟩
    | data a =>
      have hflag : ¬(some (Symbol.data a) == some Symbol.flag) = true := by simp
      rw [LoopInput.txFlag, if_neg hflag, Option.toList_some, List.flatMap_singleton, encoded_data]
      by_cases hspecial : (a == FLAG || a == ESCAPE) = true
      · simp [LoopInput.txData, LoopInput.txDataStrobe, hspecial, offered, strobed]
      · simp [LoopInput.txData, LoopInput.txDataStrobe, hspecial, offered, strobed]

theorem Offering.clock (h : Offering uReady r) (i : LoopInput)
    (hrequest : i.request.isSome → r.hReady = true)
    (huReady : uReady = true → r.uDataStrobe = false → uReady' = true) :
    Offering uReady' (r.clock i.x i.x' uReady i.txData i.txDataStrobe i.txFlag) ∧
      offered (r.clock i.x i.x' uReady i.txData i.txDataStrobe i.txFlag) =
        strobed r.stuffByte r.stuffEn ++ i.request.toList.flatMap encoded := by
  have hnone : r.hReady = false → i.request = none := by
    intro hhost
    rw [← Option.not_isSome_iff_eq_none]
    intro hsome
    exact absurd (hhost.symm.trans (hrequest hsome)) Bool.noConfusion
  by_cases hstalled : uReady = false ∨ r.uDataStrobe = true
  · obtain ⟨hhost, hoffering, hoffered⟩ := h.clock_stalled i hstalled uReady'
    rw [hnone hhost, hoffered]
    exact ⟨hoffering, (List.append_nil _).symm⟩
  · rw [not_or, Bool.not_eq_false, Bool.not_eq_true] at hstalled
    obtain ⟨hready, hstrobe⟩ := hstalled
    have hready' := huReady hready hstrobe
    rw [hready]
    by_cases hstuff : r.stuffEn = true
    · have hhost : r.hReady = false := by
        rw [Bool.eq_false_iff]
        intro hhost
        exact absurd (hstuff.symm.trans (h.ready hhost).2.2) Bool.noConfusion
      rw [hnone hhost, SerialEscape.clock, hstrobe, hstuff]
      exact ⟨⟨fun _ => hready', fun hready => by cases hready⟩, rfl⟩
    · rw [Bool.not_eq_true] at hstuff
      obtain ⟨hoffered, hidle⟩ := clock_request i hstrobe hstuff
      rw [hoffered, hstuff]
      exact ⟨⟨fun _ => hready', fun hready => ⟨hready', hidle hready⟩⟩, rfl⟩

end SerialEscape

namespace SerialEscapedUart

def loop (i : LoopInput) (r : SerialEscapedUart) : SerialEscapedUart := r.clock (i.uart r.txd)

def Allowed : List LoopInput → SerialEscapedUart → Prop
  | [], _ => True
  | i :: inputs, r => (i.request.isSome → r.txReady = true) ∧ Allowed inputs (r.loop i)

def requests (inputs : List LoopInput) : List (Symbol Byte) := inputs.filterMap LoopInput.request

/-- What the receiver emits (`rx_data` with its strobe, and `rx_flag`). -/
def emitted : List LoopInput → SerialEscapedUart → List (Symbol Byte)
  | [], _ => []
  | i :: inputs, r => (r.loop i).unescape.symbol.toList ++ emitted inputs (r.loop i)

def received : List LoopInput → SerialEscapedUart → List Byte
  | [], _ => []
  | i :: inputs, r => strobed r.uartRx.data r.uartRx.dataStrobe ++ received inputs (r.loop i)

theorem emitted_eq (inputs : List LoopInput) (r : SerialEscapedUart) :
    emitted inputs r = stuffing.decode r.unescape.escState (received inputs r) := by
  induction inputs generalizing r with
  | nil => rfl
  | cons i inputs ih =>
    rw [emitted, received, ih, Stuffing.decode_append]
    have hunescape : (r.loop i).unescape =
        r.unescape.clock i.x'' r.uartRx.data r.uartRx.dataStrobe := rfl
    rw [hunescape]
    cases r.uartRx.dataStrobe with
    | false => rfl
    | true =>
      have hstep := SerialUnescape.clock_strobed i.x'' r.uartRx.data r.unescape
      have hone : stuffing.decode r.unescape.escState [r.uartRx.data] =
          (stuffing.step r.unescape.escState r.uartRx.data).1.toList := List.append_nil _
      have hescaped : stuffing.escaped r.unescape.escState [r.uartRx.data] =
          (stuffing.step r.unescape.escState r.uartRx.data).2 := rfl
      rw [strobed, if_pos rfl, hone, hescaped, ← hstep]

def pending (line : Option (Byte × ℕ)) (loaded : Option Byte) (r : SerialEscapedUart) : List Byte :=
  strobed r.uartRx.data r.uartRx.dataStrobe ++ underway line loaded ++ r.escape.offered

structure Looped (line : Option (Byte × ℕ)) (loaded : Option Byte) (r : SerialEscapedUart) :
    Prop where
  linked : Linked line loaded r.brg r.uartTx r.uartRx
  offering : r.escape.Offering r.uartTx.ready

def delay (line : Option (Byte × ℕ)) (loaded : Option Byte) (r : SerialEscapedUart) : ℕ :=
  if r.uartRx.dataStrobe then 0
  else if underway line loaded ≠ [] then 1 + remaining line r.brg
  else if r.escape.uDataStrobe then 340 else 341

theorem delay_lt (line : Option (Byte × ℕ)) (loaded : Option Byte) (r : SerialEscapedUart) :
    delay line loaded r ≤ 341 ∧ (r.escape.uDataStrobe = true → delay line loaded r ≤ 340) ∧
      (underway line loaded ≠ [] → delay line loaded r < 340) := by
  have hticks := SerialBrg.ticks_le r.brg
  have hwait := SerialBrg.wait_le r.brg
  have hremaining : remaining line r.brg ≤ 329 := by
    have hbits : (line.map fun p => 9 - p.2).getD 10 ≤ 10 := by
      cases line with
      | none => exact Nat.le_refl 10
      | some p => exact Nat.le_trans (Nat.sub_le 9 p.2) (Nat.le_succ 9)
    rw [remaining]
    omega
  rw [delay]
  refine ⟨?_, ?_, ?_⟩
  · split_ifs <;> omega
  · intro hstrobe
    rw [if_pos hstrobe]
    split_ifs <;> omega
  · intro hne
    rw [if_pos hne]
    split_ifs <;> omega

variable {line : Option (Byte × ℕ)} {loaded : Option Byte} {r : SerialEscapedUart}

theorem ready_clock (r : SerialEscapedUart) (i : LoopInput) (hready : r.uartTx.ready = true)
    (hstrobe : r.escape.uDataStrobe = false) : (r.loop i).uartTx.ready = true := by
  have hzero : r.uartTx.shiftreg = 0 := eq_of_beq hready
  change (r.uartTx.clock r.brg.baudX1 r.escape.uData r.escape.uDataStrobe).ready = true
  rw [hstrobe, SerialUartTx.clock, if_neg Bool.false_ne_true]
  split_ifs
  · rw [SerialUartTx.ready, hzero]
    rfl
  · exact hready

theorem Looped.stuff (h : Looped line loaded r) (hempty : underway line loaded = [])
    (hstrobe : r.escape.uDataStrobe = false) (hstuff : r.escape.stuffEn = true) (i : LoopInput) :
    (r.loop i).escape.uDataStrobe = true := by
  obtain ⟨hline, hloaded⟩ := List.append_eq_nil_iff.mp hempty
  rw [Option.toList_eq_nil_iff, Option.map_eq_none_iff] at hline
  rw [Option.toList_eq_nil_iff] at hloaded
  subst hline hloaded
  have hready : r.uartTx.ready = true :=
    h.linked.sending.ready_iff.mpr ⟨rfl, fun p hp => absurd hp (Option.not_mem_none p)⟩
  change (r.escape.clock i.x i.x' r.uartTx.ready i.txData i.txDataStrobe i.txFlag).uDataStrobe = true
  rw [SerialEscape.clock, hready, hstrobe, hstuff]
  rfl

theorem Looped.loop (h : Looped line loaded r) (i : LoopInput)
    (hrequest : i.request.isSome → r.txReady = true) :
    ∃ line' loaded', Looped line' loaded' (r.loop i) ∧
      strobed r.uartRx.data r.uartRx.dataStrobe ++ pending line' loaded' (r.loop i) =
          pending line loaded r ++ i.request.toList.flatMap SerialEscape.encoded ∧
        (pending line loaded r ≠ [] → r.uartRx.dataStrobe = false →
          delay line' loaded' (r.loop i) < delay line loaded r) := by
  obtain ⟨line', loaded', hlinked, hbytes, hremaining⟩ :=
    h.linked.clock r.escape.uData h.offering.strobe
  obtain ⟨hoffering, hoffered⟩ := h.offering.clock i hrequest (ready_clock r i)
  refine ⟨line', loaded', ⟨hlinked, hoffering⟩, ?_, ?_⟩
  · rw [pending, pending]
    change _ ++ (_ ++ SerialEscape.offered
      (r.escape.clock i.x i.x' r.uartTx.ready i.txData i.txDataStrobe i.txFlag)) = _
    rw [hoffered]
    change _ ++ (strobed (r.uartRx.clock r.brg.baudX4 r.uartTx.serial).data
      (r.uartRx.clock r.brg.baudX4 r.uartTx.serial).dataStrobe ++ underway line' loaded' ++ _) = _
    rw [hbytes]
    simp only [List.append_assoc, SerialEscape.offered]
  · intro hpending hidle
    change strobed _ (r.loop i).uartRx.dataStrobe ++ _ = _ at hbytes
    change _ → (r.loop i).uartRx.dataStrobe = true ∨ remaining line' (r.loop i).brg < _ at hremaining
    obtain ⟨hle, hoffer, hsent⟩ := delay_lt line' loaded' (r.loop i)
    have hnext : underway line loaded ++ strobed r.escape.uData r.escape.uDataStrobe ≠ [] →
        (r.loop i).uartRx.dataStrobe = true ∨ underway line' loaded' ≠ [] := by
      intro hne
      rw [← hbytes] at hne
      rw [or_iff_not_imp_left]
      intro hnot hnil
      rw [hnil, List.append_nil, strobed, if_neg hnot] at hne
      exact hne rfl
    by_cases hempty : underway line loaded = []
    · have hdelay : delay line loaded r = if r.escape.uDataStrobe then 340 else 341 := by
        rw [delay, hidle, if_neg Bool.false_ne_true, if_neg (not_not_intro hempty)]
      rw [hdelay]
      by_cases hstrobe : r.escape.uDataStrobe = true
      · rw [if_pos hstrobe]
        rcases hnext (by rw [hempty, hstrobe]; exact List.cons_ne_nil _ _) with hdone | hne
        · rw [delay, if_pos hdone]
          omega
        · exact hsent hne
      · rw [if_neg hstrobe]
        have hstuff : r.escape.stuffEn = true := by
          by_contra hstuff
          rw [pending, SerialEscape.offered, hidle, hempty, strobed, strobed, strobed,
            if_neg hstrobe, if_neg hstuff] at hpending
          exact hpending rfl
        have hstrobe' := h.stuff hempty (Bool.eq_false_iff.mpr hstrobe) hstuff i
        have hlt := hoffer hstrobe'
        omega
    · have hdelay : delay line loaded r = 1 + remaining line r.brg := by
        rw [delay, hidle, if_neg Bool.false_ne_true, if_pos hempty]
      rw [hdelay]
      by_cases hdone : (r.loop i).uartRx.dataStrobe = true
      · rw [delay, if_pos hdone]
        omega
      · have hlt := (hremaining hempty).resolve_left hdone
        have hne := (hnext (List.append_ne_nil_of_left_ne_nil hempty _)).resolve_left hdone
        rw [delay, if_neg hdone, if_pos hne]
        omega

theorem Looped.received_spec (h : Looped line loaded r) (inputs : List LoopInput)
    (hallowed : Allowed inputs r) :
    ∃ line' loaded' r', Looped line' loaded' r' ∧
      received inputs r ++ pending line' loaded' r' =
        pending line loaded r ++ (requests inputs).flatMap SerialEscape.encoded ∧
      ∀ more, received (inputs ++ more) r = received inputs r ++ received more r' ∧
        (Allowed (inputs ++ more) r → Allowed more r') := by
  induction inputs generalizing line loaded r with
  | nil =>
    refine ⟨line, loaded, r, h, ?_, fun more => ⟨rfl, id⟩⟩
    exact (List.append_nil _).symm
  | cons i inputs ih =>
    obtain ⟨line', loaded', hloop, hbytes, -⟩ := h.loop i hallowed.1
    obtain ⟨line'', loaded'', r', hlooped, hreceived, hmore⟩ := ih hloop hallowed.2
    refine ⟨line'', loaded'', r', hlooped, ?_, fun more => ⟨?_, fun hall => ?_⟩⟩
    · have hrequests : requests (i :: inputs) = i.request.toList ++ requests inputs := by
        rw [requests, List.filterMap_cons]
        cases i.request <;> rfl
      rw [received, List.append_assoc, hreceived, ← List.append_assoc, hbytes, hrequests,
        List.flatMap_append, List.append_assoc]
    · rw [List.cons_append, received, (hmore more).1, ← List.append_assoc]
      rfl
    · exact (hmore more).2 hall.2

theorem Looped.length_received (h : Looped line loaded r) (inputs : List LoopInput)
    (hallowed : Allowed inputs r) {n : ℕ} (hn : n ≤ (pending line loaded r).length)
    (hlong : n = 0 ∨ 342 * (n - 1) + delay line loaded r < inputs.length) :
    n ≤ (received inputs r).length := by
  induction inputs generalizing line loaded r n with
  | nil =>
    rcases hlong with rfl | hlt
    · exact Nat.zero_le _
    · exact absurd hlt (Nat.not_lt_zero _)
  | cons i inputs ih =>
    rcases hlong with rfl | hlt
    · exact Nat.zero_le _
    obtain ⟨line', loaded', hloop, hbytes, hdelay⟩ := h.loop i hallowed.1
    have hlength := congrArg List.length hbytes
    rw [List.length_append, List.length_append] at hlength
    rw [received, List.length_append]
    rw [List.length_cons] at hlt
    have hbound := (delay_lt line' loaded' (r.loop i)).1
    by_cases hidle : r.uartRx.dataStrobe = true
    · have hone : (strobed r.uartRx.data r.uartRx.dataStrobe).length = 1 := by
        rw [hidle]
        rfl
      have hrest := ih hloop hallowed.2 (n := n - 1) (by omega) (by omega)
      omega
    · rw [Bool.not_eq_true] at hidle
      by_cases hzero : n = 0
      · omega
      · have hne : pending line loaded r ≠ [] := by
          intro hnil
          rw [hnil] at hn
          exact hzero (Nat.le_zero.mp hn)
        have hless := hdelay hne hidle
        have hnone : (strobed r.uartRx.data r.uartRx.dataStrobe).length = 0 := by
          rw [hidle]
          rfl
        have hrest := ih hloop hallowed.2 (n := n) (by omega) (by omega)
        omega

theorem looped_reset (shiftreg : BitVec 9) : Looped none none (reset shiftreg) where
  linked := Linked.start shiftreg
  offering := ⟨(fun hstrobe => by cases hstrobe), (fun hready => by cases hready)⟩

theorem length_pending (line : Option (Byte × ℕ)) (loaded : Option Byte) (r : SerialEscapedUart) :
    (pending line loaded r).length ≤ 5 := by
  have hstrobed : ∀ data dataStrobe, (strobed data dataStrobe).length ≤ 1 := by
    intro data dataStrobe
    rw [strobed]
    split_ifs
    · exact Nat.le_refl 1
    · exact Nat.zero_le 1
  have honce : ∀ o : Option Byte, o.toList.length ≤ 1 := by
    intro o
    cases o
    · exact Nat.zero_le 1
    · exact Nat.le_refl 1
  have hline := honce (line.map Prod.fst)
  have hloaded := honce loaded
  have hrx := hstrobed r.uartRx.data r.uartRx.dataStrobe
  have hdata := hstrobed r.escape.uData r.escape.uDataStrobe
  have hstuff := hstrobed r.escape.stuffByte r.escape.stuffEn
  simp only [pending, underway, SerialEscape.offered, List.length_append]
  omega

/-- The receiver emits what is requested, in order, and all of it in time. -/
theorem loopback (shiftreg : BitVec 9) (inputs : List LoopInput)
    (hallowed : Allowed inputs (reset shiftreg)) :
    emitted inputs (reset shiftreg) <+: requests inputs ∧
      ∀ more, Allowed (inputs ++ more) (reset shiftreg) → 5 * 342 ≤ more.length →
        requests inputs <+: emitted (inputs ++ more) (reset shiftreg) := by
  obtain ⟨line, loaded, r, hlooped, hreceived, hmore⟩ :=
    (looped_reset shiftreg).received_spec inputs hallowed
  have hbytes : received inputs (reset shiftreg) ++ pending line loaded r =
      (requests inputs).flatMap SerialEscape.encoded := hreceived
  have hrequests : requests inputs =
      stuffing.decode false (received inputs (reset shiftreg) ++ pending line loaded r) := by
    rw [hbytes, (SerialEscape.decode_encoded _).1]
  refine ⟨?_, ?_⟩
  · rw [hrequests, emitted_eq, Stuffing.decode_append]
    exact List.prefix_append _ _
  · intro more hall hlong
    obtain ⟨line', loaded', r', -, hreceived', -⟩ :=
      hlooped.received_spec more ((hmore more).2 hall)
    have hdelay := (delay_lt line loaded r).1
    have hfive := length_pending line loaded r
    have henough := hlooped.length_received more ((hmore more).2 hall) (Nat.le_refl _)
      (or_iff_not_imp_left.mpr fun hzero => by omega)
    have hpending : pending line loaded r <+: received more r :=
      List.prefix_of_prefix_length_le (List.prefix_append _ _)
        (hreceived' ▸ List.prefix_append _ _) henough
    obtain ⟨rest, hrest⟩ := hpending
    have hstate : (reset shiftreg).unescape.escState = false := rfl
    rw [hrequests, emitted_eq, hstate, (hmore more).1, ← hrest, ← List.append_assoc,
      Stuffing.decode_append false _ rest]
    exact List.prefix_append _ _

theorem loopback_flag :
    emitted [⟨none, 0, 0, 0, 0⟩, ⟨none, 0, 0, 0, 0⟩, ⟨some .flag, 0, 0, 0, 0⟩] (reset 0) <+: [.flag] := by
  apply (loopback 0 _ _).1
  refine ⟨fun h => ?_, fun h => ?_, fun _ => ?_, trivial⟩
  · cases h
  · cases h
  · decide

end SerialEscapedUart

end NaviMisc.SpiMemEmulator
