import NaviMisc.SpiMemEmulator.PacketPort

/-!
The serial port of the board (serial.v and the flip-flops of util.v), one clock a step. The values
that are left open there (`8'hXX`) come with the clock.
-/

namespace NaviMisc.SpiMemEmulator

structure SerialBrg where
  delta : BitVec 5
  div4 : BitVec 2
  baudX4 : Bool
  baudX1 : Bool

namespace SerialBrg

def reset : SerialBrg := ⟨0, 0, false, false⟩

def deltaP (r : SerialBrg) : BitVec 5 := r.delta + 6

def deltaM (r : SerialBrg) : BitVec 6 := r.deltaP.setWidth 6 - 25

def underflow (r : SerialBrg) : Bool := r.deltaM.msb

def clock (r : SerialBrg) : SerialBrg where
  delta := if r.underflow then r.deltaP else r.deltaM.setWidth 5
  div4 := if r.baudX4 then r.div4 + 1 else r.div4
  baudX4 := !r.underflow
  baudX1 := r.baudX4 && r.div4 == 3

end SerialBrg

structure SerialUartTx where
  shiftreg : BitVec 10
  serialR : Bool

namespace SerialUartTx

def reset : SerialUartTx := ⟨0, false⟩

def ready (r : SerialUartTx) : Bool := r.shiftreg == 0

def serial (r : SerialUartTx) : Bool := !r.serialR

def clock (baudX1 : Bool) (data : Byte) (dataStrobe : Bool) (r : SerialUartTx) : SerialUartTx :=
  if dataStrobe then
    { r with shiftreg := 1#1 ++ data ++ 0#1 }
  else if baudX1 then {
    shiftreg := r.shiftreg >>> 1
    serialR := if r.ready then false else !r.shiftreg.getLsbD 0 }
  else r

end SerialUartTx

structure DFlipflopPair where
  intermediate : Bool
  dOut : Bool

namespace DFlipflopPair

def reset : DFlipflopPair := ⟨false, false⟩

def clock (dIn : Bool) (r : DFlipflopPair) : DFlipflopPair := ⟨dIn, r.intermediate⟩

end DFlipflopPair

/-- The shift register is not reset. -/
structure SerialUartRx where
  inputDff : DFlipflopPair
  shiftreg : BitVec 9
  state : BitVec 6
  dataStrobe : Bool

namespace SerialUartRx

def reset (shiftreg : BitVec 9) : SerialUartRx := ⟨.reset, shiftreg, 0, false⟩

def serialSync (r : SerialUartRx) : Bool := r.inputDff.dOut

def bitCount (r : SerialUartRx) : BitVec 4 := r.state.extractLsb' 2 4

def bitPhase (r : SerialUartRx) : BitVec 2 := r.state.extractLsb' 0 2

def samplingPhase (r : SerialUartRx) : Bool := r.bitPhase == 1

def startBit (r : SerialUartRx) : Bool := r.bitCount == 0 && r.samplingPhase

def stopBit (r : SerialUartRx) : Bool := r.bitCount == 9 && r.samplingPhase

def waitingForStart (r : SerialUartRx) : Bool := r.state == 0 && r.serialSync

def error (r : SerialUartRx) : Bool := r.startBit && r.serialSync || r.stopBit && !r.serialSync

def data (r : SerialUartRx) : Byte := r.shiftreg.setWidth 8

def clock (baudX4 serial : Bool) (r : SerialUartRx) : SerialUartRx :=
  let r' := { r with inputDff := r.inputDff.clock serial }
  if baudX4 then { r' with
    state := if r.waitingForStart || r.error || r.stopBit then 0 else r.state + 1
    shiftreg :=
      if r.bitPhase == 1 then BitVec.ofBool r.serialSync ++ r.shiftreg.extractLsb' 1 8
      else r.shiftreg
    dataStrobe := r.stopBit && !r.error }
  else { r' with dataStrobe := false }

end SerialUartRx

structure SerialEscape where
  uData : Byte
  uDataStrobe : Bool
  hReady : Bool
  stuffEn : Bool
  stuffByte : Byte

namespace SerialEscape

def reset : SerialEscape := ⟨0, false, false, false, 0⟩

def clock (x x' : Byte) (uReady : Bool) (hData : Byte) (hDataStrobe hFlag : Bool)
    (r : SerialEscape) : SerialEscape :=
  if !uReady then { r with uDataStrobe := false, hReady := false }
  else if r.uDataStrobe then { r with uDataStrobe := false, hReady := false }
  else if r.stuffEn then ⟨r.stuffByte, true, false, false, x'⟩
  else if hFlag then ⟨FLAG, true, false, false, x'⟩
  else if hDataStrobe then
    if hData == FLAG || hData == ESCAPE then ⟨ESCAPE, true, false, true, hData ^^^ ESC_XOR⟩
    else ⟨hData, true, false, false, x'⟩
  else ⟨x, false, true, false, x'⟩

end SerialEscape

structure SerialUnescape where
  hData : Byte
  hDataStrobe : Bool
  hFlag : Bool
  escState : Bool

namespace SerialUnescape

def reset : SerialUnescape := ⟨0, false, false, false⟩

def clock (x uData : Byte) (uDataStrobe : Bool) (r : SerialUnescape) : SerialUnescape :=
  if !uDataStrobe then { r with hData := x, hDataStrobe := false, hFlag := false }
  else if uData == FLAG then ⟨x, false, true, false⟩
  else if uData == ESCAPE then ⟨x, false, false, true⟩
  else if r.escState then ⟨uData ^^^ ESC_XOR, true, false, false⟩
  else ⟨uData, true, false, false⟩

end SerialUnescape

structure SerialEscapedUart where
  brg : SerialBrg
  uartTx : SerialUartTx
  uartRx : SerialUartRx
  escape : SerialEscape
  unescape : SerialUnescape

structure UartInput where
  rxd : Bool
  txData : Byte
  txDataStrobe : Bool
  txFlag : Bool
  x : Byte
  x' : Byte
  x'' : Byte

namespace SerialEscapedUart

def reset (shiftreg : BitVec 9) : SerialEscapedUart :=
  ⟨.reset, .reset, .reset shiftreg, .reset, .reset⟩

def txd (r : SerialEscapedUart) : Bool := r.uartTx.serial

def txReady (r : SerialEscapedUart) : Bool := r.escape.hReady

def clock (i : UartInput) (r : SerialEscapedUart) : SerialEscapedUart where
  brg := r.brg.clock
  uartTx := r.uartTx.clock r.brg.baudX1 r.escape.uData r.escape.uDataStrobe
  uartRx := r.uartRx.clock r.brg.baudX4 i.rxd
  escape := r.escape.clock i.x i.x' r.uartTx.ready i.txData i.txDataStrobe i.txFlag
  unescape := r.unescape.clock i.x'' r.uartRx.data r.uartRx.dataStrobe

end SerialEscapedUart

end NaviMisc.SpiMemEmulator
