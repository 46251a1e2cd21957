import NaviMisc.SpiMemEmulator.Client
import NaviMisc.SpiMemEmulator.Serial

/-!
The emulator of an SPI memory (spi_mem_emu.v) on a memory, with the master of the bus. Values that
are left open there come with the clock.
-/

namespace NaviMisc.SpiMemEmulator

structure SpiShift where
  bitCount : BitVec 3
  misoReg : Byte
  mosiReg : Byte
  misoOut : Bool
  byteStrobe : Bool

namespace SpiShift

def reset : SpiShift := ⟨0, 0xff, 0, true, false⟩

def clock (cs posedge negedge mosi loadStrobe : Bool) (loadData : Byte) (r : SpiShift) : SpiShift :=
  if cs then reset
  else if posedge then { r with
    bitCount := r.bitCount + 1
    mosiReg := r.mosiReg.shiftConcat mosi
    byteStrobe := r.bitCount == 7 }
  else if negedge then { r with
    misoReg := r.misoReg.shiftConcat true
    misoOut := r.misoReg.msb
    byteStrobe := false }
  else if loadStrobe then { r with misoReg := loadData, byteStrobe := false }
  else { r with byteStrobe := false }

end SpiShift

def I_WRSR : Byte := 0x01

def I_WRITE : Byte := 0x02

def I_READ : Byte := 0x03

def I_WRDI : Byte := 0x04

def I_RDSR : Byte := 0x05

def I_WREN : Byte := 0x06

def I_WRITE20 : Byte := 0xa0

def I_READ20 : Byte := 0xb0

inductive SpiState
  | waitForCmd
  | cmdWriteAddr1
  | cmdReadAddr1
  | cmdRdsr
  | done
  | cmdWriteAddr2
  | cmdWriteData
  | cmdReadAddr2
  | cmdReadData
  deriving DecidableEq

def highNybble (c : Byte) : BitVec 4 := c.extractLsb' 4 4

def SpiState.ofCmd (c : Byte) : SpiState :=
  if c = I_WRSR then .done
  else if c = I_WRITE then .cmdWriteAddr1
  else if c = I_READ then .cmdReadAddr1
  else if c = I_WRDI then .done
  else if c = I_RDSR then .cmdRdsr
  else if c = I_WREN then .done
  else if highNybble c = highNybble I_READ20 then .cmdReadAddr1
  else if highNybble c = highNybble I_WRITE20 then .cmdWriteAddr1
  else .done

def initialAddress (c : Byte) : BitVec 20 :=
  if highNybble c = highNybble I_READ20 ∨ highNybble c = highNybble I_WRITE20 then
    c.extractLsb' 0 4 ++ 0#16
  else 0

def statusReg (writeEnable : Bool) : Byte := if writeEnable then 2 else 0

def withAddr1 (address : BitVec 20) (c : Byte) : BitVec 20 :=
  address.extractLsb' 16 4 ++ c ++ address.extractLsb' 0 8

def withAddr2 (address : BitVec 20) (c : Byte) : BitVec 20 := address.extractLsb' 8 12 ++ c

structure SpiMachine where
  state : SpiState
  misoLoadStrobe : Bool
  misoLoadData : Byte
  memBeginWr : Bool
  memBeginRd : Bool
  memAddr : BitVec 20
  memDataWr : Byte
  writeEnable : Bool

namespace SpiMachine

def reset : SpiMachine := ⟨.waitForCmd, true, 0xff, false, false, 0, 0, false⟩

def clock (x x' : Byte) (cs byteStrobe : Bool) (mosiReg : Byte) (memFinish : Bool)
    (memDataRd : Byte) (r : SpiMachine) : SpiMachine :=
  if cs then { r with
    state := .waitForCmd, misoLoadStrobe := true, misoLoadData := 0xff
    memBeginWr := false, memBeginRd := false, memDataWr := 0 }
  else
    match r.state with
    | .done => { r with
        misoLoadStrobe := true, misoLoadData := 0xff
        memBeginWr := false, memBeginRd := false, memDataWr := x' }
    | .waitForCmd => {
        state := if byteStrobe then .ofCmd mosiReg else .waitForCmd
        memAddr := if byteStrobe then initialAddress mosiReg else r.memAddr
        writeEnable :=
          if byteStrobe && mosiReg == I_WREN then true
          else if byteStrobe && mosiReg == I_WRDI then false
          else r.writeEnable
        misoLoadStrobe := byteStrobe && mosiReg == I_RDSR
        misoLoadData := if byteStrobe && mosiReg == I_RDSR then statusReg r.writeEnable else x
        memBeginWr := false, memBeginRd := false, memDataWr := x' }
    | .cmdRdsr => { r with
        misoLoadStrobe := byteStrobe
        misoLoadData := if byteStrobe then statusReg r.writeEnable else x
        memBeginWr := false, memBeginRd := false, memDataWr := x' }
    | .cmdWriteAddr1 => { r with
        memAddr := if byteStrobe then withAddr1 r.memAddr mosiReg else r.memAddr
        state := if byteStrobe then .cmdWriteAddr2 else .cmdWriteAddr1
        misoLoadStrobe := false, misoLoadData := x
        memBeginWr := false, memBeginRd := false, memDataWr := x' }
    | .cmdWriteAddr2 => { r with
        memAddr := if byteStrobe then withAddr2 r.memAddr mosiReg - 1 else r.memAddr
        state := if byteStrobe then .cmdWriteData else .cmdWriteAddr2
        misoLoadStrobe := false, misoLoadData := x
        memBeginWr := false, memBeginRd := false, memDataWr := x' }
    | .cmdReadAddr1 => { r with
        memAddr := if byteStrobe then withAddr1 r.memAddr mosiReg else r.memAddr
        state := if byteStrobe then .cmdReadAddr2 else .cmdReadAddr1
        misoLoadStrobe := false, misoLoadData := x
        memBeginWr := false, memBeginRd := false, memDataWr := x' }
    | .cmdReadAddr2 => { r with
        memAddr := if byteStrobe then withAddr2 r.memAddr mosiReg else r.memAddr
        memBeginRd := byteStrobe
        state := if byteStrobe then .cmdReadData else .cmdReadAddr2
        misoLoadStrobe := false, misoLoadData := x
        memBeginWr := false, memDataWr := x' }
    | .cmdWriteData => { r with
        memAddr := if byteStrobe then r.memAddr + 1 else r.memAddr
        memBeginWr := byteStrobe
        memDataWr := if byteStrobe then mosiReg else r.memDataWr
        misoLoadStrobe := false, misoLoadData := x
        memBeginRd := false }
    | .cmdReadData => { r with
        misoLoadStrobe := memFinish
        misoLoadData := if memFinish then memDataRd else x
        memAddr := if byteStrobe then r.memAddr + 1 else r.memAddr
        memBeginRd := byteStrobe
        memBeginWr := false, memDataWr := x' }

end SpiMachine

structure SpiTick where
  spiClk : Bool
  spiMosi : Bool
  spiCs : Bool
  finish : Bool
  x : Byte
  x' : Byte

structure SpiMemEmu where
  spiDffClk : DFlipflopPair
  spiDffMosi : DFlipflopPair
  spiDffCs : DFlipflopPair
  spiClkPrev : Bool
  shift : SpiShift
  machine : SpiMachine

namespace SpiMemEmu

def reset : SpiMemEmu := ⟨.reset, .reset, .reset, false, .reset, .reset⟩

def spiClkPosedge (r : SpiMemEmu) : Bool := r.spiDffClk.dOut && !r.spiClkPrev

def spiClkNegedge (r : SpiMemEmu) : Bool := !r.spiDffClk.dOut && r.spiClkPrev

def spiMiso (spiCs : Bool) (r : SpiMemEmu) : Option Bool :=
  if spiCs then none else some r.shift.misoOut

def clock (t : SpiTick) (memFinish : Bool) (memDataRd : Byte) (r : SpiMemEmu) : SpiMemEmu where
  spiDffClk := r.spiDffClk.clock t.spiClk
  spiDffMosi := r.spiDffMosi.clock t.spiMosi
  spiDffCs := r.spiDffCs.clock t.spiCs
  spiClkPrev := r.spiDffClk.dOut
  shift := r.shift.clock r.spiDffCs.dOut r.spiClkPosedge r.spiClkNegedge r.spiDffMosi.dOut
    r.machine.misoLoadStrobe r.machine.misoLoadData
  machine := r.machine.clock t.x t.x' r.spiDffCs.dOut r.shift.byteStrobe r.shift.mosiReg memFinish
    memDataRd

end SpiMemEmu

inductive MemAccess
  | read (address : BitVec 20)
  | write (address : BitVec 20) (data : Byte)
  deriving DecidableEq

/-- The emulator and a memory that may take any time to read. The master of the bus takes a bit
from it when it raises the clock. -/
structure SpiBoard where
  emu : SpiMemEmu
  content : Content
  reading : Bool
  accesses : List MemAccess
  spiClk : Bool
  samples : List Bool

namespace SpiBoard

def reset (content : Content) : SpiBoard := ⟨.reset, content, false, [], false, []⟩

def begun (r : SpiMachine) : List MemAccess :=
  (if r.memBeginWr then [.write r.memAddr r.memDataWr] else []) ++
    (if r.memBeginRd then [.read r.memAddr] else [])

def written (r : SpiMachine) (content : Content) : Content :=
  if r.memBeginWr then Function.update content r.memAddr r.memDataWr else content

def clock (b : SpiBoard) (t : SpiTick) : SpiBoard where
  emu := b.emu.clock t (b.reading && t.finish) (b.content b.emu.machine.memAddr)
  content := written b.emu.machine b.content
  reading := b.emu.machine.memBeginRd || b.reading && !t.finish
  accesses := b.accesses ++ begun b.emu.machine
  spiClk := t.spiClk
  samples :=
    b.samples ++ if t.spiClk && !b.spiClk then (b.emu.spiMiso t.spiCs).toList else []

def Unfinished (b : SpiBoard) : Prop := b.emu.machine.memBeginRd = true ∨ b.reading = true

instance (b : SpiBoard) : Decidable b.Unfinished := inferInstanceAs (Decidable (_ ∨ _))

def InTime (b : SpiBoard) (t : SpiTick) : Prop := t.spiClk ≠ b.spiClk → ¬b.Unfinished

instance (b : SpiBoard) (t : SpiTick) : Decidable (b.InTime t) :=
  inferInstanceAs (Decidable (_ → _))

end SpiBoard

end NaviMisc.SpiMemEmulator

/-!
What the emulator is for: a memory that is written and read by transactions of whole bytes.
-/

namespace NaviMisc.SpiMemEmulator

inductive EepromCommand
  | write (bank : BitVec 4)
  | read (bank : BitVec 4)
  | readStatus
  | writeEnable
  | writeDisable
  | other
  deriving DecidableEq

def EepromCommand.ofByte (c : Byte) : EepromCommand :=
  if c = 0x02 then .write 0
  else if c = 0x03 then .read 0
  else if c = 0x04 then .writeDisable
  else if c = 0x05 then .readStatus
  else if c = 0x06 then .writeEnable
  else if c.extractLsb' 4 4 = 0xa then .write (c.extractLsb' 0 4)
  else if c.extractLsb' 4 4 = 0xb then .read (c.extractLsb' 0 4)
  else .other

structure Eeprom where
  content : Content
  writeEnabled : Bool

def ahead (address : BitVec 20) (i : ℕ) : BitVec 20 := address + BitVec.ofNat 20 i

def MemAccess.apply (content : Content) : MemAccess → Content
  | .read _ => content
  | .write address data => Function.update content address data

@[simp] theorem ahead_zero (address : BitVec 20) : ahead address 0 = address :=
  BitVec.add_zero address

theorem ahead_succ (address : BitVec 20) (i : ℕ) :
    ahead address (i + 1) = ahead (address + 1) i := by
  rw [ahead, ahead, BitVec.add_assoc, Nat.add_comm i 1, BitVec.ofNat_add]
  rfl

namespace Eeprom

def reset (content : Content) : Eeprom := ⟨content, false⟩

def answer (e : Eeprom) (args : List Byte) : EepromCommand → List Byte
  | .readStatus => args.map fun _ => if e.writeEnabled then 0x02 else 0x00
  | .read bank =>
    match args with
    | hi :: lo :: args =>
      0xff :: 0xff :: args.mapIdx fun i _ => e.content (ahead (bank ++ hi ++ lo) i)
    | _ => args.map fun _ => 0xff
  | _ => args.map fun _ => 0xff

def returned (e : Eeprom) : List Byte → List Byte
  | [] => []
  | c :: args => 0xff :: e.answer args (.ofByte c)

def accessesOf (args : List Byte) : EepromCommand → List MemAccess
  | .write bank =>
    match args with
    | hi :: lo :: data => data.mapIdx fun i c => .write (ahead (bank ++ hi ++ lo) i) c
    | _ => []
  | .read bank =>
    match args with
    | hi :: lo :: args =>
      (List.range (args.length + 1)).map fun i => .read (ahead (bank ++ hi ++ lo) i)
    | _ => []
  | _ => []

def accesses : List Byte → List MemAccess
  | [] => []
  | c :: args => accessesOf args (.ofByte c)

def enabled (before : Bool) : EepromCommand → Bool
  | .writeEnable => true
  | .writeDisable => false
  | _ => before

def transact (e : Eeprom) (bytes : List Byte) : Eeprom where
  content := (accesses bytes).foldl MemAccess.apply e.content
  writeEnabled :=
    match bytes with
    | [] => e.writeEnabled
    | c :: _ => enabled e.writeEnabled (.ofByte c)

def run : List (List Byte) → Eeprom → List Byte × Eeprom
  | [], e => ([], e)
  | bytes :: transactions, e =>
    let r := run transactions (e.transact bytes)
    (e.returned bytes ++ r.1, r.2)

end Eeprom

end NaviMisc.SpiMemEmulator
