import NaviMisc.Lib.Bits
import NaviMisc.SpiMemEmulator.SpiMemEmu

/-!
The emulator byte by byte: what it does for each byte that it is sent, and that whole transactions
are those of the memory.
-/

namespace NaviMisc.SpiMemEmulator

structure SpiCore where
  state : SpiState
  memAddr : BitVec 20
  writeEnable : Bool
  content : Content
  accesses : List MemAccess

namespace SpiCore

def read (address : BitVec 20) (k : SpiCore) : SpiCore × Option Byte :=
  ({ k with
      state := .cmdReadData
      memAddr := address
      accesses := k.accesses ++ [.read address] }, some (k.content address))

def write (data : Byte) (k : SpiCore) : SpiCore :=
  { k with
    memAddr := k.memAddr + 1
    content := Function.update k.content (k.memAddr + 1) data
    accesses := k.accesses ++ [.write (k.memAddr + 1) data] }

def respond (c : Byte) (k : SpiCore) : SpiCore × Option Byte :=
  match k.state with
  | .done => (k, none)
  | .waitForCmd =>
    ({ k with
        state := .ofCmd c
        memAddr := initialAddress c
        writeEnable := if c = I_WREN then true else if c = I_WRDI then false else k.writeEnable },
      if c = I_RDSR then some (statusReg k.writeEnable) else none)
  | .cmdRdsr => (k, some (statusReg k.writeEnable))
  | .cmdWriteAddr1 => ({ k with state := .cmdWriteAddr2, memAddr := withAddr1 k.memAddr c }, none)
  | .cmdWriteAddr2 =>
    ({ k with state := .cmdWriteData, memAddr := withAddr2 k.memAddr c - 1 }, none)
  | .cmdReadAddr1 => ({ k with state := .cmdReadAddr2, memAddr := withAddr1 k.memAddr c }, none)
  | .cmdReadAddr2 => k.read (withAddr2 k.memAddr c)
  | .cmdWriteData => (k.write c, none)
  | .cmdReadData => k.read (k.memAddr + 1)

def deselect (k : SpiCore) : SpiCore := { k with state := .waitForCmd }

def after (bytes : List Byte) (k : SpiCore) : SpiCore :=
  bytes.foldl (fun k c => (k.respond c).1) k

def sent (next : Byte) : List Byte → SpiCore → List Byte
  | [], _ => []
  | c :: bytes, k => next :: sent ((k.respond c).2.getD 0xff) bytes (k.respond c).1

variable {k : SpiCore}

theorem after_cons (c : Byte) (bytes : List Byte) (k : SpiCore) :
    k.after (c :: bytes) = (k.respond c).1.after bytes := rfl

theorem respond_of_done (h : k.state = .done) (c : Byte) : k.respond c = (k, none) := by
  rw [respond, h]

theorem respond_of_rdsr (h : k.state = .cmdRdsr) (c : Byte) :
    k.respond c = (k, some (statusReg k.writeEnable)) := by
  rw [respond, h]

theorem respond_of_writeData (h : k.state = .cmdWriteData) (c : Byte) :
    k.respond c = (k.write c, none) := by
  rw [respond, h]

theorem respond_of_readData (h : k.state = .cmdReadData) (c : Byte) :
    k.respond c = k.read (k.memAddr + 1) := by
  rw [respond, h]

theorem after_of_done (h : k.state = .done) (bytes : List Byte) : k.after bytes = k := by
  induction bytes with
  | nil => rfl
  | cons c bytes ih =>
    rw [after, List.foldl_cons, respond_of_done h]
    exact ih

theorem sent_of_done (h : k.state = .done) (bytes : List Byte) :
    k.sent 0xff bytes = bytes.map fun _ => 0xff := by
  induction bytes with
  | nil => rfl
  | cons c bytes ih =>
    rw [sent, respond_of_done h]
    exact congrArg _ ih

theorem after_of_rdsr (h : k.state = .cmdRdsr) (bytes : List Byte) : k.after bytes = k := by
  induction bytes with
  | nil => rfl
  | cons c bytes ih =>
    rw [after, List.foldl_cons, respond_of_rdsr h]
    exact ih

theorem sent_of_rdsr (h : k.state = .cmdRdsr) (bytes : List Byte) :
    k.sent (statusReg k.writeEnable) bytes = bytes.map fun _ => statusReg k.writeEnable := by
  induction bytes with
  | nil => rfl
  | cons c bytes ih =>
    rw [sent, respond_of_rdsr h]
    exact congrArg _ ih

theorem after_of_writeData (h : k.state = .cmdWriteData) (data : List Byte) :
    ∃ address, k.after data =
      let accesses := data.mapIdx fun i c => MemAccess.write (ahead (k.memAddr + 1) i) c
      { k with
        memAddr := address
        content := accesses.foldl MemAccess.apply k.content
        accesses := k.accesses ++ accesses } := by
  induction data generalizing k with
  | nil => exact ⟨k.memAddr, by simp [after]⟩
  | cons c data ih =>
    obtain ⟨address, hafter⟩ := @ih (k.write c) h
    refine ⟨address, ?_⟩
    rw [after, List.foldl_cons, respond_of_writeData h]
    refine hafter.trans ?_
    simp [write, List.mapIdx_cons, ahead_succ, MemAccess.apply]

theorem sent_of_writeData (h : k.state = .cmdWriteData) (data : List Byte) :
    k.sent 0xff data = data.map fun _ => 0xff := by
  induction data generalizing k with
  | nil => rfl
  | cons c data ih =>
    rw [sent, respond_of_writeData h]
    exact congrArg _ (@ih (k.write c) h)

theorem after_of_readData (h : k.state = .cmdReadData) (args : List Byte) :
    ∃ address, k.after args = { k with
      memAddr := address
      accesses := k.accesses ++ (List.range args.length).map fun i =>
        MemAccess.read (ahead (k.memAddr + 1) i) } := by
  induction args generalizing k with
  | nil => exact ⟨k.memAddr, by simp [after]⟩
  | cons c args ih =>
    obtain ⟨address, hafter⟩ := @ih (k.read (k.memAddr + 1)).1 rfl
    refine ⟨address, ?_⟩
    rw [after, List.foldl_cons, respond_of_readData h]
    refine hafter.trans ?_
    simp [read, h, List.range_succ_eq_map, ahead_succ, Function.comp_def]

theorem sent_of_readData (h : k.state = .cmdReadData) (args : List Byte) :
    k.sent (k.content k.memAddr) args =
      args.mapIdx fun i _ => k.content (ahead k.memAddr i) := by
  induction args generalizing k with
  | nil => rfl
  | cons c args ih =>
    rw [sent, respond_of_readData h, List.mapIdx_cons]
    congr 1
    · simp
    · refine (@ih (k.read (k.memAddr + 1)).1 rfl).trans ?_
      simp [read, ahead_succ]

end SpiCore

namespace EepromCommand

def state : EepromCommand → SpiState
  | .write _ => .cmdWriteAddr1
  | .read _ => .cmdReadAddr1
  | .readStatus => .cmdRdsr
  | _ => .done

def bank : EepromCommand → BitVec 4
  | .write bank => bank
  | .read bank => bank
  | _ => 0

theorem ofCmd_eq (c : Byte) : SpiState.ofCmd c = (ofByte c).state := by
  revert c
  decide +kernel

theorem initialAddress_eq (c : Byte) : initialAddress c = (ofByte c).bank ++ 0#16 := by
  revert c
  decide +kernel

theorem writeEnable_eq (before : Bool) (c : Byte) :
    (if c = I_WREN then true else if c = I_WRDI then false else before) =
      Eeprom.enabled before (ofByte c) := by
  revert c before
  decide +kernel

theorem eq_rdsr_iff (c : Byte) : c = I_RDSR ↔ ofByte c = .readStatus := by
  revert c
  decide +kernel

end EepromCommand

theorem withAddr1_append (bank : BitVec 4) (hi : Byte) :
    withAddr1 (bank ++ 0#16) hi = bank ++ hi ++ 0#8 := by
  apply BitVec.eq_of_getLsbD_eq
  intro i hi'
  simp only [withAddr1, BitVec.getLsbD_append, BitVec.getLsbD_extractLsb', BitVec.getLsbD_zero]
  grind

theorem withAddr2_append (bank : BitVec 4) (hi lo mid : Byte) :
    withAddr2 (bank ++ hi ++ mid) lo = bank ++ hi ++ lo := by
  apply BitVec.eq_of_getLsbD_eq
  intro i hi'
  simp only [withAddr2, BitVec.getLsbD_append, BitVec.getLsbD_extractLsb']
  grind

namespace SpiCore

variable {k : SpiCore}

theorem respond_of_wait (h : k.state = .waitForCmd) (c : Byte) :
    k.respond c = ({ k with
      state := (EepromCommand.ofByte c).state
      memAddr := (EepromCommand.ofByte c).bank ++ 0#16
      writeEnable := Eeprom.enabled k.writeEnable (.ofByte c) },
      if EepromCommand.ofByte c = .readStatus then some (statusReg k.writeEnable) else none) := by
  rw [respond, h]
  simp only [EepromCommand.ofCmd_eq, EepromCommand.initialAddress_eq, EepromCommand.writeEnable_eq,
    EepromCommand.eq_rdsr_iff]

theorem respond_of_writeAddr1 {bank : BitVec 4} (h : k.state = .cmdWriteAddr1)
    (haddress : k.memAddr = bank ++ 0#16) (hi : Byte) :
    k.respond hi = ({ k with state := .cmdWriteAddr2, memAddr := bank ++ hi ++ 0#8 }, none) := by
  rw [respond, h]
  dsimp only
  rw [haddress, withAddr1_append]

theorem respond_of_writeAddr2 {bank : BitVec 4} {hi mid : Byte} (h : k.state = .cmdWriteAddr2)
    (haddress : k.memAddr = bank ++ hi ++ mid) (lo : Byte) :
    k.respond lo =
      ({ k with state := .cmdWriteData, memAddr := bank ++ hi ++ lo - 1 }, none) := by
  rw [respond, h]
  dsimp only
  rw [haddress, withAddr2_append]

theorem respond_of_readAddr1 {bank : BitVec 4} (h : k.state = .cmdReadAddr1)
    (haddress : k.memAddr = bank ++ 0#16) (hi : Byte) :
    k.respond hi = ({ k with state := .cmdReadAddr2, memAddr := bank ++ hi ++ 0#8 }, none) := by
  rw [respond, h]
  dsimp only
  rw [haddress, withAddr1_append]

theorem respond_of_readAddr2 {bank : BitVec 4} {hi mid : Byte} (h : k.state = .cmdReadAddr2)
    (haddress : k.memAddr = bank ++ hi ++ mid) (lo : Byte) :
    k.respond lo = k.read (bank ++ hi ++ lo) := by
  rw [respond, h]
  dsimp only
  rw [haddress, withAddr2_append]

structure Executed (before after : SpiCore) (args : List Byte) (command : EepromCommand) :
    Prop where
  content : after.content = (Eeprom.accessesOf args command).foldl MemAccess.apply before.content
  accesses : after.accesses = before.accesses ++ Eeprom.accessesOf args command
  writeEnable : after.writeEnable = before.writeEnable

theorem Executed.of_eq {k' : SpiCore} {args : List Byte} {command : EepromCommand} (h' : k' = k)
    (h : Eeprom.accessesOf args command = []) : k.Executed k' args command := by
  subst h'
  constructor
  · rw [h, List.foldl_nil]
  · rw [h, List.append_nil]
  · rfl

theorem executed_write (bank : BitVec 4) (h : k.state = .cmdWriteAddr1)
    (haddress : k.memAddr = bank ++ 0#16) (args : List Byte) :
    k.Executed (k.after args) args (.write bank) ∧ k.sent 0xff args = args.map fun _ => 0xff := by
  match args with
  | [] => exact ⟨Executed.of_eq rfl rfl, rfl⟩
  | [hi] =>
    constructor
    · rw [after_cons, respond_of_writeAddr1 h haddress]
      exact ⟨rfl, (List.append_nil _).symm, rfl⟩
    · rfl
  | hi :: lo :: data =>
    let k' : SpiCore := { k with state := .cmdWriteAddr2, memAddr := bank ++ hi ++ 0#8 }
    let k'' : SpiCore := { k with state := .cmdWriteData, memAddr := bank ++ hi ++ lo - 1 }
    have hrespond : k.respond hi = (k', none) := respond_of_writeAddr1 h haddress hi
    have hrespond' : k'.respond lo = (k'', none) := respond_of_writeAddr2 rfl rfl lo
    have hstart : k''.memAddr + 1 = bank ++ hi ++ lo := BitVec.sub_add_cancel _ _
    obtain ⟨address, hafter⟩ := @after_of_writeData k'' rfl data
    rw [hstart] at hafter
    constructor
    · rw [after_cons, hrespond, after_cons, hrespond', hafter]
      exact ⟨rfl, rfl, rfl⟩
    · rw [sent, hrespond, sent, hrespond']
      exact congrArg (fun l => 0xff :: 0xff :: l) (@sent_of_writeData k'' rfl data)

theorem executed_read (bank : BitVec 4) (h : k.state = .cmdReadAddr1)
    (haddress : k.memAddr = bank ++ 0#16) (args : List Byte) :
    k.Executed (k.after args) args (.read bank) ∧
      k.sent 0xff args = Eeprom.answer ⟨k.content, k.writeEnable⟩ args (.read bank) := by
  match args with
  | [] => exact ⟨Executed.of_eq rfl rfl, rfl⟩
  | [hi] =>
    constructor
    · rw [after_cons, respond_of_readAddr1 h haddress]
      exact ⟨rfl, (List.append_nil _).symm, rfl⟩
    · rfl
  | hi :: lo :: args =>
    let k' : SpiCore := { k with state := .cmdReadAddr2, memAddr := bank ++ hi ++ 0#8 }
    let r := k'.read (bank ++ hi ++ lo)
    have hrespond : k.respond hi = (k', none) := respond_of_readAddr1 h haddress hi
    have hrespond' : k'.respond lo = r := respond_of_readAddr2 rfl rfl lo
    obtain ⟨address, hafter⟩ := @after_of_readData r.1 rfl args
    have haccesses : Eeprom.accessesOf (hi :: lo :: args) (.read bank) =
        .read (bank ++ hi ++ lo) ::
          (List.range args.length).map fun i => .read (ahead (bank ++ hi ++ lo + 1) i) := by
      rw [Eeprom.accessesOf, List.range_succ_eq_map]
      simp [ahead_succ, Function.comp_def]
    constructor
    · rw [after_cons, hrespond, after_cons, hrespond', hafter]
      constructor
      · rw [haccesses]
        simp only [List.foldl_cons, List.foldl_map, MemAccess.apply, List.foldl_fixed]
        rfl
      · rw [haccesses]
        exact List.append_assoc _ _ _
      · rfl
    · rw [sent, hrespond, sent, hrespond']
      exact congrArg (fun l => 0xff :: 0xff :: l) (@sent_of_readData r.1 rfl args)

def toEeprom (k : SpiCore) : Eeprom := ⟨k.content, k.writeEnable⟩

theorem executed (command : EepromCommand) (h : k.state = command.state)
    (haddress : k.memAddr = command.bank ++ 0#16) (args : List Byte) :
    k.Executed (k.after args) args command ∧
      k.sent (if command = .readStatus then statusReg k.writeEnable else 0xff) args =
        k.toEeprom.answer args command := by
  cases command with
  | write bank => exact executed_write bank h haddress args
  | read bank => exact executed_read bank h haddress args
  | readStatus => exact ⟨Executed.of_eq (after_of_rdsr h args) rfl, sent_of_rdsr h args⟩
  | writeEnable => exact ⟨Executed.of_eq (after_of_done h args) rfl, sent_of_done h args⟩
  | writeDisable => exact ⟨Executed.of_eq (after_of_done h args) rfl, sent_of_done h args⟩
  | other => exact ⟨Executed.of_eq (after_of_done h args) rfl, sent_of_done h args⟩

theorem answer_enabled (content : Content) (before : Bool) (args : List Byte)
    (command : EepromCommand) :
    Eeprom.answer ⟨content, Eeprom.enabled before command⟩ args command =
      Eeprom.answer ⟨content, before⟩ args command := by
  cases command <;> rfl

theorem transaction (h : k.state = .waitForCmd) (bytes : List Byte) :
    k.sent 0xff bytes = k.toEeprom.returned bytes ∧
      (k.after bytes).toEeprom = k.toEeprom.transact bytes ∧
        (k.after bytes).accesses = k.accesses ++ Eeprom.accesses bytes := by
  cases bytes with
  | nil => exact ⟨rfl, rfl, (List.append_nil _).symm⟩
  | cons c args =>
    let command := EepromCommand.ofByte c
    let k' : SpiCore := { k with
      state := command.state
      memAddr := command.bank ++ 0#16
      writeEnable := Eeprom.enabled k.writeEnable command }
    have hrespond : k.respond c =
        (k', if command = .readStatus then some (statusReg k.writeEnable) else none) :=
      respond_of_wait h c
    obtain ⟨hexecuted, hsent⟩ := @executed k' command rfl rfl args
    have hload : (if command = .readStatus then some (statusReg k.writeEnable) else none).getD 0xff =
        if command = .readStatus then statusReg k'.writeEnable else 0xff := by
      split_ifs with hstatus
      · simp [k', hstatus, Eeprom.enabled]
      · rfl
    refine ⟨?_, ?_, ?_⟩
    · rw [sent, hrespond, Eeprom.returned]
      refine congrArg (0xff :: ·) ?_
      rw [hload]
      exact hsent.trans (answer_enabled k.content k.writeEnable args command)
    · rw [after_cons, hrespond]
      exact congrArg₂ Eeprom.mk hexecuted.content hexecuted.writeEnable
    · rw [after_cons, hrespond]
      exact hexecuted.accesses

end SpiCore

end NaviMisc.SpiMemEmulator

/-!
The emulator bit by bit: the shift register, with all that the machine is about to do already done.
-/

namespace NaviMisc.SpiMemEmulator

open NaviMisc.Lib.ShiftRegister

@[ext] structure SpiView where
  bitCount : BitVec 3
  mosiReg : Byte
  misoReg : Byte
  misoOut : Bool
  samples : List Bool
  core : SpiCore

namespace SpiView

def sample (v : SpiView) : SpiView := { v with samples := v.samples ++ [v.misoOut] }

def shiftIn (mosi : Bool) (v : SpiView) : SpiView :=
  { v with bitCount := v.bitCount + 1, mosiReg := v.mosiReg.shiftConcat mosi }

def respond (v : SpiView) : SpiView :=
  let r := v.core.respond v.mosiReg
  { v with core := r.1, misoReg := r.2.getD (if r.1.state = .done then 0xff else v.misoReg) }

def shiftOut (v : SpiView) : SpiView :=
  { v with misoReg := v.misoReg.shiftConcat true, misoOut := v.misoReg.msb }

def rise (mosi : Bool) (v : SpiView) : SpiView :=
  if v.bitCount = 7 then (v.sample.shiftIn mosi).respond else v.sample.shiftIn mosi

def bit (v : SpiView) (mosi : Bool) : SpiView := (v.rise mosi).shiftOut

def deselect (v : SpiView) : SpiView :=
  { v with bitCount := 0, mosiReg := 0, misoReg := 0xff, misoOut := true, core := v.core.deselect }

structure Sending (d : Byte) (k : ℕ) (v : SpiView) : Prop where
  bitCount : v.bitCount = BitVec.ofNat 3 k
  misoOut : v.misoOut = d.getMsbD k
  misoReg : v.misoReg = drained d (k + 1)

variable {d : Byte} {k : ℕ} {v : SpiView}

theorem sending_deselect (v : SpiView) : Sending 0xff 0 v.deselect := by
  constructor
  · rfl
  · rfl
  · have hones : (0xff : Byte) = drained 0xff 1 := by decide
    exact hones

theorem Sending.bit (h : Sending d k v) (hk : k < 7) (mosi : Bool) :
    v.bit mosi = { v with
      bitCount := BitVec.ofNat 3 (k + 1)
      mosiReg := v.mosiReg.shiftConcat mosi
      misoReg := drained d (k + 2)
      misoOut := d.getMsbD (k + 1)
      samples := v.samples ++ [d.getMsbD k] } := by
  have hcount : v.bitCount ≠ 7 := by
    rw [h.bitCount]
    intro heq
    have hnat := congrArg BitVec.toNat heq
    rw [BitVec.toNat_ofNat, Nat.mod_eq_of_lt (by omega)] at hnat
    exact absurd hnat (Nat.ne_of_lt hk)
  rw [SpiView.bit, rise, if_neg hcount, shiftOut, shiftIn, sample]
  simp only [h.bitCount, h.misoOut, h.misoReg, ← drained_succ, ← BitVec.ofNat_add_ofNat]
  rw [msb_drained d (by omega)]
  rfl

theorem Sending.bits (h : Sending d 0 v) (l : List Bool) (hl : l.length ≤ 7) :
    l.foldl SpiView.bit v = { v with
      bitCount := BitVec.ofNat 3 l.length
      mosiReg := l.foldl BitVec.shiftConcat v.mosiReg
      misoReg := drained d (l.length + 1)
      misoOut := d.getMsbD l.length
      samples := v.samples ++ (highFirst d).take l.length } := by
  induction l using List.reverseRec with
  | nil =>
    rw [List.foldl_nil, List.foldl_nil, List.length_nil, ← h.bitCount, ← h.misoReg, ← h.misoOut,
      List.take_zero, List.append_nil]
  | append_singleton l mosi ih =>
    rw [List.length_append, List.length_singleton] at hl ⊢
    rw [List.foldl_append, ih (by omega), List.foldl_cons, List.foldl_nil]
    have hsending : Sending d l.length { v with
        bitCount := BitVec.ofNat 3 l.length
        mosiReg := l.foldl BitVec.shiftConcat v.mosiReg
        misoReg := drained d (l.length + 1)
        misoOut := d.getMsbD l.length
        samples := v.samples ++ (highFirst d).take l.length } := ⟨rfl, rfl, rfl⟩
    rw [hsending.bit hl, List.foldl_append, take_succ_highFirst d (by omega), List.append_assoc]
    rfl

theorem Sending.byte (h : Sending d 0 v) (c : Byte) :
    let v' := (highFirst c).foldl SpiView.bit v
    Sending ((v.core.respond c).2.getD 0xff) 0 v' ∧ v'.core = (v.core.respond c).1 ∧
      v'.samples = v.samples ++ highFirst d := by
  obtain ⟨l, mosi, hbits⟩ : ∃ l mosi, highFirst c = l ++ [mosi] :=
    ⟨(highFirst c).dropLast, _, (List.dropLast_append_getLast (by simp [highFirst])).symm⟩
  have hlength : l.length = 7 := by
    have hc := length_highFirst c
    rw [hbits, List.length_append, List.length_singleton] at hc
    omega
  have hmosi : (l.foldl BitVec.shiftConcat v.mosiReg).shiftConcat mosi = c := by
    have hc := foldl_shiftConcat_highFirst v.mosiReg c
    rwa [hbits, List.foldl_append] at hc
  have hones : drained d 8 = 0xff := drained_width d
  have hsamples : (highFirst d).take 7 ++ [d.getMsbD 7] = highFirst d := by
    rw [← take_succ_highFirst d (by omega)]
    exact List.take_of_length_le (length_highFirst d).le
  dsimp only
  rw [hbits, List.foldl_append, List.foldl_cons, List.foldl_nil, h.bits l hlength.le, hlength,
    SpiView.bit, rise, if_pos (by rfl), sample, shiftIn, respond, shiftOut]
  simp only [hmosi, hones, ite_self, List.append_assoc, hsamples, and_self]
  exact ⟨⟨rfl, BitVec.msb_eq_getMsbD_zero ((v.core.respond c).2.getD 0xff), rfl⟩, trivial⟩

theorem Sending.bytes (h : Sending d 0 v) (bytes : List Byte) :
    let v' := (bytes.flatMap highFirst).foldl SpiView.bit v
    v'.core = v.core.after bytes ∧
      v'.samples = v.samples ++ (v.core.sent d bytes).flatMap highFirst := by
  induction bytes generalizing d v with
  | nil => exact ⟨rfl, (List.append_nil _).symm⟩
  | cons c bytes ih =>
    obtain ⟨hsending, hcore, hsamples⟩ := h.byte c
    obtain ⟨hcore', hsamples'⟩ := ih hsending
    rw [List.flatMap_cons, List.foldl_append]
    constructor
    · rw [hcore', hcore]
      rfl
    · rw [hsamples', hsamples, hcore, SpiCore.sent, List.flatMap_cons, List.append_assoc]

end SpiView

end NaviMisc.SpiMemEmulator
