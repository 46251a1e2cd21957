import NaviMisc.Lib.Runs
import NaviMisc.SpiMemEmulator.Client

/-!
The controller that shares two SRAM chips between two clients (sram.v), with the chips and the
clients. Values that are left open there come with the clock, and so does what floats on a bus that
nothing drives.
-/

namespace NaviMisc.SpiMemEmulator

open NaviMisc.Lib.AtomicObject

inductive SramClient
  | c1
  | c2
  deriving DecidableEq

/-- The states `S_C1_RD1` to `S_C2_WR4` name the client that is served. -/
inductive SramState
  | idle
  | rd1 (c : SramClient)
  | rd2 (c : SramClient)
  | rd3 (c : SramClient)
  | wr1 (c : SramClient)
  | wr2 (c : SramClient)
  | wr3 (c : SramClient)
  | wr4 (c : SramClient)
  deriving DecidableEq

def setResetFlipflop (syncSet syncReset out : Bool) : Bool :=
  if syncSet then true else if syncReset then false else out

structure SramPort where
  beginWr : Bool
  beginRd : Bool
  addr : BitVec 20
  dataWr : Byte

structure SramTick where
  port : SramClient → SramPort
  floating1 : BitVec 16
  floating2 : BitVec 16
  x16 : BitVec 16
  x20 : BitVec 20

structure SramCtrl where
  sramOut : BitVec 16
  sramOutDrv : Bool
  oe : Bool
  we : Bool
  addr : BitVec 20
  sram1IoR : BitVec 16
  sram2IoR : BitVec 16
  pendingRd : SramClient → Bool
  pendingWr : SramClient → Bool
  state : SramState

namespace SramCtrl

def reset : SramCtrl :=
  ⟨0, false, false, false, 0, 0, 0, fun _ => false, fun _ => false, .idle⟩

def sramOe (r : SramCtrl) : Bool := !r.oe

def sramWe (r : SramCtrl) : Bool := !r.we

def byteIndex (r : SramCtrl) : BitVec 2 := r.addr.extractLsb' 0 2

def sramA (r : SramCtrl) : BitVec 18 := r.addr.extractLsb' 2 18

def sram1Ce (r : SramCtrl) : Bool := r.byteIndex.getLsbD 1

def sram2Ce (r : SramCtrl) : Bool := !r.byteIndex.getLsbD 1

def finishRd (c : SramClient) (r : SramCtrl) : Bool := r.state == .rd3 c

def finishWr (c : SramClient) (r : SramCtrl) : Bool := r.state == .wr4 c

def wordRd (r : SramCtrl) : BitVec 16 := if r.byteIndex.getLsbD 1 then r.sram2IoR else r.sram1IoR

def byteRd (r : SramCtrl) : Byte :=
  if r.byteIndex.getLsbD 0 then r.wordRd.extractLsb' 8 8 else r.wordRd.extractLsb' 0 8

def pending (c : SramClient) (r : SramCtrl) : Bool := r.pendingRd c || r.pendingWr c

def clock (t : SramTick) (sram1Io sram2Io : BitVec 16) (r : SramCtrl) : SramCtrl :=
  let r' := { r with
    sram1IoR := sram1Io
    sram2IoR := sram2Io
    pendingRd := fun c => setResetFlipflop (t.port c).beginRd (r.finishRd c) (r.pendingRd c)
    pendingWr := fun c => setResetFlipflop (t.port c).beginWr (r.finishWr c) (r.pendingWr c) }
  match r.state with
  | .idle => { r' with
      addr :=
        if r.pending .c1 then (t.port .c1).addr
        else if r.pending .c2 then (t.port .c2).addr
        else t.x20
      oe := r.pending .c1 || r.pending .c2
      state :=
        if r.pendingRd .c1 then .rd1 .c1
        else if r.pendingWr .c1 then .wr1 .c1
        else if r.pendingRd .c2 then .rd1 .c2
        else if r.pendingWr .c2 then .wr1 .c2
        else .idle
      sramOut := t.x16, sramOutDrv := false, we := false }
  | .rd1 c => { r' with
      oe := true, state := .rd2 c, sramOut := t.x16, sramOutDrv := false, we := false }
  | .rd2 c => { r' with
      oe := false, state := .rd3 c, sramOut := t.x16, sramOutDrv := false, we := false }
  | .rd3 _ => { r' with
      oe := false, state := .idle, sramOut := t.x16, sramOutDrv := false, we := false }
  | .wr1 c => { r' with
      oe := true, state := .wr2 c, sramOut := t.x16, sramOutDrv := false, we := false }
  | .wr2 c => { r' with
      oe := false, state := .wr3 c, sramOutDrv := true, we := false
      sramOut :=
        if r.byteIndex.getLsbD 0 then (t.port c).dataWr ++ r.wordRd.extractLsb' 0 8
        else r.wordRd.extractLsb' 8 8 ++ (t.port c).dataWr }
  | .wr3 c => { r' with oe := false, state := .wr4 c, sramOutDrv := true, we := true }
  | .wr4 _ => { r' with oe := false, state := .idle, sramOutDrv := true, we := false }

end SramCtrl

structure SramChip where
  content : BitVec 18 → BitVec 16
  selected : Option (BitVec 16)

namespace SramChip

def select (ce oe : Bool) (a : BitVec 18) (chip : SramChip) : Option (BitVec 16) :=
  if !ce && !oe then some (chip.content a) else none

def presents (late ce oe : Bool) (a : BitVec 18) (chip : SramChip) : Option (BitVec 16) :=
  if late then chip.selected else chip.select ce oe a

def clock (ce oe we : Bool) (a : BitVec 18) (io : BitVec 16) (chip : SramChip) : SramChip where
  content := if !ce && !we then Function.update chip.content a io else chip.content
  selected := chip.select ce oe a

end SramChip

inductive SramOp
  | read (address : BitVec 20)
  | write (address : BitVec 20) (data : Byte)
  deriving DecidableEq

def SramOp.effect : SramOp → Content → Option Byte × Content
  | .read address, content => (some (content address), content)
  | .write address data, content => (none, Function.update content address data)

/-- The controller, the chips, and the last request of each client, with all that has begun and
finished. -/
structure SramBoard where
  ctrl : SramCtrl
  sram1 : SramChip
  sram2 : SramChip
  request : SramClient → SramOp
  log : List (Event SramClient SramOp (Option Byte))

namespace SramBoard

def reset (content1 content2 : BitVec 18 → BitVec 16) (request : SramClient → SramOp) : SramBoard :=
  ⟨.reset, ⟨content1, none⟩, ⟨content2, none⟩, request, []⟩

def sram1Io (late : Bool) (t : SramTick) (b : SramBoard) : BitVec 16 :=
  if b.ctrl.sramOutDrv then b.ctrl.sramOut
  else (b.sram1.presents late b.ctrl.sram1Ce b.ctrl.sramOe b.ctrl.sramA).getD t.floating1

def sram2Io (late : Bool) (t : SramTick) (b : SramBoard) : BitVec 16 :=
  if b.ctrl.sramOutDrv then b.ctrl.sramOut
  else (b.sram2.presents late b.ctrl.sram2Ce b.ctrl.sramOe b.ctrl.sramA).getD t.floating2

def finished (r : SramCtrl) (c : SramClient) : List (Event SramClient SramOp (Option Byte)) :=
  (if r.finishRd c then [.ret c (some r.byteRd)] else []) ++
    (if r.finishWr c then [.ret c none] else [])

def begins (p : SramPort) : Option SramOp :=
  if p.beginRd then some (.read p.addr)
  else if p.beginWr then some (.write p.addr p.dataWr)
  else none

def begun (t : SramTick) (c : SramClient) : List (Event SramClient SramOp (Option Byte)) :=
  ((begins (t.port c)).map (.call c ·)).toList

def clock (late : Bool) (b : SramBoard) (t : SramTick) : SramBoard where
  ctrl := b.ctrl.clock t (b.sram1Io late t) (b.sram2Io late t)
  sram1 := b.sram1.clock b.ctrl.sram1Ce b.ctrl.sramOe b.ctrl.sramWe b.ctrl.sramA (b.sram1Io late t)
  sram2 := b.sram2.clock b.ctrl.sram2Ce b.ctrl.sramOe b.ctrl.sramWe b.ctrl.sramA (b.sram2Io late t)
  request := fun c => (begins (t.port c)).getD (b.request c)
  log := b.log ++ finished b.ctrl .c1 ++ finished b.ctrl .c2 ++ begun t .c1 ++ begun t .c2

def Holds (p : SramPort) : SramOp → Prop
  | .read address => p.addr = address
  | .write address data => p.addr = address ∧ p.dataWr = data

/-- A client begins one thing, and only when nothing of it is pending. Until then its address and
data stay. -/
def Disciplined (b : SramBoard) (t : SramTick) : Prop :=
  ∀ c, ¬((t.port c).beginRd = true ∧ (t.port c).beginWr = true) ∧
    (b.ctrl.pending c = true →
      begins (t.port c) = none ∧ Holds (t.port c) (b.request c))

def word (b : SramBoard) (address : BitVec 20) : BitVec 16 :=
  if address.getLsbD 1 then b.sram2.content (address.extractLsb' 2 18)
  else b.sram1.content (address.extractLsb' 2 18)

def content (b : SramBoard) : Content := fun address =>
  if address.getLsbD 0 then (b.word address).extractLsb' 8 8
  else (b.word address).extractLsb' 0 8

end SramBoard

end NaviMisc.SpiMemEmulator

/-!
The words of the two chips: what the buses carry, and what a write makes of the bytes.
-/

namespace NaviMisc.SpiMemEmulator

namespace SramBoard

variable {late : Bool} {b : SramBoard} {t : SramTick} {c : SramClient}

def kept (address : BitVec 20) (word : BitVec 16) : Byte :=
  if address.getLsbD 0 then word.extractLsb' 0 8 else word.extractLsb' 8 8

def merged (address : BitVec 20) (data : Byte) (word : BitVec 16) : BitVec 16 :=
  if address.getLsbD 0 then data ++ kept address word else kept address word ++ data

def byteOf (address : BitVec 20) (word : BitVec 16) : Byte :=
  if address.getLsbD 0 then word.extractLsb' 8 8 else word.extractLsb' 0 8

theorem content_eq (b : SramBoard) (address : BitVec 20) :
    b.content address = byteOf address (b.word address) := rfl

theorem byteIndex_zero (r : SramCtrl) : r.byteIndex.getLsbD 0 = r.addr.getLsbD 0 := by
  simp [SramCtrl.byteIndex]

theorem byteIndex_one (r : SramCtrl) : r.byteIndex.getLsbD 1 = r.addr.getLsbD 1 := by
  simp [SramCtrl.byteIndex]

theorem sram1Ce_eq (r : SramCtrl) : r.sram1Ce = r.addr.getLsbD 1 := byteIndex_one r

theorem sram2Ce_eq (r : SramCtrl) : r.sram2Ce = !r.addr.getLsbD 1 :=
  congrArg (!·) (byteIndex_one r)

theorem byteRd_eq (r : SramCtrl) : r.byteRd = byteOf r.addr r.wordRd := by
  rw [SramCtrl.byteRd, byteIndex_zero, byteOf]

theorem extractLsb'_append_high (a c : Byte) : (a ++ c).extractLsb' 8 8 = a := by
  apply BitVec.eq_of_getLsbD_eq
  intro i hi
  rw [BitVec.getLsbD_extractLsb', BitVec.getLsbD_append, if_neg (by omega), Nat.add_sub_cancel_left,
    decide_eq_true hi, Bool.true_and]

theorem extractLsb'_append_low (a c : Byte) : (a ++ c).extractLsb' 0 8 = c := by
  apply BitVec.eq_of_getLsbD_eq
  intro i hi
  rw [BitVec.getLsbD_extractLsb', BitVec.getLsbD_append, if_pos (by omega), Nat.zero_add,
    decide_eq_true hi, Bool.true_and]

theorem byteOf_merged_self (address : BitVec 20) (data : Byte) (word : BitVec 16) :
    byteOf address (merged address data word) = data := by
  rw [byteOf, merged]
  split_ifs
  · exact extractLsb'_append_high data _
  · exact extractLsb'_append_low _ data

theorem byteOf_merged_of_ne {address address' : BitVec 20}
    (h : address'.getLsbD 0 ≠ address.getLsbD 0) (data : Byte) (word : BitVec 16) :
    byteOf address' (merged address data word) = byteOf address' word := by
  rw [byteOf, byteOf, merged, kept]
  split_ifs with h₁ h₂ h₂
  · exact absurd (h₁.trans h₂.symm) h
  · exact extractLsb'_append_high _ data
  · exact extractLsb'_append_low data _
  · rw [Bool.not_eq_true] at h₁ h₂
    exact absurd (h₁.trans h₂.symm) h

theorem address_ext {address address' : BitVec 20}
    (hword : address.extractLsb' 2 18 = address'.extractLsb' 2 18)
    (hone : address.getLsbD 1 = address'.getLsbD 1)
    (hzero : address.getLsbD 0 = address'.getLsbD 0) : address = address' := by
  apply BitVec.eq_of_getLsbD_eq
  intro i hi
  match i with
  | 0 => exact hzero
  | 1 => exact hone
  | i + 2 =>
    have hbit := congrArg (BitVec.getLsbD · i) hword
    simp only [BitVec.getLsbD_extractLsb', Nat.add_comm 2 i] at hbit
    simpa [show i < 18 by omega] using hbit

theorem content_clock_of_idle (h : b.ctrl.we = false) :
    (b.clock late t).content = b.content ∧ (b.clock late t).word = b.word := by
  have h1 : (b.clock late t).sram1.content = b.sram1.content := by
    change (b.sram1.clock _ _ _ _ _).content = _
    simp [SramChip.clock, SramCtrl.sramWe, h]
  have h2 : (b.clock late t).sram2.content = b.sram2.content := by
    change (b.sram2.clock _ _ _ _ _).content = _
    simp [SramChip.clock, SramCtrl.sramWe, h]
  have hword : (b.clock late t).word = b.word := by
    funext address
    rw [word, word, h1, h2]
  refine ⟨?_, hword⟩
  funext address
  rw [content_eq, content_eq, hword]

theorem word_clock_of_write (h : b.ctrl.we = true) (hdrv : b.ctrl.sramOutDrv = true)
    (address : BitVec 20) :
    (b.clock late t).word address =
      if address.extractLsb' 2 18 = b.ctrl.addr.extractLsb' 2 18 ∧
          address.getLsbD 1 = b.ctrl.addr.getLsbD 1 then b.ctrl.sramOut
      else b.word address := by
  have hio1 : b.sram1Io late t = b.ctrl.sramOut := by rw [sram1Io, hdrv]; rfl
  have hio2 : b.sram2Io late t = b.ctrl.sramOut := by rw [sram2Io, hdrv]; rfl
  change (if address.getLsbD 1 then (b.sram2.clock _ _ _ _ _).content _
    else (b.sram1.clock _ _ _ _ _).content _) = _
  simp only [SramChip.clock, SramCtrl.sramWe, h, hio1, hio2, sram1Ce_eq, sram2Ce_eq,
    SramCtrl.sramA, word]
  cases hone : b.ctrl.addr.getLsbD 1 <;> cases hone' : address.getLsbD 1 <;>
    simp [Function.update_apply]

theorem content_clock_of_write (h : b.ctrl.we = true) (hdrv : b.ctrl.sramOutDrv = true)
    {data : Byte} (hout : b.ctrl.sramOut = merged b.ctrl.addr data (b.word b.ctrl.addr)) :
    (b.clock late t).content = Function.update b.content b.ctrl.addr data := by
  funext address
  rw [content_eq, word_clock_of_write h hdrv, Function.update_apply, hout]
  by_cases hword : address.extractLsb' 2 18 = b.ctrl.addr.extractLsb' 2 18 ∧
      address.getLsbD 1 = b.ctrl.addr.getLsbD 1
  · rw [if_pos hword]
    have hsame : b.word address = b.word b.ctrl.addr := by rw [word, word, hword.1, hword.2]
    by_cases hzero : address.getLsbD 0 = b.ctrl.addr.getLsbD 0
    · have haddress := address_ext hword.1 hword.2 hzero
      rw [if_pos haddress, haddress, byteOf_merged_self]
    · rw [if_neg fun heq => hzero (by rw [heq]), byteOf_merged_of_ne hzero, ← hsame]
      rfl
  · rw [if_neg hword, if_neg fun heq => hword (by rw [heq]; exact ⟨rfl, rfl⟩)]
    rfl

def chip (address : BitVec 20) (b : SramBoard) : SramChip :=
  if address.getLsbD 1 then b.sram2 else b.sram1

def io (late : Bool) (t : SramTick) (b : SramBoard) : BitVec 16 :=
  if b.ctrl.addr.getLsbD 1 then b.sram2Io late t else b.sram1Io late t

theorem selected_clock (hoe : b.ctrl.oe = true) :
    ((b.clock late t).chip b.ctrl.addr).selected = some (b.word b.ctrl.addr) := by
  change (if b.ctrl.addr.getLsbD 1 then b.sram2.clock _ _ _ _ _
    else b.sram1.clock _ _ _ _ _).selected = _
  simp only [SramChip.clock, SramChip.select, sram1Ce_eq, sram2Ce_eq, SramCtrl.sramOe, hoe, word,
    SramCtrl.sramA]
  cases b.ctrl.addr.getLsbD 1 <;> rfl

theorem wordRd_clock (h : (b.clock late t).ctrl.addr = b.ctrl.addr) :
    (b.clock late t).ctrl.wordRd = b.io late t := by
  have h1 : (b.clock late t).ctrl.sram1IoR = b.sram1Io late t := by
    change (b.ctrl.clock _ _ _).sram1IoR = _
    rw [SramCtrl.clock]
    cases b.ctrl.state <;> rfl
  have h2 : (b.clock late t).ctrl.sram2IoR = b.sram2Io late t := by
    change (b.ctrl.clock _ _ _).sram2IoR = _
    rw [SramCtrl.clock]
    cases b.ctrl.state <;> rfl
  rw [SramCtrl.wordRd, byteIndex_one, h, h1, h2, io]

theorem io_of_late (hdrv : b.ctrl.sramOutDrv = false)
    (hselected : (b.chip b.ctrl.addr).selected = some (b.word b.ctrl.addr)) :
    b.io true t = b.word b.ctrl.addr := by
  rw [io, sram1Io, sram2Io, hdrv]
  rw [chip] at hselected
  cases h : b.ctrl.addr.getLsbD 1 <;> rw [h] at hselected <;>
    simp at hselected ⊢ <;> simp [SramChip.presents, hselected]

theorem io_of_prompt (hdrv : b.ctrl.sramOutDrv = false) (hoe : b.ctrl.oe = true) :
    b.io false t = b.word b.ctrl.addr := by
  rw [io, sram1Io, sram2Io, hdrv]
  simp only [SramChip.presents, SramChip.select, sram1Ce_eq, sram2Ce_eq, SramCtrl.sramOe, hoe,
    word, SramCtrl.sramA]
  cases b.ctrl.addr.getLsbD 1 <;> rfl

end SramBoard

end NaviMisc.SpiMemEmulator
