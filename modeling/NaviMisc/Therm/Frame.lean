import NaviMisc.Lib.Bits
import NaviMisc.Lib.BitStuffing
import NaviMisc.Lib.Lists

/-!
The frames of the radio link: content, a check sequence of 16 bits and a flag, which ends them.
-/

namespace NaviMisc.Therm

open NaviMisc.Lib.BitLists
open NaviMisc.Lib.BitStuffing (flag)

abbrev Byte := BitVec 8

abbrev RUN : ℕ := 3

def crcStep (crc : BitVec 16) (b : Bool) : BitVec 16 :=
  let shifted := crc <<< 1 ||| (BitVec.ofBool b).setWidth 16
  if crc.msb then shifted ^^^ 0x8005 else shifted

def crc16 (content : List Bool) : BitVec 16 :=
  (content ++ List.replicate 16 false).foldl crcStep 0

def checked (content : List Bool) : List Bool := content ++ lowFirst (crc16 content) 16

def validContent (frame : List Bool) : Option (List Bool) :=
  let n := frame.length - 22
  if 22 ≤ frame.length ∧ crc16 (frame.take n) = gather 16 ((frame.drop n).take 16) then
    some (frame.take n)
  else
    none

theorem validContent_checked (content : List Bool) :
    validContent (checked content ++ flag RUN) = some content := by
  have hlength : (checked content ++ flag RUN).length = content.length + 22 := by
    simp [checked, RUN]
  have htake : (checked content ++ flag RUN).take content.length = content := by
    rw [checked, List.append_assoc, List.take_left]
  have hdrop : ((checked content ++ flag RUN).drop content.length).take 16 =
      lowFirst (crc16 content) 16 := by
    rw [checked, List.append_assoc, List.drop_left, List.take_left' (length_lowFirst _ _)]
  rw [validContent, hlength, Nat.add_sub_cancel, htake, hdrop, gather_lowFirst, if_pos ⟨by omega, rfl⟩]

theorem of_validContent {frame content : List Bool} (h : validContent frame = some content) :
    frame.length = content.length + 22 ∧ ∃ check last, frame = content ++ check ++ last ∧
      check.length = 16 ∧ last.length = 6 ∧ gather 16 check = crc16 content := by
  rw [validContent] at h
  split at h
  · rename_i hvalid
    cases h
    have hlength := hvalid.1
    refine ⟨?_, (frame.drop (frame.length - 22)).take 16, (frame.drop (frame.length - 22)).drop 16,
      ?_, ?_, ?_, hvalid.2.symm⟩
    · rw [List.length_take]
      omega
    · rw [List.append_assoc, List.take_append_drop, List.take_append_drop]
    · rw [List.length_take, List.length_drop]
      omega
    · rw [List.length_drop, List.length_drop]
      omega
  · cases h

end NaviMisc.Therm

/-!
The receiver of the base station (receiver/receiver.c), whose `int` has 16 bits.
-/

namespace NaviMisc.Therm

open NaviMisc.Lib
open NaviMisc.Lib.BitLists
open NaviMisc.Lib.BitStuffing

inductive Fault
  | outOfBounds (offset : ℤ)

def HEADER_SIZE : ℤ := 6

def int16 (x : ℤ) : ℤ := x.bmod (2 ^ 16)

/-- The static variables; the buffer has `buffer_size` bytes. -/
structure Receiver where
  totalBits : BitVec 16
  totalNoise : BitVec 16
  consecutiveOnes : Byte
  buffer : List Byte
  bufferedBits : ℤ

namespace Receiver

def bufferSize (r : Receiver) : ℤ := r.buffer.length

def load (offset : ℤ) (r : Receiver) : Except Fault Byte :=
  if 0 ≤ offset ∧ offset < r.bufferSize then .ok (r.buffer.getD offset.toNat 0)
  else .error (.outOfBounds offset)

def store (offset : ℤ) (v : Byte) (r : Receiver) : Except Fault Receiver :=
  if 0 ≤ offset ∧ offset < r.bufferSize then .ok { r with buffer := r.buffer.set offset.toNat v }
  else .error (.outOfBounds offset)

/-- A store to an array of `unsigned short`, the low byte first. -/
def storeWord (i : ℤ) (v : BitVec 16) (r : Receiver) : Except Fault Receiver := do
  let r ← r.store (2 * i) (v.setWidth 8)
  r.store (2 * i + 1) ((v >>> 8).setWidth 8)

def setBuffer (buffer : List Byte) (r : Receiver) : Receiver :=
  { r with buffer := buffer, bufferedBits := 0 }

/-- Only the count can leave the range of an `int`. -/
def appendBit (b : Bool) (r : Receiver) : Except Fault Receiver :=
  let offset := HEADER_SIZE + r.bufferedBits >>> (3 : ℕ)
  let mask := 1#8 <<< (r.bufferedBits % 8).toNat
  if offset ≥ r.bufferSize then .ok r
  else do
    let v ← r.load offset
    let r ← r.store offset (if b then v ||| mask else v &&& ~~~mask)
    .ok { r with bufferedBits := int16 (r.bufferedBits + 1) }

def getBit (bitOffset : ℤ) (r : Receiver) : Except Fault Bool :=
  let offset := HEADER_SIZE + bitOffset >>> (3 : ℕ)
  let mask := 1#8 <<< (bitOffset % 8).toNat
  if bitOffset ≥ r.bufferedBits then .ok false
  else do
    let v ← r.load offset
    .ok (decide (v &&& mask ≠ 0))

/-- A loop over `width` bits. -/
def overBits {σ : Type} (bitOffset width : ℤ) (f : σ → Bool → σ) (s : σ) (r : Receiver) :
    Except Fault σ :=
  (List.range width.toNat).foldlM (fun s (j : ℕ) => do .ok (f s (← r.getBit (bitOffset + j)))) s

def getInt (bitOffset width : ℤ) (r : Receiver) : Except Fault (BitVec 16) := do
  .ok (← r.overBits bitOffset width collect (0#16, 1#16)).1

def getCrc16 (bitOffset width : ℤ) (r : Receiver) : Except Fault (BitVec 16) := do
  let crc ← r.overBits bitOffset width crcStep 0
  .ok ((List.replicate 16 false).foldl crcStep crc)

def validateFrame (r : Receiver) : Except Fault (ℤ × Receiver) :=
  if r.bufferedBits < 16 + 6 then .ok (0, r)
  else do
    let r := { r with bufferedBits := r.bufferedBits - 6 }
    let crc ← r.getCrc16 0 (r.bufferedBits - 16)
    let check ← r.getInt (r.bufferedBits - 16) 16
    if crc ≠ check then .ok (0, r)
    else do
      let r := { r with bufferedBits := r.bufferedBits - 16 }
      let r ← r.storeWord 0 (BitVec.ofInt 16 r.bufferedBits)
      let r ← r.storeWord 1 r.totalNoise
      let r ← r.storeWord 2 r.totalBits
      .ok (HEADER_SIZE + (r.bufferedBits + 7 : ℤ) >>> (3 : ℕ), r)

def pushBit (b : Bool) (noise : Byte) (r : Receiver) : Except Fault (ℤ × Receiver) :=
  let r := { r with
    totalBits := r.totalBits + 1, totalNoise := r.totalNoise + noise.setWidth 16 }
  if b then do
    let r := { r with consecutiveOnes := r.consecutiveOnes + 1 }
    .ok (0, ← r.appendBit b)
  else if r.consecutiveOnes = 3 then
    .ok (0, { r with consecutiveOnes := 0 })
  else if r.consecutiveOnes = 4 then do
    let r ← r.appendBit b
    let (retval, r) ← r.validateFrame
    .ok (retval,
      { r with totalBits := 0, totalNoise := 0, bufferedBits := 0, consecutiveOnes := 0 })
  else do
    let r ← r.appendBit b
    .ok (0, { r with consecutiveOnes := 0 })

def receive (l : List (Bool × Byte)) (r : Receiver) : Except Fault (ℤ × Receiver) :=
  l.foldlM (fun s b => s.2.pushBit b.1 b.2) (0, r)

end Receiver

end NaviMisc.Therm
