import NaviMisc.Lib.Outcome
import NaviMisc.Therm.Frame

/-!
The packets of the daemon (daemon/receiver.c), whose `int` has 32 bits.
-/

namespace NaviMisc.Therm

open NaviMisc.Lib.BitLists
open NaviMisc.Lib.Outcome

/-- A read outside of the buffer of a packet of the given sizes, an assertion that fails, or
behaviour that the language leaves undefined. -/
inductive Failure
  | outOfBounds (bufferBytes : ℤ) (bufferBits : ℕ)
  | assertion
  | undefined
  deriving DecidableEq

/-- The operations on `float`. -/
structure Floats (F : Type) where
  literal : ℚ → F
  ofInt : ℤ → F
  mul : F → F → F
  div : F → F → F
  lt : F → F → Bool

structure RxPacket (F : Type) where
  bufferBytes : ℤ
  bufferBits : ℕ
  signalStrength : F
  buffer : List Byte
  currentBit : ℕ

def THERMRX_BUFFER_SIZE : ℕ := 64

/-- Whether there is memory of a size: always for a small one, and never for one that is negative
as a difference of pointers. -/
structure Allocator where
  width : ℕ
  malloc : ℕ → Bool
  packetSize : ℕ
  wide : 32 ≤ width
  packet : packetSize ≤ THERMRX_BUFFER_SIZE
  small : ∀ size ≤ THERMRX_BUFFER_SIZE, malloc size = true
  huge : ∀ size, 2 ^ (width - 1) ≤ size → malloc size = false

/-- The conversion of an `int` to `size_t`. -/
def Allocator.sizeT (alloc : Allocator) (x : ℤ) : ℕ := (x % 2 ^ alloc.width).toNat

theorem Allocator.sizeT_of_nonneg (alloc : Allocator) {k : ℕ} (hk : k ≤ THERMRX_BUFFER_SIZE) :
    alloc.sizeT k = k := by
  have hwide : 2 ^ 32 ≤ 2 ^ alloc.width := Nat.pow_le_pow_right (by decide) alloc.wide
  have hlt : k < 2 ^ alloc.width := by
    rw [THERMRX_BUFFER_SIZE] at hk
    omega
  rw [sizeT]
  have hmod : (k : ℤ) % 2 ^ alloc.width = ((k % 2 ^ alloc.width : ℕ) : ℤ) := by push_cast; rfl
  rw [hmod, Int.toNat_natCast, Nat.mod_eq_of_lt hlt]

namespace RxPacket

variable {F : Type}

def load (offset : ℕ) (p : RxPacket F) : Except Failure Byte :=
  if offset < p.bufferBytes then .ok (p.buffer.getD offset 0)
  else .error (.outOfBounds p.bufferBytes p.bufferBits)

def rewind (p : RxPacket F) : RxPacket F := { p with currentBit := 0 }

def readBit (p : RxPacket F) : Except Failure (Bool × RxPacket F) :=
  let offset := p.currentBit >>> 3
  let mask := 1#8 <<< (p.currentBit % 8)
  if p.currentBit ≥ p.bufferBits then .ok (false, p)
  else do
    let v ← p.load offset
    .ok (decide (v &&& mask ≠ 0), { p with currentBit := p.currentBit + 1 })

/-- The loop of `packet_read_int`. -/
def readBits : ℕ → BitVec 32 × BitVec 32 → RxPacket F → Except Failure (BitVec 32 × RxPacket F)
  | 0, s, p => .ok (s.1, p)
  | width + 1, s, p => do
    let (b, p) ← p.readBit
    p.readBits width (collect s b)

/-- A negative width is compared as a large one. -/
def readInt (width : ℤ) (p : RxPacket F) : Except Failure (BitVec 32 × RxPacket F) :=
  if 0 ≤ width ∧ width ≤ 32 then p.readBits width.toNat (0#32, 1#32) else .error .assertion

/-- A shift by `width - 1` is undefined if the width is zero. -/
def readSignedInt (width : ℤ) (p : RxPacket F) : Except Failure (BitVec 32 × RxPacket F) := do
  let (i, p) ← p.readInt width
  if width > 31 then .error .assertion
  else if width = 0 then .error .undefined
  else if i &&& 1#32 <<< (width - 1).toNat ≠ 0 then .ok (i - 1#32 <<< width.toNat, p)
  else .ok (i, p)

/-- The loop of `packet_cmp`, over what holds the two packets. -/
def cmpLoop {σ : Type} (readA readB : σ → Except Failure (Bool × σ)) :
    ℕ → σ → Except Failure (ℤ × σ)
  | 0, s => .ok (0, s)
  | n + 1, s => do
    let (a, s) ← readA s
    let (b, s) ← readB s
    if b && !a then .ok (1, s)
    else if a && !b then .ok (-1, s)
    else cmpLoop readA readB n s

def readFirst (s : RxPacket F × RxPacket F) :
    Except Failure (Bool × RxPacket F × RxPacket F) := do
  let (b, p) ← s.1.readBit
  .ok (b, p, s.2)

def readSecond (s : RxPacket F × RxPacket F) :
    Except Failure (Bool × RxPacket F × RxPacket F) := do
  let (b, p) ← s.2.readBit
  .ok (b, s.1, p)

/-- `packet_cmp` of two packets, either of which may be `NULL`. -/
def cmp (a b : Option (RxPacket F)) :
    Except Failure (ℤ × Option (RxPacket F) × Option (RxPacket F)) :=
  match a, b with
  | none, some b => .ok (1, none, some b)
  | some a, none => .ok (-1, some a, none)
  | none, none => .ok (0, none, none)
  | some a, some b =>
    if a.bufferBits < b.bufferBits then .ok (-1, some a, some b)
    else if a.bufferBits > b.bufferBits then .ok (-1, some a, some b)
    else do
      let (retval, a', b') ← cmpLoop readFirst readSecond a.bufferBits (a.rewind, b.rewind)
      .ok (retval, some { a' with currentBit := a.currentBit },
        some { b' with currentBit := b.currentBit })

/-- `packet_cmp` of a packet with itself, which has one cursor. -/
def cmpSelf (p : RxPacket F) : Except Failure (ℤ × RxPacket F) := do
  let (retval, p') ← cmpLoop readBit readBit p.bufferBits p.rewind
  .ok (retval, { p' with currentBit := p.currentBit })

def dup (alloc : Allocator) (p : RxPacket F) : Except Failure (RxPacket F) :=
  if alloc.malloc alloc.packetSize ∧ alloc.malloc (alloc.sizeT p.bufferBytes) then
    .ok { p with buffer := p.buffer.take p.bufferBytes.toNat }
  else
    .error .assertion

end RxPacket

section Read

variable {F : Type} (alloc : Allocator) (ops : Floats F)

def headerInt (buffer : List Byte) (i : ℕ) : ℕ :=
  (buffer.getD i 0).toNat ||| (buffer.getD (i + 1) 0).toNat <<< 8

/-- `receiver_read`, with the buffer after the transfer and what `ioctl` returned. -/
def receiverRead (buffer : List Byte) (retval : ℤ) : Except Failure (Option (RxPacket F)) :=
  if retval ≤ 0 then .ok none
  else if ¬alloc.malloc alloc.packetSize then .error .assertion
  else
    let bufferBytes := retval - 6
    if ¬alloc.malloc (alloc.sizeT bufferBytes) then .error .assertion
    else
      let noise : ℤ := headerInt buffer 2
      let total : ℤ := headerInt buffer 4
      let signalStrength := ops.div (ops.ofInt (total * 4 - noise))
        (ops.mul (ops.ofInt total) (ops.literal 4))
      .ok (some {
        bufferBytes := bufferBytes
        bufferBits := headerInt buffer 0
        signalStrength :=
          if ops.lt signalStrength (ops.ofInt 0) then ops.ofInt 0 else signalStrength
        buffer := (buffer.drop 6).take bufferBytes.toNat
        currentBit := 0 })

end Read

end NaviMisc.Therm

/-!
What the calls on a packet tell of its content, which is all in its buffer.
-/

namespace NaviMisc.Therm

open NaviMisc.Lib.BitLists
open NaviMisc.Lib.Bits

namespace RxPacket

variable {F : Type}

def content (p : RxPacket F) : List Bool := firstBits p.buffer p.bufferBits

def seek (p : RxPacket F) (c : ℕ) : RxPacket F := { p with currentBit := c }

structure Whole (p : RxPacket F) : Prop where
  inside : p.bufferBits ≤ 8 * p.bufferBytes
  size : p.bufferBytes ≤ THERMRX_BUFFER_SIZE
  length : p.buffer.length = p.bufferBytes

variable {p : RxPacket F} {c : ℕ}

@[simp] theorem length_content (p : RxPacket F) : p.content.length = p.bufferBits :=
  length_firstBits _ _

theorem drop_content (hc : c < p.bufferBits) :
    p.content.drop c = p.content.getD c false :: p.content.drop (c + 1) := by
  rw [← length_content] at hc
  rw [List.drop_eq_getElem_cons hc, List.getD_eq_getElem _ _ hc]

theorem Whole.seek (h : p.Whole) (c : ℕ) : (p.seek c).Whole := ⟨h.inside, h.size, h.length⟩

theorem readBit_of_end (hc : p.bufferBits ≤ c) : (p.seek c).readBit = .ok (false, p.seek c) :=
  if_pos hc

theorem readBit_content (hinside : p.bufferBits ≤ 8 * p.bufferBytes) (hc : c < p.bufferBits) :
    (p.seek c).readBit = .ok (p.content.getD c false, p.seek (c + 1)) := by
  have hload : (p.seek c).load (c / 8) = .ok (p.buffer.getD (c / 8) 0) := if_pos (by
    change ((c / 8 : ℕ) : ℤ) < p.bufferBytes
    omega)
  have hbit : decide (p.buffer.getD (c / 8) 0 &&& 1#8 <<< (c % 8) ≠ 0) = p.content.getD c false := by
    have hget : p.content.getD c false = wordsBit p.buffer c := by
      simp [content, firstBits, hc]
    rw [hget, wordsBit, Bool.eq_iff_iff, decide_eq_true_iff, ← Bool.not_eq_false]
    exact not_congr (and_one_shiftLeft_eq_zero_iff _ (Nat.mod_lt c (by decide)))
  rw [← hbit, readBit]
  change (if c ≥ p.bufferBits then _ else _) = _
  rw [if_neg (Nat.not_le_of_lt hc), show (p.seek c).currentBit = c from rfl,
    Nat.shiftRight_eq_div_pow, hload]
  rfl

theorem readBits_content (h : p.Whole) (hc : c ≤ p.bufferBits) (width : ℕ)
    (s : BitVec 32 × BitVec 32) :
    (p.seek c).readBits width s = .ok ((((p.content.drop c).take width).foldl collect s).1,
      p.seek (min (c + width) p.bufferBits)) := by
  induction width generalizing c s with
  | zero =>
    rw [Nat.add_zero, Nat.min_eq_left hc]
    rfl
  | succ width ih =>
    rw [readBits]
    rcases Nat.lt_or_eq_of_le hc with hlt | rfl
    · have hcursor : c + (width + 1) = c + 1 + width := by omega
      rw [readBit_content h.inside hlt, drop_content hlt, List.take_succ_cons, List.foldl_cons, hcursor]
      exact ih hlt _
    · have hdrop : p.content.drop p.bufferBits = [] := List.drop_of_length_le (by simp)
      have hrest := ih le_rfl (collect s false)
      rw [hdrop, List.take_nil] at hrest
      rw [readBit_of_end le_rfl, hdrop, List.take_nil, Nat.min_eq_right (Nat.le_add_right _ _)]
      rw [Nat.min_eq_right (Nat.le_add_right _ _)] at hrest
      exact hrest

theorem readInt_content (h : p.Whole) (hc : c ≤ p.bufferBits) {width : ℕ} (hwidth : width ≤ 32) :
    (p.seek c).readInt width = .ok (gather 32 ((p.content.drop c).take width),
      p.seek (min (c + width) p.bufferBits)) := by
  rw [readInt, if_pos (by omega), Int.toNat_natCast, readBits_content h hc, foldl_collect]

theorem readSignedInt_content (h : p.Whole) (hc : c ≤ p.bufferBits) {width : ℕ}
    (hpos : 0 < width) (hwidth : width ≤ 31) :
    (p.seek c).readSignedInt width =
      .ok ((gather width ((p.content.drop c).take width)).signExtend 32,
        p.seek (min (c + width) p.bufferBits)) := by
  obtain ⟨u, hu, hword⟩ : ∃ u, gather width ((p.content.drop c).take width) = u ∧
      gather 32 ((p.content.drop c).take width) = u.setWidth 32 := by
    refine ⟨_, rfl, ?_⟩
    rw [gather_setWidth 32 (List.length_take_le _ _)]
  have hsub : ((width : ℤ) - 1).toNat = width - 1 := by omega
  have hsign : (u.setWidth 32).getLsbD (width - 1) = u.msb := by
    rw [BitVec.getLsbD_setWidth, decide_eq_true (by omega), Bool.true_and,
      BitVec.msb_eq_getLsbD_last]
  rw [readSignedInt, readInt_content h hc (by omega), hu, hword]
  change (if (width : ℤ) > 31 then _ else _) = _
  rw [if_neg (by omega), if_neg (by omega), hsub, Int.toNat_natCast]
  by_cases hmsb : u.msb = true
  · rw [if_pos, ← setWidth_sub_of_msb 32 hmsb]
    intro hzero
    have hclear := (and_one_shiftLeft_eq_zero_iff _ (by omega)).mp hzero
    rw [hsign, hmsb] at hclear
    cases hclear
  · rw [Bool.not_eq_true] at hmsb
    rw [if_neg, BitVec.signExtend_eq_setWidth_of_msb_false hmsb]
    rw [not_not]
    exact (and_one_shiftLeft_eq_zero_iff _ (by omega)).mpr (hsign.trans hmsb)

def compareBits : List Bool → List Bool → ℤ
  | a :: as, b :: bs => if b && !a then 1 else if a && !b then -1 else compareBits as bs
  | _, _ => 0

theorem compareBits_eq_zero {as bs : List Bool} (h : as.length = bs.length) :
    compareBits as bs = 0 ↔ as = bs := by
  induction as generalizing bs with
  | nil =>
    rw [List.eq_nil_of_length_eq_zero h.symm]
    exact iff_of_true rfl rfl
  | cons a as ih =>
    obtain ⟨b, bs, rfl⟩ := List.exists_cons_of_length_eq_add_one h.symm
    have hrest := ih (Nat.succ.inj h)
    cases a <;> cases b <;> simp [compareBits, hrest]

variable {a b : RxPacket F}

theorem cmpLoop_content (ha : a.bufferBits ≤ 8 * a.bufferBytes)
    (hb : b.bufferBits ≤ 8 * b.bufferBytes) (hbits : a.bufferBits = b.bufferBits) {n : ℕ}
    (hn : c + n = a.bufferBits) :
    ∃ c', cmpLoop readFirst readSecond n (a.seek c, b.seek c) =
      .ok (compareBits (a.content.drop c) (b.content.drop c), a.seek c', b.seek c') := by
  induction n generalizing c with
  | zero =>
    refine ⟨c, ?_⟩
    rw [List.drop_of_length_le (by simp; omega), List.drop_of_length_le (by simp; omega)]
    rfl
  | succ n ih =>
    have hca : c < a.bufferBits := by omega
    have hcb : c < b.bufferBits := by omega
    obtain ⟨c', hrest⟩ := ih (c := c + 1) (by omega)
    have hfirst : readFirst (a.seek c, b.seek c) =
        .ok (a.content.getD c false, a.seek (c + 1), b.seek c) := by
      rw [readFirst, readBit_content ha hca]
      rfl
    have hsecond : readSecond (a.seek (c + 1), b.seek c) =
        .ok (b.content.getD c false, a.seek (c + 1), b.seek (c + 1)) := by
      rw [readSecond, readBit_content hb hcb]
      rfl
    rw [drop_content hca, drop_content hcb, cmpLoop, hfirst]
    change ∃ c', (readSecond (a.seek (c + 1), b.seek c) >>= _) = _
    rw [hsecond, compareBits]
    rcases a.content.getD c false with - | - <;> rcases b.content.getD c false with - | -
    · exact ⟨c', hrest⟩
    · exact ⟨c + 1, rfl⟩
    · exact ⟨c + 1, rfl⟩
    · exact ⟨c', hrest⟩

theorem cmp_same_length (ha : a.bufferBits ≤ 8 * a.bufferBytes)
    (hb : b.bufferBits ≤ 8 * b.bufferBytes) (hbits : a.bufferBits = b.bufferBits) :
    cmp (some a) (some b) = .ok (compareBits a.content b.content, some a, some b) := by
  obtain ⟨c', hloop⟩ := cmpLoop_content ha hb hbits (c := 0) (Nat.zero_add a.bufferBits)
  rw [cmp, if_neg (by omega), if_neg (by omega)]
  change (cmpLoop readFirst readSecond a.bufferBits (a.seek 0, b.seek 0) >>= _) = _
  rw [hloop]
  rfl

theorem cmp_other_length (hbits : a.bufferBits ≠ b.bufferBits) :
    cmp (some a) (some b) = .ok (-1, some a, some b) := by
  rw [cmp]
  split_ifs
  · rfl
  · rfl
  · omega

theorem cmp_content (ha : a.Whole) (hb : b.Whole) :
    ∃ z, cmp (some a) (some b) = .ok (z, some a, some b) ∧ (z = 0 ↔ a.content = b.content) := by
  by_cases hbits : a.bufferBits = b.bufferBits
  · exact ⟨_, cmp_same_length ha.inside hb.inside hbits, compareBits_eq_zero (by simpa using hbits)⟩
  · refine ⟨_, cmp_other_length hbits, iff_of_false (by decide) ?_⟩
    intro heq
    exact hbits (by simpa using congrArg List.length heq)

theorem dup_whole (alloc : Allocator) (h : p.Whole) : p.dup alloc = .ok p := by
  have hinside := h.inside
  have hsize := h.size
  have hlength := h.length
  obtain ⟨k, hk⟩ := Int.eq_ofNat_of_zero_le (show 0 ≤ p.bufferBytes by omega)
  have hmalloc : alloc.malloc (alloc.sizeT p.bufferBytes) = true := by
    rw [hk, alloc.sizeT_of_nonneg (by omega)]
    exact alloc.small k (by omega)
  rw [dup, if_pos ⟨alloc.small _ alloc.packet, hmalloc⟩, List.take_of_length_le (by omega)]

end RxPacket

end NaviMisc.Therm
