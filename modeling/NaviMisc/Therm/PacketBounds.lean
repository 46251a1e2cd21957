import NaviMisc.Therm.Packet

/-!
Which bytes the calls on a packet read.
-/

namespace NaviMisc.Therm

open NaviMisc.Lib
open NaviMisc.Lib.BitLists
open NaviMisc.Lib.Outcome

variable {F : Type}

structure Transfer where
  buffer : List Byte
  length_eq : buffer.length = THERMRX_BUFFER_SIZE
  count : ℕ
  pos : 0 < count
  le : count ≤ THERMRX_BUFFER_SIZE

def Transfer.bits (x : Transfer) : ℕ := headerInt x.buffer 0

inductive Call (F : Type)
  | readBit
  | readInt (width : ℤ)
  | readSignedInt (width : ℤ)
  | rewind
  | cmp (b : Option (RxPacket F))
  | cmpWith (a : Option (RxPacket F))
  | cmpSelf

def RxPacket.call (p : RxPacket F) : Call F → Except Failure (RxPacket F)
  | .readBit => do .ok (← p.readBit).2
  | .readInt width => do .ok (← p.readInt width).2
  | .readSignedInt width => do .ok (← p.readSignedInt width).2
  | .rewind => .ok p.rewind
  | .cmp b => do .ok ((← RxPacket.cmp (some p) b).2.1.getD p)
  | .cmpWith a => do .ok ((← RxPacket.cmp a (some p)).2.2.getD p)
  | .cmpSelf => do .ok (← p.cmpSelf).2

def RxPacket.run (calls : List (Call F)) (p : RxPacket F) : Except Failure (RxPacket F) :=
  calls.foldlM RxPacket.call p

section Inside

variable {n : ℤ} {m : ℕ}

def Inside {α : Type} (n : ℤ) (m : ℕ) : Except Failure α → Prop :=
  Yields (fun e => e ≠ .outOfBounds n m) fun _ => True

theorem Inside.bind {α β : Type} {r : Except Failure α} {f : α → Except Failure β}
    (h : Inside n m r) (hf : ∀ a, Inside n m (f a)) : Inside n m (r >>= f) :=
  Yields.bind h fun a _ => hf a

theorem inside_ok {α : Type} (a : α) : Inside n m (.ok a) := trivial

theorem readBit_inside (h : m ≤ 8 * n) (p : RxPacket F) : Inside n m p.readBit := by
  rw [RxPacket.readBit]
  split_ifs with hend
  · exact inside_ok _
  · refine Inside.bind ?_ fun _ => inside_ok _
    rw [RxPacket.load, Nat.shiftRight_eq_div_pow]
    split_ifs with hlt
    · exact inside_ok _
    · rintro ⟨⟩
      omega

theorem readBits_inside (h : m ≤ 8 * n) (width : ℕ) (s : BitVec 32 × BitVec 32) (p : RxPacket F) :
    Inside n m (p.readBits width s) := by
  induction width generalizing s p with
  | zero => exact inside_ok _
  | succ width ih => exact (readBit_inside h p).bind fun r => ih (collect s r.1) r.2

theorem readInt_inside (h : m ≤ 8 * n) (width : ℤ) (p : RxPacket F) :
    Inside n m (p.readInt width) := by
  rw [RxPacket.readInt]
  split_ifs
  · exact readBits_inside h _ _ p
  · rintro ⟨⟩

theorem readSignedInt_inside (h : m ≤ 8 * n) (width : ℤ) (p : RxPacket F) :
    Inside n m (p.readSignedInt width) := by
  refine (readInt_inside h width p).bind fun r => ?_
  dsimp only
  split_ifs
  · rintro ⟨⟩
  · rintro ⟨⟩
  · exact inside_ok _
  · exact inside_ok _

theorem cmpLoop_inside {σ : Type} {readA readB : σ → Except Failure (Bool × σ)}
    (hA : ∀ s, Inside n m (readA s)) (hB : ∀ s, Inside n m (readB s)) (k : ℕ) (s : σ) :
    Inside n m (RxPacket.cmpLoop readA readB k s) := by
  induction k generalizing s with
  | zero => exact inside_ok _
  | succ k ih =>
    refine (hA s).bind fun a => (hB a.2).bind fun b => ?_
    dsimp only
    split_ifs
    · exact inside_ok _
    · exact inside_ok _
    · exact ih b.2

theorem cmp_inside (h : m ≤ 8 * n) (a b : Option (RxPacket F)) :
    Inside n m (RxPacket.cmp a b) := by
  cases a with
  | none => cases b <;> exact inside_ok _
  | some a =>
    cases b with
    | none => exact inside_ok _
    | some b =>
      rw [RxPacket.cmp]
      split_ifs
      · exact inside_ok _
      · exact inside_ok _
      · refine (cmpLoop_inside (fun s => ?_) (fun s => ?_) _ _).bind fun _ => inside_ok _
        · exact (readBit_inside h s.1).bind fun _ => inside_ok _
        · exact (readBit_inside h s.2).bind fun _ => inside_ok _

theorem cmpSelf_inside (h : m ≤ 8 * n) (p : RxPacket F) : Inside n m p.cmpSelf :=
  (cmpLoop_inside (readBit_inside h) (readBit_inside h) _ _).bind fun _ => inside_ok _

theorem call_inside (h : m ≤ 8 * n) (c : Call F) (p : RxPacket F) : Inside n m (p.call c) := by
  cases c with
  | readBit => exact (readBit_inside h p).bind fun _ => inside_ok _
  | readInt width => exact (readInt_inside h width p).bind fun _ => inside_ok _
  | readSignedInt width => exact (readSignedInt_inside h width p).bind fun _ => inside_ok _
  | rewind => exact inside_ok _
  | cmp b => exact (cmp_inside h (some p) b).bind fun _ => inside_ok _
  | cmpWith a => exact (cmp_inside h a (some p)).bind fun _ => inside_ok _
  | cmpSelf => exact (cmpSelf_inside h p).bind fun _ => inside_ok _

theorem run_inside (h : m ≤ 8 * n) (calls : List (Call F)) (p : RxPacket F) :
    Inside n m (p.run calls) := by
  induction calls generalizing p with
  | nil => exact inside_ok _
  | cons c calls ih => exact (call_inside h c p).bind ih

end Inside

theorem readBit_of_lt {p : RxPacket F} (hbits : p.currentBit < p.bufferBits) :
    p.readBit = (do
      let v ← p.load (p.currentBit / 8)
      .ok (decide (v &&& 1#8 <<< (p.currentBit % 8) ≠ 0),
        { p with currentBit := p.currentBit + 1 })) := by
  rw [RxPacket.readBit, if_neg (Nat.not_le_of_lt hbits), Nat.shiftRight_eq_div_pow]

theorem run_readBits (p : RxPacket F) {k : ℕ} (hbits : p.currentBit + k ≤ p.bufferBits)
    (hbytes : p.currentBit + k ≤ 8 * p.bufferBytes) :
    p.run (List.replicate k .readBit) = .ok { p with currentBit := p.currentBit + k } := by
  induction k generalizing p with
  | zero => rfl
  | succ k ih =>
    have hload : p.load (p.currentBit / 8) = .ok (p.buffer.getD (p.currentBit / 8) 0) :=
      if_pos (by omega)
    have hcall : p.call .readBit = .ok { p with currentBit := p.currentBit + 1 } := by
      rw [RxPacket.call, readBit_of_lt (by omega), hload]
      rfl
    rw [List.replicate_succ, RxPacket.run, List.foldlM_cons, hcall]
    refine (ih { p with currentBit := p.currentBit + 1 } ?_ ?_).trans ?_
    · dsimp only
      omega
    · dsimp only
      omega
    · dsimp only
      rw [Nat.add_right_comm, Nat.add_assoc]

theorem readBit_outside {p : RxPacket F} (hbits : p.currentBit < p.bufferBits)
    (hbytes : 8 * p.bufferBytes ≤ p.currentBit) :
    p.call .readBit = .error (.outOfBounds p.bufferBytes p.bufferBits) := by
  have hload : p.load (p.currentBit / 8) = .error (.outOfBounds p.bufferBytes p.bufferBits) :=
    if_neg (by omega)
  rw [RxPacket.call, readBit_of_lt hbits, hload]
  rfl

theorem inside_iff {p : RxPacket F} (hstart : p.currentBit = 0) (hbytes : 0 ≤ p.bufferBytes) :
    (∀ calls, p.run calls ≠ .error (.outOfBounds p.bufferBytes p.bufferBits)) ↔
      p.bufferBits ≤ 8 * p.bufferBytes := by
  constructor
  · intro h
    by_contra hlt
    obtain ⟨k, hk⟩ := Int.eq_ofNat_of_zero_le hbytes
    apply h (List.replicate (8 * k) .readBit ++ [.readBit])
    have hall := run_readBits p (k := 8 * k) (by omega) (by omega)
    rw [RxPacket.run, List.foldlM_append, ← RxPacket.run, hall]
    have hread := readBit_outside (p := { p with currentBit := p.currentBit + 8 * k })
      (show p.currentBit + 8 * k < p.bufferBits by omega)
      (show 8 * p.bufferBytes ≤ ((p.currentBit + 8 * k : ℕ) : ℤ) by omega)
    change (do let p ← RxPacket.call _ _; .ok p : Except Failure (RxPacket F)) = _
    rw [hread]
    rfl
  · intro h calls hfails
    have hinside := run_inside h calls p
    rw [hfails] at hinside
    exact hinside rfl

section Read

variable (alloc : Allocator) (ops : Floats F)

theorem malloc_of_neg {x : ℤ} (hneg : x < 0) (hx : -6 ≤ x) :
    alloc.malloc (alloc.sizeT x) = false := by
  apply alloc.huge
  have hwide : 2 ^ 31 ≤ 2 ^ (alloc.width - 1) := by
    have hwidth := alloc.wide
    exact Nat.pow_le_pow_right (by decide) (by omega)
  have hdouble : 2 ^ alloc.width = 2 * 2 ^ (alloc.width - 1) := by
    have hwidth := alloc.wide
    rw [← Nat.pow_succ', Nat.succ_eq_add_one, Nat.sub_add_cancel (by omega)]
  have hcast : (2 : ℤ) ^ alloc.width = ((2 ^ alloc.width : ℕ) : ℤ) := by push_cast; rfl
  have hmod : x % 2 ^ alloc.width = ((2 ^ alloc.width : ℕ) : ℤ) + x := by
    rw [hcast, ← Int.add_emod_left]
    exact Int.emod_eq_of_lt (by omega) (by omega)
  rw [Allocator.sizeT, hmod]
  omega

theorem receiverRead_of_lt {x : Transfer} (h : x.count < 6) :
    receiverRead alloc ops x.buffer x.count = .error .assertion := by
  have hpos := x.pos
  rw [receiverRead, if_neg (by omega), if_neg (by simp [alloc.small _ alloc.packet])]
  dsimp only
  rw [if_pos]
  rw [malloc_of_neg alloc (by omega) (by omega)]
  exact Bool.false_ne_true

theorem receiverRead_of_le {x : Transfer} (h : 6 ≤ x.count) :
    ∃ p, receiverRead alloc ops x.buffer x.count = .ok (some p) ∧
      p.bufferBytes = ((x.count - 6 : ℕ) : ℤ) ∧ p.bufferBits = x.bits ∧ p.currentBit = 0 ∧
        p.buffer = (x.buffer.drop 6).take (x.count - 6) := by
  have hsub : (x.count : ℤ) - 6 = ((x.count - 6 : ℕ) : ℤ) := by omega
  have hle := x.le
  have hmalloc : alloc.malloc (alloc.sizeT ((x.count - 6 : ℕ) : ℤ)) = true := by
    rw [alloc.sizeT_of_nonneg (by omega)]
    exact alloc.small _ (by omega)
  rw [receiverRead, if_neg (by omega), if_neg (by simp [alloc.small _ alloc.packet])]
  dsimp only
  rw [hsub, if_neg (by simp [hmalloc])]
  exact ⟨_, rfl, rfl, rfl, rfl, rfl⟩

/-- A packet is read inside of its buffer by all calls exactly if the transfer has a header, and
as many bits as the header says. -/
theorem reads_stay_inside (x : Transfer) :
    (∃ p, receiverRead alloc ops x.buffer x.count = .ok (some p) ∧
      ∀ calls, p.run calls ≠ .error (.outOfBounds p.bufferBytes p.bufferBits)) ↔
        6 ≤ x.count ∧ x.bits ≤ 8 * (x.count - 6) := by
  by_cases h : 6 ≤ x.count
  · obtain ⟨p, hp, hbytes, hbits, hstart, -⟩ := receiverRead_of_le alloc ops h
    have hinside := inside_iff hstart (by omega)
    rw [hbytes, hbits] at hinside
    rw [and_iff_right h]
    constructor
    · rintro ⟨p', hp', hcalls⟩
      rw [hp] at hp'
      cases hp'
      rw [hbytes, hbits] at hcalls
      exact_mod_cast hinside.mp hcalls
    · intro hle
      refine ⟨p, hp, ?_⟩
      rw [hbytes, hbits]
      exact hinside.mpr (by exact_mod_cast hle)
  · apply iff_of_false
    · rintro ⟨p, hp, -⟩
      rw [receiverRead_of_lt alloc ops (by omega)] at hp
      cases hp
    · exact fun hle => h hle.1

def plainAllocator : Allocator where
  width := 32
  malloc size := decide (size < 2 ^ 31)
  packetSize := 20
  wide := Nat.le_refl 32
  packet := by decide
  small size h := decide_eq_true (Nat.lt_of_le_of_lt h (by decide))
  huge size h := decide_eq_false (Nat.not_lt_of_le h)

def longTransfer : Transfer where
  buffer := 9 :: List.replicate 63 0
  length_eq := rfl
  count := 7
  pos := by decide
  le := by decide

theorem reads_leave_buffer : ¬ ∀ (alloc : Allocator) (ops : Floats Unit) (x : Transfer),
    ∃ p, receiverRead alloc ops x.buffer x.count = .ok (some p) ∧
      ∀ calls, p.run calls ≠ .error (.outOfBounds p.bufferBytes p.bufferBits) := by
  intro h
  obtain ⟨p, hp, hcalls⟩ := h plainAllocator
    ⟨fun _ => (), fun _ => (), fun _ _ => (), fun _ _ => (), fun _ _ => false⟩ longTransfer
  cases hp
  exact hcalls [.readInt 9] rfl

end Read

end NaviMisc.Therm
