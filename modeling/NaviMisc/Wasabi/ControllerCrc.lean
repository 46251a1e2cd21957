import Mathlib.Data.List.Range
import Mathlib.Data.Nat.Bitwise

/-!
The checksum of a controller's bus (devices/cube64/notes/crc.py), from a table with an entry for
each bit and from one with a bit for each bit.
-/

namespace NaviMisc.Wasabi.ControllerCrc

abbrev Packet := Vector (BitVec 8) 32
abbrev Table := Vector (BitVec 8) 256

def rotateLeft (x n : ℕ) : ℕ := (x <<< n ||| x >>> (8 - n)) &&& 0xFF

def rotateRight (x n : ℕ) : ℕ := (x >>> n ||| x <<< (8 - n)) &&& 0xFF

section tableCompress

variable (table : Table)

structure Compression where
  b : ℕ
  prev : ℕ
  output : ℕ

def compressBit (s : Compression) (bit : ℕ) : Option Compression :=
  let e := rotateLeft table[s.b]!.toNat bit
  let c := rotateRight (e ^^^ s.prev) bit
  if c = 0x00 ∨ c = 0x42 then
    some ⟨s.b + 1, e, if c ≠ 0 then s.output ||| 1 <<< (7 - bit) else s.output⟩
  else none

def compressByte (s : Compression × List ℕ) : Option (Compression × List ℕ) := do
  let c ← (List.range 8).foldlM (compressBit table) { s.1 with output := 0 }
  return (c, s.2 ++ [c.output])

/-- None where an assertion fails. -/
def tableCompress : Option (List ℕ) := do
  let s ← (List.range 32).foldlM (fun s _ => compressByte table s) (⟨0, 0xCD, 0⟩, [])
  return s.2

end tableCompress

section largeTableCRC

variable (packet : Packet) (table : Table)

def largeBit (byte crc bit : ℕ) : ℕ :=
  if packet[byte]!.toNat &&& 1 <<< (7 - bit) ≠ 0 then crc ^^^ table[byte * 8 + bit]!.toNat else crc

def largeByte (crc byte : ℕ) : ℕ := (List.range 8).foldl (largeBit packet table byte) crc

def largeTableCRC : ℕ := (List.range 32).foldl (largeByte packet table) 0xFF

end largeTableCRC

section smallTableCRC

def defaultTable : List ℕ :=
  [224, 42, 204, 69, 167, 33, 41, 54, 227, 208, 106, 50, 236, 58, 243, 239, 192, 85, 152, 139, 78,
    66, 82, 109, 199, 160, 212, 101, 216, 117, 231, 223]

structure Check where
  crc : ℕ
  y : ℕ

def smallBit (s : Check × ℕ × ℕ) : Check × ℕ × ℕ :=
  let (s, tableByte, packetByte) := s
  let y := if tableByte &&& 0x80 ≠ 0 then s.y ^^^ 0x42 else s.y
  let crc := if packetByte &&& 0x80 ≠ 0 then s.crc ^^^ y else s.crc
  (⟨crc, (y >>> 1 ||| y <<< 7) &&& 0xFF⟩, tableByte <<< 1, packetByte <<< 1)

variable (packet : Packet)

/-- None where the table is too short. -/
def smallByte (table : List ℕ) (s : Check) (byte : ℕ) : Option Check := do
  let tableByte ← table[byte]?
  return (smallBit^[8] (s, tableByte, packet[byte]!.toNat)).1

def smallTableCRC (table : Option (List ℕ)) : Option ℕ := do
  let table := if table.getD [] = [] then defaultTable else table.getD []
  let s ← (List.range 32).foldlM (smallByte packet table) ⟨0xFF, 0xCD⟩
  return s.crc

end smallTableCRC

example : tableCompress (.replicate 256 0) = none := by decide +kernel

example : smallTableCRC (.replicate 32 0) none = some 0xFF := by decide +kernel

section rotate

variable {x y n i : ℕ}

theorem and_255 (x i : ℕ) : (x &&& 0xFF).testBit i = (decide (i < 8) && x.testBit i) := by
  rw [Nat.testBit_and, show 0xFF = 2 ^ 8 - 1 from rfl, Nat.testBit_two_pow_sub_one, Bool.and_comm]

theorem testBit_eq_false (hx : x < 256) (hi : 8 ≤ i) : x.testBit i = false :=
  Nat.testBit_lt_two_pow (hx.trans_le (Nat.pow_le_pow_right (by decide : 0 < 2) hi))

theorem testBit_rotateLeft (hx : x < 256) (hn : n ≤ 8) (hi : i < 8) : (rotateLeft x n).testBit i =
    x.testBit (if n ≤ i then i - n else i + 8 - n) := by
  rw [rotateLeft, and_255, Nat.testBit_or, Nat.testBit_shiftLeft, Nat.testBit_shiftRight]
  split_ifs with hle
  · simp [hi, hle, testBit_eq_false hx (by omega : 8 ≤ 8 - n + i)]
  · simp [hi, hle, show 8 - n + i = i + 8 - n by omega]

theorem testBit_rotateRight (hx : x < 256) (hn : n ≤ 8) (hi : i < 8) :
    (rotateRight x n).testBit i = x.testBit (if i + n < 8 then i + n else i + n - 8) := by
  rw [rotateRight, and_255, Nat.testBit_or, Nat.testBit_shiftLeft, Nat.testBit_shiftRight]
  split_ifs with hlt
  · simp [hi, show ¬8 - n ≤ i by omega, Nat.add_comm]
  · simp [hi, show 8 ≤ i + n by omega, testBit_eq_false hx (by omega : 8 ≤ n + i),
      show i - (8 - n) = i + n - 8 by omega]

theorem rotateLeft_lt (x n : ℕ) : rotateLeft x n < 256 :=
  Nat.and_lt_two_pow (n := 8) _ (by decide)

theorem rotateRight_lt (x n : ℕ) : rotateRight x n < 256 :=
  Nat.and_lt_two_pow (n := 8) _ (by decide)

theorem eq_of_testBit (hx : x < 256) (hy : y < 256) (h : ∀ i < 8, x.testBit i = y.testBit i) :
    x = y := by
  apply Nat.eq_of_testBit_eq
  intro i
  by_cases hi : i < 8
  · exact h i hi
  · rw [testBit_eq_false hx (not_lt.mp hi), testBit_eq_false hy (not_lt.mp hi)]

theorem rotateRight_rotateLeft (hx : x < 256) (hn : n ≤ 8) : rotateRight (rotateLeft x n) n = x := by
  apply eq_of_testBit (rotateRight_lt _ _) hx
  intro i hi
  rw [testBit_rotateRight (rotateLeft_lt _ _) hn hi, testBit_rotateLeft hx hn (by split_ifs <;> omega)]
  congr 1
  split_ifs <;> omega

theorem rotateRight_rotateRight (hx : x < 256) (hn : n < 8) :
    rotateRight (rotateRight x n) 1 = rotateRight x (n + 1) := by
  apply eq_of_testBit (rotateRight_lt _ _) (rotateRight_lt _ _)
  intro i hi
  rw [testBit_rotateRight (rotateRight_lt _ _) (by decide) hi,
    testBit_rotateRight hx hn.le (by split_ifs <;> omega), testBit_rotateRight hx hn hi]
  congr 1
  split_ifs <;> omega

theorem rotateRight_zero (hx : x < 256) : rotateRight x 0 = x := by
  apply eq_of_testBit (rotateRight_lt _ _) hx
  intro i hi
  rw [testBit_rotateRight hx (by decide) hi, if_pos (by omega), Nat.add_zero]

theorem rotateRight_eight (hx : x < 256) : rotateRight x 8 = x := by
  apply eq_of_testBit (rotateRight_lt _ _) hx
  intro i hi
  rw [testBit_rotateRight hx le_rfl hi, if_neg (by omega), Nat.add_sub_cancel]

theorem rotateRight_xor (hx : x < 256) (hy : y < 256) (hn : n ≤ 8) :
    rotateRight (x ^^^ y) n = rotateRight x n ^^^ rotateRight y n := by
  have hxor : x ^^^ y < 256 := Nat.xor_lt_two_pow (n := 8) hx hy
  apply eq_of_testBit (rotateRight_lt _ _)
    (Nat.xor_lt_two_pow (n := 8) (rotateRight_lt _ _) (rotateRight_lt _ _))
  intro i hi
  rw [Nat.testBit_xor, testBit_rotateRight hxor hn hi, testBit_rotateRight hx hn hi,
    testBit_rotateRight hy hn hi, Nat.testBit_xor]

theorem and_bit_ne_zero (x i : ℕ) : x &&& 1 <<< i ≠ 0 ↔ x.testBit i = true := by
  rw [Nat.one_shiftLeft, Nat.and_two_pow]
  cases x.testBit i <;> simp

end rotate

section compress

variable {table : Table}

def frame (table : Table) : ℕ → ℕ
  | 0 => 0xCD
  | b + 1 => rotateLeft table[b]!.toNat (b % 8)

def difference (table : Table) (b : ℕ) : ℕ :=
  rotateRight (frame table (b + 1) ^^^ frame table b) (b % 8)

def Encodes (table : Table) (b output : ℕ) : Prop :=
  (difference table b = 0x00 ∨ difference table b = 0x42) ∧
    (output.testBit (7 - b % 8) = true ↔ difference table b ≠ 0)

theorem frame_lt (table : Table) (b : ℕ) : frame table b < 256 := by
  cases b with
  | zero =>
    rw [frame]
    decide
  | succ b => exact rotateLeft_lt _ _

theorem entry_eq (table : Table) (b : ℕ) :
    rotateRight (frame table b) (b % 8) ^^^ difference table b = table[b]!.toNat := by
  have hb : b % 8 ≤ 8 := (Nat.mod_lt b (by decide)).le
  rw [difference, rotateRight_xor (frame_lt _ _) (frame_lt _ _) hb, Nat.xor_comm,
    Nat.xor_assoc, Nat.xor_self, Nat.xor_zero, frame,
    rotateRight_rotateLeft (BitVec.isLt table[b]!) hb]

theorem rotateRight_entry (table : Table) (b : ℕ) :
    rotateRight table[b]!.toNat 1 = rotateRight (frame table (b + 1)) (b % 8 + 1) := by
  have hb : b % 8 < 8 := Nat.mod_lt b (by decide)
  rw [← rotateRight_rotateRight (frame_lt _ _) hb, frame,
    rotateRight_rotateLeft (BitVec.isLt table[b]!) hb.le]

theorem foldlM_range_succ {σ : Type} (f : σ → ℕ → Option σ) (s : σ) (n : ℕ) :
    (List.range (n + 1)).foldlM f s = (List.range n).foldlM f s >>= fun t => f t n := by
  rw [List.range_succ, List.foldlM_append]
  simp

theorem testBit_setIf (output bit : ℕ) (p : Prop) [Decidable p] (i : ℕ) :
    (if p then output ||| 1 <<< bit else output).testBit i =
      (output.testBit i || decide (p ∧ bit = i)) := by
  split_ifs with hp
  · rw [Nat.testBit_or, Nat.one_shiftLeft, Nat.testBit_two_pow]
    simp [hp]
  · simp [hp]

theorem compressBits_spec {k n : ℕ} (hn : n ≤ 8) {s s' : Compression} (hb : s.b = 8 * k)
    (hprev : s.prev = frame table (8 * k)) (houtput : s.output = 0)
    (h : (List.range n).foldlM (compressBit table) s = some s') :
    s'.b = 8 * k + n ∧ s'.prev = frame table (8 * k + n) ∧
      (∀ i < n, Encodes table (8 * k + i) s'.output) ∧ ∀ i < 8 - n, s'.output.testBit i = false := by
  induction n generalizing s' with
  | zero =>
    cases h
    refine ⟨hb, hprev, by omega, ?_⟩
    simp [houtput]
  | succ n ih =>
    rw [foldlM_range_succ] at h
    obtain ⟨t, ht, h⟩ := Option.bind_eq_some_iff.mp h
    obtain ⟨htb, htprev, hencodes, hlow⟩ := ih (by omega) ht
    have hmod : (8 * k + n) % 8 = n := by omega
    have he : rotateLeft table[t.b]!.toNat n = frame table (8 * k + n + 1) := by
      rw [htb, frame, hmod]
    have hc : rotateRight (frame table (8 * k + n + 1) ^^^ t.prev) n =
        difference table (8 * k + n) := by
      rw [htprev, difference, hmod]
    simp only [compressBit, he, hc] at h
    split at h
    next hsame =>
      cases h
      refine ⟨by rw [htb, Nat.add_assoc], rfl, ?_, ?_⟩
      · intro i hi
        refine ⟨?_, ?_⟩
        · obtain hi | rfl : i < n ∨ i = n := by omega
          · exact (hencodes i hi).1
          · exact hsame
        · rw [testBit_setIf]
          obtain hi | rfl : i < n ∨ i = n := by omega
          · have hne : 7 - n ≠ 7 - (8 * k + i) % 8 := by omega
            rw [← (hencodes i hi).2]
            simp only [hne, and_false, decide_false, Bool.or_false]
          · rw [hmod, hlow (7 - i) (by omega)]
            simp
      · intro i hi
        rw [testBit_setIf, hlow i (by omega)]
        simp [show ¬7 - n = i by omega]
    next => cases h

theorem compressByte_spec {k : ℕ} {s s' : Compression × List ℕ} (hb : s.1.b = 8 * k)
    (hprev : s.1.prev = frame table (8 * k)) (h : compressByte table s = some s') :
    s'.1.b = 8 * (k + 1) ∧ s'.1.prev = frame table (8 * (k + 1)) ∧
      ∃ output, s'.2 = s.2 ++ [output] ∧ ∀ i < 8, Encodes table (8 * k + i) output := by
  obtain ⟨c, hc, hs'⟩ := Option.bind_eq_some_iff.mp h
  cases hs'
  obtain ⟨hcb, hcprev, hencodes, -⟩ :=
    compressBits_spec (s := { s.1 with output := 0 }) le_rfl hb hprev rfl hc
  exact ⟨hcb, hcprev, c.output, rfl, hencodes⟩

theorem compressBytes_spec {k : ℕ} {s : Compression × List ℕ}
    (h : (List.range k).foldlM (fun s _ => compressByte table s) (⟨0, 0xCD, 0⟩, []) = some s) :
    s.1.b = 8 * k ∧ s.1.prev = frame table (8 * k) ∧ s.2.length = k ∧
      ∀ j output, s.2[j]? = some output → ∀ i < 8, Encodes table (8 * j + i) output := by
  induction k generalizing s with
  | zero =>
    cases h
    exact ⟨rfl, rfl, rfl, by simp⟩
  | succ k ih =>
    rw [foldlM_range_succ] at h
    obtain ⟨t, ht, h⟩ := Option.bind_eq_some_iff.mp h
    obtain ⟨htb, htprev, hlength, hbits⟩ := ih ht
    obtain ⟨hb, hprev, output, houtput, hencodes⟩ := compressByte_spec htb htprev h
    refine ⟨hb, hprev, by rw [houtput, List.length_append, hlength]; rfl, ?_⟩
    intro j output' hj
    rw [houtput, List.getElem?_append] at hj
    split_ifs at hj with hlt
    · exact hbits j output' hj
    · obtain ⟨rfl, rfl⟩ : j = k ∧ output = output' := by
        rw [List.getElem?_singleton] at hj
        split_ifs at hj with hzero
        cases hj
        exact ⟨by omega, rfl⟩
      exact hencodes

theorem tableCompress_spec {smallTable : List ℕ} (h : tableCompress table = some smallTable) :
    smallTable.length = 32 ∧ ∀ j output, smallTable[j]? = some output →
      ∀ i < 8, Encodes table (8 * j + i) output := by
  obtain ⟨s, hs, hsmall⟩ := Option.bind_eq_some_iff.mp h
  cases hsmall
  exact (compressBytes_spec hs).2.2

end compress

section equal

variable {table : Table} (packet : Packet)

theorem and_128_ne_zero (x : ℕ) {n : ℕ} (hn : n < 8) :
    x <<< n &&& 0x80 ≠ 0 ↔ x.testBit (7 - n) = true := by
  have hshift : 0x80 = 1 <<< 7 := rfl
  rw [hshift, and_bit_ne_zero, Nat.testBit_shiftLeft]
  simp [show 7 ≥ n by omega]

theorem smallBits_spec {k n : ℕ} (hn : n ≤ 8) {output : ℕ}
    (hencodes : ∀ i < 8, Encodes table (8 * k + i) output) (crc : ℕ) :
    smallBit^[n] (⟨crc, frame table (8 * k)⟩, output, packet[k]!.toNat) =
      (⟨(List.range n).foldl (largeBit packet table k) crc,
        rotateRight (frame table (8 * k + n)) n⟩, output <<< n, packet[k]!.toNat <<< n) := by
  induction n with
  | zero => rw [rotateRight_zero (frame_lt _ _)]; rfl
  | succ n ih =>
    have hmod : (8 * k + n) % 8 = n := by omega
    have hbit := hencodes n (by omega)
    have hy : (if output <<< n &&& 0x80 ≠ 0 then rotateRight (frame table (8 * k + n)) n ^^^ 0x42
        else rotateRight (frame table (8 * k + n)) n) = table[8 * k + n]!.toNat := by
      rw [← entry_eq, hmod]
      by_cases hdifference : difference table (8 * k + n) = 0
      · rw [if_neg, hdifference, Nat.xor_zero]
        rw [and_128_ne_zero output (by omega), ← hmod, hbit.2]
        exact not_not_intro hdifference
      · rw [if_pos, hbit.1.resolve_left hdifference]
        rw [and_128_ne_zero output (by omega), ← hmod, hbit.2]
        exact hdifference
    have hcrc : ∀ crc, (if packet[k]!.toNat <<< n &&& 0x80 ≠ 0 then crc ^^^ table[8 * k + n]!.toNat
        else crc) = largeBit packet table k crc n := by
      intro crc
      rw [largeBit, Nat.mul_comm k]
      simp only [and_128_ne_zero packet[k]!.toNat (by omega : n < 8), and_bit_ne_zero]
    have hrotate : (table[8 * k + n]!.toNat >>> 1 ||| table[8 * k + n]!.toNat <<< 7) &&& 0xFF =
        rotateRight (frame table (8 * k + (n + 1))) (n + 1) := by
      have hentry := rotateRight_entry table (8 * k + n)
      rw [hmod] at hentry
      exact hentry
    rw [Function.iterate_succ_apply', ih (by omega)]
    simp only [smallBit, hy, hcrc, hrotate, List.range_succ, List.foldl_append, List.foldl_cons,
      List.foldl_nil, ← Nat.shiftLeft_add]

theorem smallByte_spec {smallTable : List ℕ} (h : tableCompress table = some smallTable) {k : ℕ}
    (hk : k < 32) (crc : ℕ) : smallByte packet smallTable ⟨crc, frame table (8 * k)⟩ k =
      some ⟨largeByte packet table crc k, frame table (8 * (k + 1))⟩ := by
  obtain ⟨hlength, hencodes⟩ := tableCompress_spec h
  have hbyte : smallTable[k]? = some smallTable[k] := List.getElem?_eq_getElem (hlength ▸ hk)
  rw [smallByte, hbyte, Option.bind_eq_bind, Option.bind_some,
    smallBits_spec packet le_rfl (hencodes k _ hbyte), rotateRight_eight (frame_lt _ _)]
  rfl

theorem smallBytes_spec {smallTable : List ℕ} (h : tableCompress table = some smallTable) {k : ℕ}
    (hk : k ≤ 32) : (List.range k).foldlM (smallByte packet smallTable) ⟨0xFF, 0xCD⟩ =
      some ⟨(List.range k).foldl (largeByte packet table) 0xFF, frame table (8 * k)⟩ := by
  induction k with
  | zero => rfl
  | succ k ih =>
    rw [foldlM_range_succ, ih (by omega), Option.bind_eq_bind, Option.bind_some,
      smallByte_spec packet h (by omega), List.range_succ, List.foldl_append]
    rfl

theorem smallTableCRC_eq {smallTable : List ℕ} (h : tableCompress table = some smallTable) :
    smallTableCRC packet (some smallTable) = some (largeTableCRC packet table) := by
  have hne : smallTable ≠ [] := by
    rintro rfl
    cases (tableCompress_spec h).1
  simp only [smallTableCRC, Option.getD_some, if_neg hne, smallBytes_spec packet h le_rfl,
    Option.bind_eq_bind, Option.bind_some]
  rfl

end equal

section xor

variable (p q : Packet)

def Packet.xor : Packet := p.zipWith (· ^^^ ·) q

theorem Packet.getElem!_xor {k : ℕ} (hk : k < 32) :
    (p.xor q)[k]!.toNat = p[k]!.toNat ^^^ q[k]!.toNat := by
  rw [getElem!_pos (p.xor q) k hk, getElem!_pos p k hk, getElem!_pos q k hk, xor,
    Vector.getElem_zipWith, BitVec.toNat_xor]

theorem xor_if {a b : Bool} {x y z : ℕ} (h : x = y ^^^ z ^^^ 0xFF) (t : ℕ) :
    (if (a ^^ b) = true then x ^^^ t else x) =
      (if a = true then y ^^^ t else y) ^^^ (if b = true then z ^^^ t else z) ^^^ 0xFF := by
  rw [h]
  apply Nat.eq_of_testBit_eq
  intro i
  cases a <;> cases b <;> simp only [Bool.xor_false, Bool.xor_true, Bool.not_true, Bool.not_false,
    Bool.false_eq_true, if_true, if_false, Nat.testBit_xor]
  all_goals
    cases y.testBit i <;> cases z.testBit i <;> cases t.testBit i <;> cases Nat.testBit 0xFF i <;> rfl

theorem foldl_xor {l : List ℕ} {f g h : ℕ → ℕ → ℕ} {x y z : ℕ} (hxyz : x = y ^^^ z ^^^ 0xFF)
    (hstep : ∀ a ∈ l, ∀ x y z, x = y ^^^ z ^^^ 0xFF → f x a = g y a ^^^ h z a ^^^ 0xFF) :
    l.foldl f x = l.foldl g y ^^^ l.foldl h z ^^^ 0xFF := by
  induction l generalizing x y z with
  | nil => exact hxyz
  | cons a l ih =>
    apply ih (hstep a List.mem_cons_self x y z hxyz)
    exact fun b hb => hstep b (List.mem_cons_of_mem a hb)

theorem largeTableCRC_xor (table : Table) : largeTableCRC (p.xor q) table =
    largeTableCRC p table ^^^ largeTableCRC q table ^^^ 0xFF := by
  refine foldl_xor (by decide) (fun byte hbyte x y z hxyz => foldl_xor hxyz ?_)
  intro bit _ x y z hxyz
  simp only [largeBit, and_bit_ne_zero, p.getElem!_xor q (List.mem_range.mp hbyte), Nat.testBit_xor]
  exact xor_if hxyz _

structure Linear (s s₁ s₂ : Check) : Prop where
  left : s₁.y = s.y
  right : s₂.y = s.y
  crc : s.crc = s₁.crc ^^^ s₂.crc ^^^ 0xFF

theorem smallBits_linear {s s₁ s₂ : Check} (h : Linear s s₁ s₂) (tableByte a b n : ℕ) :
    Linear (smallBit^[n] (s, tableByte, a ^^^ b)).1 (smallBit^[n] (s₁, tableByte, a)).1
      (smallBit^[n] (s₂, tableByte, b)).1 := by
  induction n generalizing s s₁ s₂ tableByte a b with
  | zero => exact h
  | succ n ih =>
    obtain ⟨hleft, hright, hcrc⟩ := h
    have hbit : ∀ x, (x &&& 0x80 ≠ 0 ↔ x.testBit 7 = true) := fun x => and_bit_ne_zero x 7
    rw [Function.iterate_succ_apply, Function.iterate_succ_apply, Function.iterate_succ_apply]
    simp only [smallBit, hleft, hright, hbit, Nat.testBit_xor, Nat.shiftLeft_xor_distrib]
    refine ih ?_ _ _ _
    exact ⟨rfl, rfl, xor_if hcrc _⟩

def Agree : Option Check → Option Check → Option Check → Prop
  | some s, some s₁, some s₂ => Linear s s₁ s₂
  | none, none, none => True
  | _, _, _ => False

theorem smallByte_linear {s s₁ s₂ : Check} (h : Linear s s₁ s₂) (table : List ℕ) {k : ℕ}
    (hk : k < 32) : Agree (smallByte (p.xor q) table s k) (smallByte p table s₁ k)
      (smallByte q table s₂ k) := by
  rw [smallByte, smallByte, smallByte, p.getElem!_xor q hk]
  cases table[k]? with
  | none => trivial
  | some tableByte => exact smallBits_linear h tableByte _ _ 8

theorem smallBytes_linear (table : List ℕ) {k : ℕ} (hk : k ≤ 32) :
    Agree ((List.range k).foldlM (smallByte (p.xor q) table) ⟨0xFF, 0xCD⟩)
      ((List.range k).foldlM (smallByte p table) ⟨0xFF, 0xCD⟩)
      ((List.range k).foldlM (smallByte q table) ⟨0xFF, 0xCD⟩) := by
  induction k with
  | zero => exact ⟨rfl, rfl, by decide⟩
  | succ k ih =>
    have hagree := ih (by omega)
    rw [foldlM_range_succ, foldlM_range_succ, foldlM_range_succ]
    generalize (List.range k).foldlM (smallByte (p.xor q) table) ⟨0xFF, 0xCD⟩ = o at hagree ⊢
    generalize (List.range k).foldlM (smallByte p table) ⟨0xFF, 0xCD⟩ = o₁ at hagree ⊢
    generalize (List.range k).foldlM (smallByte q table) ⟨0xFF, 0xCD⟩ = o₂ at hagree ⊢
    match o, o₁, o₂, hagree with
    | some s, some s₁, some s₂, hlinear => exact smallByte_linear p q hlinear table (by omega)
    | none, none, none, _ => trivial

theorem smallTableCRC_xor (table : Option (List ℕ)) : smallTableCRC (p.xor q) table = do
    return (← smallTableCRC p table) ^^^ (← smallTableCRC q table) ^^^ 0xFF := by
  have hagree := smallBytes_linear p q (if table.getD [] = [] then defaultTable else table.getD [])
    le_rfl
  simp only [smallTableCRC]
  generalize (List.range 32).foldlM (smallByte (p.xor q) _) _ = o at hagree ⊢
  generalize (List.range 32).foldlM (smallByte p _) _ = o₁ at hagree ⊢
  generalize (List.range 32).foldlM (smallByte q _) _ = o₂ at hagree ⊢
  match o, o₁, o₂, hagree with
  | some s, some s₁, some s₂, hlinear => exact congrArg some hlinear.crc
  | none, none, none, _ => rfl

end xor

/-- The small table is as good as the large one it is made from, and with both the checksum of two
packets put together is that of the one, that of the other and that of none. -/
theorem crc_correct :
    (∀ (table : Table) (smallTable : List ℕ), tableCompress table = some smallTable →
      ∀ packet, smallTableCRC packet (some smallTable) = some (largeTableCRC packet table)) ∧
    (∀ (table : Table) (p q : Packet), largeTableCRC (p.xor q) table =
      largeTableCRC p table ^^^ largeTableCRC q table ^^^ 0xFF) ∧
    ∀ (table : Option (List ℕ)) (p q : Packet), smallTableCRC (p.xor q) table = do
      return (← smallTableCRC p table) ^^^ (← smallTableCRC q table) ^^^ 0xFF :=
  ⟨fun _ _ h packet => smallTableCRC_eq packet h, fun table p q => largeTableCRC_xor p q table,
    fun table p q => smallTableCRC_xor p q table⟩

def constantTable : Table := .ofFn fun b => BitVec.ofNat 8 (rotateRight 0xCD (b % 8))

theorem constantTable_getElem {b : ℕ} (hb : b < 256) :
    constantTable[b]!.toNat = rotateRight 0xCD (b % 8) := by
  rw [getElem!_pos constantTable b hb, constantTable, Vector.getElem_ofFn, BitVec.toNat_ofNat]
  exact Nat.mod_eq_of_lt (rotateRight_lt _ _)

theorem compressBit_constant {k bit : ℕ} (hk : k < 32) (hbit : bit < 8) :
    compressBit constantTable ⟨8 * k + bit, 0xCD, 0⟩ bit = some ⟨8 * k + (bit + 1), 0xCD, 0⟩ := by
  have hback : ∀ n < 8, rotateLeft (rotateRight 0xCD n) n = 0xCD := by decide
  have hrotate := hback bit hbit
  have hzero : rotateRight 0 bit = 0 := by
    rw [rotateRight, Nat.zero_shiftRight, Nat.zero_shiftLeft]
    rfl
  rw [compressBit]
  simp only [constantTable_getElem (by omega : 8 * k + bit < 256), Nat.mul_add_mod,
    Nat.mod_eq_of_lt hbit, hrotate, Nat.xor_self, hzero]
  rfl

theorem compressByte_constant {k : ℕ} (hk : k < 32) (output : ℕ) (l : List ℕ) :
    compressByte constantTable (⟨8 * k, 0xCD, output⟩, l) =
      some (⟨8 * (k + 1), 0xCD, 0⟩, l ++ [0]) := by
  have hbits : ∀ n ≤ 8, (List.range n).foldlM (compressBit constantTable) ⟨8 * k, 0xCD, 0⟩ =
      some ⟨8 * k + n, 0xCD, 0⟩ := by
    intro n hn
    induction n with
    | zero => rfl
    | succ n ih =>
      rw [List.range_succ, List.foldlM_append, ih (by omega)]
      exact (bind_pure _).trans (compressBit_constant hk (by omega))
  rw [compressByte, hbits 8 (Nat.le_refl 8)]
  rfl

theorem tableCompress_constant :
    tableCompress constantTable = some (List.replicate 32 0) := by
  have hbytes : ∀ n ≤ 32, (List.range n).foldlM (fun s _ => compressByte constantTable s)
      (⟨0, 0xCD, 0⟩, []) = some (⟨8 * n, 0xCD, 0⟩, List.replicate n 0) := by
    intro n hn
    induction n with
    | zero => rfl
    | succ n ih =>
      rw [List.range_succ, List.foldlM_append, ih (by omega), List.replicate_succ']
      exact (bind_pure _).trans (compressByte_constant (by omega) 0 _)
  rw [tableCompress, hbytes 32 (Nat.le_refl 32)]
  rfl

theorem crc_correct_constant : tableCompress constantTable = some (List.replicate 32 0) ∧
    ∀ packet, smallTableCRC packet (some (List.replicate 32 0)) =
      some (largeTableCRC packet constantTable) :=
  ⟨tableCompress_constant, crc_correct.1 constantTable _ tableCompress_constant⟩

end NaviMisc.Wasabi.ControllerCrc
