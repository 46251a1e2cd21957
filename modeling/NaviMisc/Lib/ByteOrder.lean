import Mathlib.Data.List.Forall2
import Mathlib.Tactic.Ring

/-!
Words of `n` bytes in memory, in either byte order, and their conversion to and
from network order.
-/

namespace NaviMisc.Lib.ByteOrder

abbrev Byte := BitVec 8

inductive Endian
  | little
  | big
  deriving DecidableEq

def bytes : ℕ → ℕ → List Byte
  | 0, _ => []
  | n + 1, v => BitVec.ofNat 8 v :: bytes n (v / 256)

def value : List Byte → ℕ
  | [] => 0
  | b :: l => b.toNat + 256 * value l

def arrange : Endian → List Byte → List Byte
  | .little, l => l
  | .big, l => l.reverse

variable {n : ℕ} (e : Endian)

def store (x : BitVec (8 * n)) : List Byte := arrange e (bytes n x.toNat)

def load (n : ℕ) (l : List Byte) : BitVec (8 * n) := BitVec.ofNat (8 * n) (value (arrange e l))

/-- The word whose bytes in memory are `x` in network order. -/
def hton (x : BitVec (8 * n)) : BitVec (8 * n) := load e n (store .big x)

def ntoh (x : BitVec (8 * n)) : BitVec (8 * n) := load .big n (store e x)

@[simp] theorem length_bytes (n v : ℕ) : (bytes n v).length = n := by
  induction n generalizing v with
  | zero => rfl
  | succ n ih => rw [bytes, List.length_cons, ih]

@[simp] theorem length_arrange (l : List Byte) : (arrange e l).length = l.length := by
  cases e with
  | little => rfl
  | big => exact List.length_reverse

@[simp] theorem arrange_arrange (l : List Byte) : arrange e (arrange e l) = l := by
  cases e with
  | little => rfl
  | big => exact List.reverse_reverse l

@[simp] theorem length_store (x : BitVec (8 * n)) : (store e x).length = n := by
  rw [store, length_arrange, length_bytes]

theorem value_bytes (n v : ℕ) : value (bytes n v) = v % 256 ^ n := by
  induction n generalizing v with
  | zero => rw [bytes, value, pow_zero, Nat.mod_one]
  | succ n ih =>
    rw [bytes, value, ih, BitVec.toNat_ofNat, pow_succ' 256 n]
    exact Nat.mod_mul.symm

theorem bytes_value (l : List Byte) : bytes l.length (value l) = l := by
  induction l with
  | nil => rfl
  | cons b l ih =>
    have hlow : BitVec.ofNat 8 (b.toNat + 256 * value l) = b := by
      apply BitVec.eq_of_toNat_eq
      have hb := b.isLt
      rw [BitVec.toNat_ofNat]
      omega
    have hhigh : (b.toNat + 256 * value l) / 256 = value l := by
      have hb := b.isLt
      omega
    rw [List.length_cons, value, bytes, hlow, hhigh, ih]

theorem value_lt (l : List Byte) : value l < 256 ^ l.length := by
  have h := value_bytes l.length (value l)
  rw [bytes_value] at h
  rw [h]
  exact Nat.mod_lt _ (Nat.pow_pos (by simp))

theorem two_pow_eq (n : ℕ) : 2 ^ (8 * n) = 256 ^ n := by
  rw [pow_mul]
  rfl

@[simp] theorem load_store (x : BitVec (8 * n)) : load e n (store e x) = x := by
  apply BitVec.eq_of_toNat_eq
  have hx := x.isLt
  rw [load, store, arrange_arrange, value_bytes, BitVec.toNat_ofNat, ← two_pow_eq]
  rw [Nat.mod_eq_of_lt hx, Nat.mod_eq_of_lt hx]

theorem store_load {l : List Byte} (hl : l.length = n) : store e (load e n l) = l := by
  subst hl
  have hlt : value (arrange e l) < 2 ^ (8 * l.length) := by
    rw [two_pow_eq, ← length_arrange e l]
    exact value_lt _
  have hbytes := bytes_value (arrange e l)
  rw [length_arrange] at hbytes
  rw [store, load, BitVec.toNat_ofNat, Nat.mod_eq_of_lt hlt, hbytes, arrange_arrange]

theorem store_hton (x : BitVec (8 * n)) : store e (hton e x) = store .big x :=
  store_load e (length_store .big x)

theorem ntoh_load {l : List Byte} (hl : l.length = n) : ntoh e (load e n l) = load .big n l := by
  rw [ntoh, store_load e hl]

@[simp] theorem ntoh_hton (x : BitVec (8 * n)) : ntoh e (hton e x) = x := by
  rw [ntoh, store_hton, load_store]

end NaviMisc.Lib.ByteOrder

/-!
Integers packed into bytes one after the other, each with a size and with or without a sign.
-/

namespace NaviMisc.Lib.Packing

open ByteOrder

structure Code where
  size : ℕ
  signed : Bool

namespace Code

def InRange (c : Code) (v : ℤ) : Prop :=
  if c.signed then -2 ^ (8 * c.size) ≤ v * 2 ∧ v * 2 < 2 ^ (8 * c.size)
  else 0 ≤ v ∧ v < 2 ^ (8 * c.size)

instance (c : Code) (v : ℤ) : Decidable (c.InRange v) :=
  inferInstanceAs (Decidable (ite (c.signed = true) (_ ∧ _) (_ ∧ _)))

variable (e : Endian)

def bytes (c : Code) (v : ℤ) : List Byte := store e (BitVec.ofInt (8 * c.size) v)

def value (c : Code) (l : List Byte) : ℤ :=
  if c.signed then (load e c.size l).toInt else (load e c.size l).toNat

theorem length_bytes (c : Code) (v : ℤ) : (c.bytes e v).length = c.size := length_store e _

theorem value_bytes {c : Code} {v : ℤ} (h : c.InRange v) : c.value e (c.bytes e v) = v := by
  have hcast : ((2 ^ (8 * c.size) : ℕ) : ℤ) = 2 ^ (8 * c.size) := by simp
  rw [InRange] at h
  rw [value, bytes, load_store]
  split at h
  · rw [if_pos ‹_›, BitVec.toInt_ofInt]
    rw [← hcast] at h
    exact Int.bmod_eq_of_le_mul_two h.1 h.2
  · rw [if_neg ‹_›, BitVec.toNat_ofInt, hcast, Int.emod_eq_of_lt h.1 h.2, Int.toNat_of_nonneg h.1]

end Code

def calcsize (fmt : List Code) : ℕ := (fmt.map Code.size).sum

variable (e : Endian)

def pack : List Code → List ℤ → Option (List Byte)
  | [], [] => some []
  | c :: fmt, v :: l => if c.InRange v then (pack fmt l).map (c.bytes e v ++ ·) else none
  | _, _ => none

def unpack : List Code → List Byte → Option (List ℤ)
  | [], [] => some []
  | [], _ :: _ => none
  | c :: fmt, s =>
    if s.length < c.size then none
    else (unpack fmt (s.drop c.size)).map (c.value e (s.take c.size) :: ·)

variable {e} {fmt : List Code} {l : List ℤ}

theorem exists_pack (h : List.Forall₂ Code.InRange fmt l) : ∃ s, pack e fmt l = some s := by
  induction h with
  | nil => exact ⟨[], rfl⟩
  | cons hv _ ih =>
    obtain ⟨s, hs⟩ := ih
    rw [pack, if_pos hv, hs]
    exact ⟨_, rfl⟩

theorem length_pack {s : List Byte} (h : pack e fmt l = some s) : s.length = calcsize fmt := by
  induction fmt generalizing l s with
  | nil =>
    cases l with
    | nil =>
      cases h
      rfl
    | cons v l => cases h
  | cons c fmt ih =>
    cases l with
    | nil => cases h
    | cons v l =>
      rw [pack] at h
      split at h
      · obtain ⟨s, hs, rfl⟩ := Option.map_eq_some_iff.mp h
        rw [List.length_append, Code.length_bytes, ih hs]
        rfl
      · cases h

theorem unpack_pack {s : List Byte} (h : pack e fmt l = some s) : unpack e fmt s = some l := by
  induction fmt generalizing l s with
  | nil =>
    cases l with
    | nil =>
      cases h
      rfl
    | cons v l => cases h
  | cons c fmt ih =>
    cases l with
    | nil => cases h
    | cons v l =>
      rw [pack] at h
      split at h
      · obtain ⟨s, hs, rfl⟩ := Option.map_eq_some_iff.mp h
        have hlength := c.length_bytes e v
        rw [unpack, if_neg (by simp [hlength]), List.drop_left' hlength, List.take_left' hlength,
          ih hs, Code.value_bytes e ‹_›]
        rfl
      · cases h

end NaviMisc.Lib.Packing
