import Mathlib.Data.List.Basic

/-!
The run-length format of the static data: `BinaryData.compressRLE` of
scripts/sbt86.py writes it, `decompressRLE` of source/sbtProcess.cpp reads it
into a buffer that is already zero.
-/

namespace NaviMisc.Sbt86

abbrev Byte := BitVec 8

inductive PackError
  | outOfRange
  deriving DecidableEq

def packH (n : ℕ) : Except PackError (List Byte) :=
  if n < 0x10000 then .ok [BitVec.ofNat 8 n, BitVec.ofNat 8 (n / 0x100)] else .error .outOfRange

def compressStep : List Byte × ℕ → Byte → Except PackError (List Byte × ℕ)
  | (output, zeroes), byte =>
    if byte = 0 then .ok (output, zeroes + 1)
    else if zeroes = 0 then .ok (output ++ [byte], zeroes)
    else if zeroes = 1 then .ok (output ++ [0, byte], 0)
    else do
      let count ← packH (zeroes - 2)
      return (output ++ ([0, 0] ++ count ++ [byte]), 0)

def compressRLE (data : List Byte) : Except PackError (List Byte) := do
  return (← data.foldlM compressStep ([], 0)).1

def BUFFER_SIZE : ℕ := 0x10000

abbrev Buffer := Fin BUFFER_SIZE → Byte

inductive RleFault
  -- the assertion `dest < limit`
  | overflow
  -- `srcLength -= 2` below zero
  | underflow
  -- a read past the end of the compressed data
  | pastEnd
  deriving DecidableEq

structure Decompressor where
  dest : ℕ
  zeroes : ℕ
  buffer : Buffer

/-- The loop of `decompressRLE`, on what is left at `src`, `srcLength` and the other locals. -/
def Decompressor.loop : List Byte → ℕ → Decompressor → Except RleFault Buffer
  | _, 0, s => .ok s.buffer
  | [], _ + 1, _ => .error .pastEnd
  | byte :: src, srcLength + 1, s =>
    if h : s.dest < BUFFER_SIZE then
      let buffer := Function.update s.buffer ⟨s.dest, h⟩ byte
      if byte ≠ 0 then loop src srcLength ⟨s.dest + 1, 0, buffer⟩
      else if s.zeroes + 1 = 2 then
        match src with
        | lo :: hi :: src =>
          if srcLength < 2 then .error .underflow
          else loop src (srcLength - 2) ⟨s.dest + 1 + (lo.toNat + hi.toNat <<< 8), 0, buffer⟩
        | _ => .error .pastEnd
      else loop src srcLength ⟨s.dest + 1, s.zeroes + 1, buffer⟩
    else .error .overflow

def decompressRLE (src : List Byte) : Except RleFault Buffer :=
  Decompressor.loop src src.length ⟨0, 0, fun _ => 0⟩

def zeroRun : ℕ → List Byte
  | 0 => []
  | 1 => [0]
  | n + 2 => [0, 0, BitVec.ofNat 8 n, BitVec.ofNat 8 (n / 0x100)]

def compressFrom : ℕ → List Byte → List Byte
  | _, [] => []
  | zeroes, byte :: data =>
    if byte = 0 then compressFrom (zeroes + 1) data
    else zeroRun zeroes ++ byte :: compressFrom 0 data

theorem compressStep_zero (output : List Byte) (zeroes : ℕ) :
    compressStep (output, zeroes) 0 = .ok (output, zeroes + 1) := by
  simp only [compressStep, if_true]

theorem compressStep_of_ne_zero (output : List Byte) {zeroes : ℕ} {byte : Byte} (h : byte ≠ 0)
    (hz : zeroes ≤ BUFFER_SIZE) :
    compressStep (output, zeroes) byte = .ok (output ++ (zeroRun zeroes ++ [byte]), 0) := by
  match zeroes with
  | 0 => simp only [compressStep, if_neg h, if_true]; rfl
  | 1 => simp only [compressStep, if_neg h]; rfl
  | n + 2 =>
    have hn : n < 0x10000 := by
      simp only [BUFFER_SIZE] at hz
      omega
    simp only [compressStep, if_neg h, packH, Nat.add_sub_cancel, if_pos hn]
    rfl

theorem foldlM_compressStep (data output : List Byte) (zeroes : ℕ)
    (h : zeroes + data.length ≤ BUFFER_SIZE) :
    ∃ pending, data.foldlM compressStep (output, zeroes) =
      .ok (output ++ compressFrom zeroes data, pending) := by
  induction data generalizing output zeroes with
  | nil => exact ⟨zeroes, by simp only [compressFrom, List.append_nil]; rfl⟩
  | cons byte data ih =>
    rw [List.length_cons] at h
    by_cases hb : byte = 0
    · subst hb
      obtain ⟨pending, hp⟩ := ih output (zeroes + 1) (by omega)
      refine ⟨pending, ?_⟩
      rw [List.foldlM_cons, compressStep_zero, compressFrom, if_pos rfl]
      exact hp
    · obtain ⟨pending, hp⟩ := ih (output ++ (zeroRun zeroes ++ [byte])) 0 (by omega)
      have hlist : output ++ (zeroRun zeroes ++ [byte]) ++ compressFrom 0 data =
          output ++ (zeroRun zeroes ++ byte :: compressFrom 0 data) := by
        simp only [List.append_assoc, List.singleton_append]
      refine ⟨pending, ?_⟩
      rw [List.foldlM_cons, compressStep_of_ne_zero output hb (by omega), compressFrom, if_neg hb,
        ← hlist]
      exact hp

theorem compressRLE_eq {data : List Byte} (h : data.length ≤ BUFFER_SIZE) :
    compressRLE data = .ok (compressFrom 0 data) := by
  obtain ⟨pending, hp⟩ := foldlM_compressStep data [] 0 (by omega)
  rw [compressRLE, hp]
  rfl

section loop

variable {k : ℕ} {buffer : Buffer}

def ZeroFrom (k : ℕ) (buffer : Buffer) : Prop := ∀ i, k ≤ i.val → buffer i = 0

theorem ZeroFrom.update_zero (h : ZeroFrom k buffer) {j : ℕ} (hj : j < BUFFER_SIZE) (hk : k ≤ j) :
    Function.update buffer ⟨j, hj⟩ 0 = buffer := by
  rw [← h ⟨j, hj⟩ hk]
  exact Function.update_eq_self _ _

theorem ZeroFrom.update (h : ZeroFrom k buffer) {j : ℕ} (hj : j < BUFFER_SIZE) (hk : k ≤ j) (b : Byte) :
    ZeroFrom (j + 1) (Function.update buffer ⟨j, hj⟩ b) := by
  intro i hi
  have hne : i ≠ ⟨j, hj⟩ := fun hij => absurd (congrArg Fin.val hij) (Nat.ne_of_gt hi)
  rw [Function.update_of_ne hne]
  exact h i (by omega)

theorem loop_nonzero {byte : Byte} (hb : byte ≠ 0) (hk : k < BUFFER_SIZE) (src : List Byte)
    (n zeroes : ℕ) : Decompressor.loop (byte :: src) (n + 1) ⟨k, zeroes, buffer⟩ =
      Decompressor.loop src n ⟨k + 1, 0, Function.update buffer ⟨k, hk⟩ byte⟩ := by
  simp only [Decompressor.loop, dif_pos hk, ne_eq, hb, not_false_eq_true, if_true]

theorem loop_first_zero (hz : ZeroFrom k buffer) (hk : k < BUFFER_SIZE) (src : List Byte) (n : ℕ) :
    Decompressor.loop (0 :: src) (n + 1) ⟨k, 0, buffer⟩ =
      Decompressor.loop src n ⟨k + 1, 1, buffer⟩ := by
  rw [Decompressor.loop, dif_pos hk]
  simp only [ne_eq, not_true_eq_false, if_false, hz.update_zero hk (Nat.le_refl k)]
  rfl

theorem loop_second_zero (hz : ZeroFrom k buffer) (hk : k < BUFFER_SIZE) (lo hi : Byte)
    (src : List Byte) (n : ℕ) :
    Decompressor.loop (0 :: lo :: hi :: src) (n + 3) ⟨k, 1, buffer⟩ =
      Decompressor.loop src n ⟨k + 1 + (lo.toNat + hi.toNat <<< 8), 0, buffer⟩ := by
  rw [Decompressor.loop, dif_pos hk]
  simp only [ne_eq, not_true_eq_false, if_false, if_true, hz.update_zero hk (Nat.le_refl k)]
  rw [if_neg (by omega), Nat.add_sub_cancel]

theorem loop_zeroRun (hz : ZeroFrom k buffer) (zeroes : ℕ) {byte : Byte} (hb : byte ≠ 0)
    (hk : k + zeroes < BUFFER_SIZE) (src : List Byte) :
    Decompressor.loop (zeroRun zeroes ++ byte :: src) (zeroRun zeroes ++ byte :: src).length
        ⟨k, 0, buffer⟩ =
      Decompressor.loop src src.length
        ⟨k + zeroes + 1, 0, Function.update buffer ⟨k + zeroes, hk⟩ byte⟩ := by
  match zeroes with
  | 0 => exact loop_nonzero hb hk src _ 0
  | 1 => exact (loop_first_zero hz (by omega) _ _).trans (loop_nonzero hb hk src _ 1)
  | n + 2 =>
    have hn : n < 0x10000 := by
      simp only [BUFFER_SIZE] at hk
      omega
    have hcount : (BitVec.ofNat 8 n).toNat + (BitVec.ofNat 8 (n / 0x100)).toNat <<< 8 = n := by
      rw [BitVec.toNat_ofNat, BitVec.toNat_ofNat, Nat.shiftLeft_eq]
      omega
    have hdest : k + 1 + 1 + n = k + (n + 2) := by omega
    have hz₁ : ZeroFrom (k + 1) buffer := fun i hi => hz i (Nat.le_of_succ_le hi)
    have hfirst := loop_first_zero hz (by omega)
      (0 :: BitVec.ofNat 8 n :: BitVec.ofNat 8 (n / 0x100) :: byte :: src) (src.length + 4)
    have hsecond := loop_second_zero hz₁ (by omega) (BitVec.ofNat 8 n) (BitVec.ofNat 8 (n / 0x100))
      (byte :: src) (src.length + 1)
    rw [hcount, hdest] at hsecond
    exact hfirst.trans (hsecond.trans (loop_nonzero hb hk src _ 0))

def filled (k : ℕ) (data : List Byte) (buffer : Buffer) : Buffer := fun i =>
  if i.val < k then buffer i else data.getD (i.val - k) 0

theorem filled_nil (hz : ZeroFrom k buffer) (zeroes : ℕ) : filled (k + zeroes) [] buffer = buffer := by
  funext i
  unfold filled
  split
  · rfl
  · exact (hz i (by omega)).symm

theorem filled_zero (hz : ZeroFrom k buffer) (data : List Byte) :
    filled (k + 1) data buffer = filled k (0 :: data) buffer := by
  funext i
  unfold filled
  rcases Nat.lt_trichotomy i.val k with h | h | h
  · rw [if_pos h, if_pos (by omega)]
  · rw [if_pos (by omega), if_neg (by omega), hz i (by omega), h, Nat.sub_self]
    rfl
  · obtain ⟨j, hj⟩ : ∃ j, i.val - k = j + 1 := ⟨i.val - k - 1, by omega⟩
    have hj' : i.val - (k + 1) = j := by omega
    rw [if_neg (by omega), if_neg (by omega), hj, hj']
    rfl

theorem filled_update (hk : k < BUFFER_SIZE) (b : Byte) (data : List Byte) :
    filled (k + 1) data (Function.update buffer ⟨k, hk⟩ b) = filled k (b :: data) buffer := by
  funext i
  unfold filled
  rcases Nat.lt_trichotomy i.val k with h | h | h
  · have hne : i ≠ ⟨k, hk⟩ := fun hi => absurd (congrArg Fin.val hi) (Nat.ne_of_lt h)
    rw [if_pos h, if_pos (by omega), Function.update_of_ne hne]
  · have hi : i = ⟨k, hk⟩ := Fin.ext h
    rw [if_pos (by omega), if_neg (by omega), hi, Function.update_self, Nat.sub_self]
    rfl
  · obtain ⟨j, hj⟩ : ∃ j, i.val - k = j + 1 := ⟨i.val - k - 1, by omega⟩
    have hj' : i.val - (k + 1) = j := by omega
    rw [if_neg (by omega), if_neg (by omega), hj, hj']
    rfl

end loop

theorem loop_compressFrom (data : List Byte) (k zeroes : ℕ) (buffer : Buffer)
    (hz : ZeroFrom k buffer) (h : k + zeroes + data.length ≤ BUFFER_SIZE) :
    Decompressor.loop (compressFrom zeroes data) (compressFrom zeroes data).length ⟨k, 0, buffer⟩ =
      .ok (filled (k + zeroes) data buffer) := by
  induction data generalizing k zeroes buffer with
  | nil => rw [filled_nil hz]; rfl
  | cons byte data ih =>
    rw [List.length_cons] at h
    by_cases hb : byte = 0
    · subst hb
      have hz' : ZeroFrom (k + zeroes) buffer := fun i hi => hz i (by omega)
      rw [compressFrom, if_pos rfl, ih k (zeroes + 1) buffer hz (by omega), ← Nat.add_assoc,
        filled_zero hz']
    · have hk : k + zeroes < BUFFER_SIZE := by omega
      rw [compressFrom, if_neg hb, loop_zeroRun hz zeroes hb hk,
        ih (k + zeroes + 1) 0 _ (hz.update hk (Nat.le_add_right k zeroes) byte) (by omega),
        Nat.add_zero, filled_update]

/-- What was compressed is read back, and the rest of the buffer stays zero. -/
theorem decompressRLE_compressRLE (data : List Byte) (h : data.length ≤ BUFFER_SIZE) :
    ∃ src, compressRLE data = .ok src ∧
      decompressRLE src = .ok fun i => data.getD i.val 0 := by
  refine ⟨compressFrom 0 data, compressRLE_eq h, ?_⟩
  rw [decompressRLE, loop_compressFrom data 0 0 _ (fun _ _ => rfl) (by omega)]
  congr 1

theorem decompressRLE_compressRLE_runs :
    ∃ src, compressRLE [7, 0, 5, 0, 0, 0, 0, 9, 0] = .ok src ∧
      decompressRLE src = .ok fun i => [7, 0, 5, 0, 0, 0, 0, 9, 0].getD i.val 0 :=
  decompressRLE_compressRLE _ (by decide)

example : compressRLE [7, 0, 5, 0, 0, 0, 0, 9, 0] = .ok [7, 0, 5, 0, 0, 2, 0, 9] := by decide

end NaviMisc.Sbt86
