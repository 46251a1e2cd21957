import Mathlib.Data.Nat.Bitwise
import Mathlib.Tactic.Positivity
import Mathlib.Tactic.Ring

/-!
Single bits of fixed-width words, as arithmetic on their values.
-/

namespace NaviMisc.Lib.Bits

def bit (n i : ℕ) : Bool := decide (n / 2 ^ i % 2 = 1)

theorem getLsbD_eq_bit {w : ℕ} (u : BitVec w) (i : ℕ) : u.getLsbD i = bit u.toNat i := by
  rw [BitVec.getLsbD, Nat.testBit_eq_decide_div_mod_eq, bit]

theorem and_twoPow_bne_zero {w : ℕ} (u : BitVec w) (i : ℕ) (hi : i < w) :
    (u &&& BitVec.twoPow w i != 0#w) = bit u.toNat i := by
  rw [BitVec.and_twoPow, getLsbD_eq_bit]
  have hne : BitVec.twoPow w i ≠ 0#w := by
    intro h
    have hb := congrArg (fun v => v.getLsbD i) h
    simp [hi] at hb
  cases bit u.toNat i <;> simp [hne]

theorem toNat_and_mask {w : ℕ} (u : BitVec w) (k : ℕ) (hk : k ≤ w) :
    (u &&& BitVec.ofNat w (2 ^ k - 1)).toNat = u.toNat % 2 ^ k := by
  have hlt : 2 ^ k - 1 < 2 ^ w := by
    have h1 := Nat.one_le_two_pow (n := k)
    have h2 := Nat.pow_le_pow_right (n := 2) (by omega) hk
    omega
  rw [BitVec.toNat_and, BitVec.toNat_ofNat, Nat.mod_eq_of_lt hlt, Nat.and_two_pow_sub_one_eq_mod]

theorem and_mask_beq_zero {w : ℕ} (u : BitVec w) (k : ℕ) (hk : k ≤ w) :
    (u &&& BitVec.ofNat w (2 ^ k - 1) == 0#w) = decide (u.toNat % 2 ^ k = 0) := by
  rw [← toNat_and_mask u k hk]
  apply Bool.eq_iff_iff.mpr
  simp only [beq_iff_eq, decide_eq_true_eq, BitVec.toNat_eq, BitVec.toNat_ofNat, Nat.zero_mod]

theorem bit_shiftLeft {w : ℕ} (u : BitVec w) (k i : ℕ) (hi : k + i < w) :
    bit (u <<< k).toNat (k + i) = bit u.toNat i := by
  rw [← getLsbD_eq_bit, ← getLsbD_eq_bit, BitVec.getLsbD_shiftLeft]
  simp [hi]

theorem toNat_shiftLeft_mod {w : ℕ} (u : BitVec w) (k j : ℕ) (hj : k + j ≤ w) :
    (u <<< k).toNat % 2 ^ (k + j) = u.toNat % 2 ^ j * 2 ^ k := by
  have hd : 2 ^ (k + j) ∣ 2 ^ w := Nat.pow_dvd_pow 2 hj
  rw [BitVec.toNat_shiftLeft, Nat.shiftLeft_eq, Nat.mod_mod_of_dvd _ hd, Nat.add_comm k j,
    Nat.pow_add, Nat.mul_mod_mul_right]

theorem getLsbD_one_shiftLeft {w : ℕ} (i j : ℕ) (hi : i < w) :
    (1#w <<< i).getLsbD j = decide (j = i) := by
  rw [← BitVec.twoPow_eq, BitVec.getLsbD_twoPow]
  simp [hi, eq_comm]

theorem getLsbD_and_not_one_shiftLeft {w : ℕ} (u : BitVec w) {i j : ℕ} (hi : i < w) :
    (u &&& ~~~(1#w <<< i)).getLsbD j = (u.getLsbD j && decide (j ≠ i)) := by
  rw [BitVec.getLsbD_and, BitVec.getLsbD_not, getLsbD_one_shiftLeft i j hi]
  by_cases hj : j < w
  · simp [hj]
  · simp [BitVec.getLsbD_of_ge u j (Nat.le_of_not_lt hj)]

theorem getLsbD_or_one_shiftLeft {w : ℕ} (u : BitVec w) {i j : ℕ} (hi : i < w) :
    (u ||| 1#w <<< i).getLsbD j = (u.getLsbD j || decide (j = i)) := by
  rw [BitVec.getLsbD_or, getLsbD_one_shiftLeft i j hi]

theorem and_one_shiftLeft_eq_zero_iff {w : ℕ} (u : BitVec w) {i : ℕ} (hi : i < w) :
    u &&& 1#w <<< i = 0#w ↔ u.getLsbD i = false := by
  rw [← BitVec.twoPow_eq, getLsbD_eq_bit, ← and_twoPow_bne_zero u i hi, bne_eq_false_iff_eq]

theorem and_one_eq_one_iff {w : ℕ} (u : BitVec w) (hw : 0 < w) :
    u &&& 1#w = 1#w ↔ u.getLsbD 0 = true := by
  have hone : 1#w = 1#w <<< 0 := (BitVec.shiftLeft_zero _).symm
  constructor
  · intro h
    have hbit := congrArg (fun v => v.getLsbD 0) h
    simpa [hw] using hbit
  · intro h
    apply BitVec.eq_of_getLsbD_eq
    intro i hi
    rw [BitVec.getLsbD_and, hone, getLsbD_one_shiftLeft 0 i hw]
    by_cases hzero : i = 0
    · simp [hzero, h]
    · simp [hzero]

/-- A number with its sign bit set is negative: `2 ^ w` too much in a wider word. -/
theorem setWidth_sub_of_msb {w : ℕ} (n : ℕ) {u : BitVec w} (h : u.msb = true) :
    u.setWidth n - 1#n <<< w = u.signExtend n := by
  have hvalue : u.toInt = (u.toNat : ℤ) + -(2 ^ w : ℕ) := by
    rw [BitVec.toInt_eq_msb_cond, if_pos h, Int.sub_eq_add_neg]
  have hpow : 1#n <<< w = BitVec.ofNat n (2 ^ w) := by
    apply BitVec.eq_of_toNat_eq
    rw [← BitVec.twoPow_eq, BitVec.toNat_twoPow, BitVec.toNat_ofNat]
  rw [BitVec.signExtend, hvalue, BitVec.ofInt_add, BitVec.ofInt_neg, BitVec.ofInt_natCast,
    BitVec.ofInt_natCast, BitVec.ofNat_toNat, hpow, BitVec.sub_eq_add_neg]

/-- Bit `k` of a bitmap in words, each word's lowest bit first. -/
def wordsBit {v : ℕ} (words : List (BitVec v)) (k : ℕ) : Bool :=
  (words.getD (k / v) 0).getLsbD (k % v)

variable {v : ℕ}

@[simp] theorem wordsBit_nil (k : ℕ) : wordsBit ([] : List (BitVec v)) k = false := by
  simp [wordsBit]

theorem wordsBit_cons_of_lt (word : BitVec v) (words : List (BitVec v)) {k : ℕ} (hk : k < v) :
    wordsBit (word :: words) k = word.getLsbD k := by
  rw [wordsBit, Nat.div_eq_of_lt hk, Nat.mod_eq_of_lt hk]
  rfl

theorem wordsBit_cons_add (hv : 0 < v) (word : BitVec v) (words : List (BitVec v)) (k : ℕ) :
    wordsBit (word :: words) (v + k) = wordsBit words k := by
  rw [wordsBit, wordsBit, Nat.add_div_left k hv, Nat.add_mod_left, List.getD_cons_succ]

theorem wordsBit_append (hv : 0 < v) (words words' : List (BitVec v)) (k : ℕ) :
    wordsBit (words ++ words') k =
      if k < v * words.length then wordsBit words k else wordsBit words' (k - v * words.length) := by
  induction words generalizing k with
  | nil => simp
  | cons word words ih =>
    rw [List.cons_append, List.length_cons, Nat.mul_succ]
    by_cases hk : k < v
    · rw [wordsBit_cons_of_lt _ _ hk, wordsBit_cons_of_lt _ _ hk, if_pos (by omega)]
    · obtain ⟨k, rfl⟩ := Nat.exists_eq_add_of_le (Nat.le_of_not_lt hk)
      rw [wordsBit_cons_add hv, wordsBit_cons_add hv, ih]
      have hlt : k < v * words.length ↔ v + k < v * words.length + v := by omega
      have hsub : v + k - (v * words.length + v) = k - v * words.length := by omega
      rw [hsub]
      simp only [hlt]

end NaviMisc.Lib.Bits

/-!
Fields of a word: some bits taken out of it, and put into it at their place.
-/

namespace NaviMisc.Lib.BitFields

open NaviMisc.Lib.Bits

def mask (w k : ℕ) : BitVec w := BitVec.ofNat w (2 ^ k - 1)

/-- The `k` bits of a word from bit `s` up. -/
def field {w : ℕ} (v : BitVec w) (s k : ℕ) : BitVec w := (v >>> s) &&& mask w k

def place {w : ℕ} (u : BitVec w) (s k : ℕ) : BitVec w := (u &&& mask w k) <<< s

variable {w : ℕ}

theorem getLsbD_and_mask (u : BitVec w) (k i : ℕ) :
    (u &&& mask w k).getLsbD i = (decide (i < k) && u.getLsbD i) := by
  rw [BitVec.getLsbD_and, mask, BitVec.getLsbD_ofNat, Nat.testBit_two_pow_sub_one]
  by_cases hi : i < w
  · simp [hi, Bool.and_comm]
  · simp [BitVec.getLsbD_of_ge u i (Nat.le_of_not_lt hi)]

theorem getLsbD_field (v : BitVec w) (s k i : ℕ) :
    (field v s k).getLsbD i = (decide (i < k) && v.getLsbD (s + i)) := by
  rw [field, getLsbD_and_mask, BitVec.getLsbD_ushiftRight]

theorem getLsbD_place (u : BitVec w) (s k i : ℕ) :
    (place u s k).getLsbD i =
      (decide (i < w) && (decide (s ≤ i) && (decide (i < s + k) && u.getLsbD (i - s)))) := by
  rw [place, BitVec.getLsbD_shiftLeft, getLsbD_and_mask]
  by_cases hs : s ≤ i
  · have hk : i - s < k ↔ i < s + k := by omega
    simp [hs, Nat.not_lt.mpr hs, hk]
  · simp [hs, Nat.lt_of_not_le hs]

@[simp] theorem field_or (u v : BitVec w) (s k : ℕ) :
    field (u ||| v) s k = field u s k ||| field v s k := by
  apply BitVec.eq_of_getLsbD_eq
  intro i hi
  simp only [getLsbD_field, BitVec.getLsbD_or, Bool.and_or_distrib_left]

theorem field_place (u : BitVec w) {s k : ℕ} (h : s + k ≤ w) :
    field (place u s k) s k = u &&& mask w k := by
  apply BitVec.eq_of_getLsbD_eq
  intro i hi
  rw [getLsbD_field, getLsbD_place, getLsbD_and_mask]
  by_cases hk : i < k
  · have hw : s + i < w := by omega
    simp [hk, hw]
  · simp [hk]

theorem field_place_of_disjoint (u : BitVec w) {s k t l : ℕ} (h : s + k ≤ t ∨ t + l ≤ s) :
    field (place u t l) s k = 0#w := by
  apply BitVec.eq_of_getLsbD_eq
  intro i hi
  rw [getLsbD_field, getLsbD_place, BitVec.getLsbD_zero]
  simp only [Bool.and_eq_false_iff, decide_eq_false_iff_not]
  omega

@[simp] theorem place_zero (s k : ℕ) : place 0#w s k = 0#w := by
  rw [place, BitVec.zero_and, BitVec.zero_shiftLeft]

theorem field_and_mask (v : BitVec w) (s k : ℕ) : field v s k &&& mask w k = field v s k := by
  rw [field, BitVec.and_assoc, BitVec.and_self]

theorem toNat_field (v : BitVec w) (s : ℕ) {k : ℕ} (h : k ≤ w) :
    (field v s k).toNat = v.toNat / 2 ^ s % 2 ^ k := by
  rw [field, mask, toNat_and_mask _ k h, BitVec.toNat_ushiftRight, Nat.shiftRight_eq_div_pow]

theorem toNat_ofNat_and_mask {n k : ℕ} (hn : n < 2 ^ k) (h : k ≤ w) :
    (BitVec.ofNat w n &&& mask w k).toNat = n := by
  have hw : n < 2 ^ w := hn.trans_le (Nat.pow_le_pow_right (by omega) h)
  rw [mask, toNat_and_mask _ k h, BitVec.toNat_ofNat, Nat.mod_eq_of_lt hw, Nat.mod_eq_of_lt hn]

theorem ofNat_toNat_field (v : BitVec w) (s k : ℕ) :
    BitVec.ofNat w (field v s k).toNat = field v s k := by
  rw [BitVec.ofNat_toNat, BitVec.setWidth_eq]

theorem toNat_ofInt_and_mask (z : ℤ) {k : ℕ} (h : k ≤ w) :
    ((BitVec.ofInt w z &&& mask w k).toNat : ℤ) = z % 2 ^ k := by
  rw [mask, toNat_and_mask _ k h, BitVec.toNat_ofInt]
  have hpos : (0 : ℤ) < 2 ^ w := by positivity
  have hcast : ((2 ^ w : ℕ) : ℤ) = 2 ^ w := by push_cast; rfl
  rw [Int.natCast_mod, Int.toNat_of_nonneg (Int.emod_nonneg _ (by rw [hcast]; omega)), hcast,
    Nat.cast_pow, Nat.cast_two]
  exact Int.emod_emod_of_dvd z (pow_dvd_pow 2 h)

end NaviMisc.Lib.BitFields

/-!
Words that are shifted through a register, the highest bit first.
-/

namespace NaviMisc.Lib.ShiftRegister

variable {w : ℕ}

def highFirst (u : BitVec w) : List Bool := (List.range w).map u.getMsbD

/-- A register from which `k` bits have gone, with ones behind them. -/
def drained (u : BitVec w) (k : ℕ) : BitVec w := (List.replicate k true).foldl BitVec.shiftConcat u

@[simp] theorem length_highFirst (u : BitVec w) : (highFirst u).length = w := by
  rw [highFirst, List.length_map, List.length_range]

theorem getLsbD_foldl_shiftConcat (l : List Bool) (u : BitVec w) {i : ℕ} (hi : i < w) :
    (l.foldl BitVec.shiftConcat u).getLsbD i =
      if i < l.length then l.reverse.getD i false else u.getLsbD (i - l.length) := by
  induction l using List.reverseRec generalizing i with
  | nil => simp
  | append_singleton l b ih =>
    rw [List.foldl_append, List.foldl_cons, List.foldl_nil, BitVec.getLsbD_shiftConcat]
    rw [List.reverse_append, List.length_append]
    cases i with
    | zero => simp [hi]
    | succ i =>
      simp [hi, ih (Nat.lt_of_succ_lt hi), Nat.add_sub_add_right]

theorem foldl_shiftConcat_highFirst (u v : BitVec w) :
    (highFirst v).foldl BitVec.shiftConcat u = v := by
  apply BitVec.eq_of_getLsbD_eq
  intro i hi
  have hlast : w - 1 - i < w := by omega
  have hback : w - 1 - (w - 1 - i) = i := by omega
  rw [getLsbD_foldl_shiftConcat _ _ hi, length_highFirst, if_pos hi]
  simp [highFirst, hi, hlast, BitVec.getMsbD, hback]

theorem drained_succ (u : BitVec w) (k : ℕ) :
    drained u (k + 1) = (drained u k).shiftConcat true := by
  rw [drained, List.replicate_succ', List.foldl_append]
  rfl

theorem getLsbD_drained (u : BitVec w) (k : ℕ) {i : ℕ} (hi : i < w) :
    (drained u k).getLsbD i = if i < k then true else u.getLsbD (i - k) := by
  rw [drained, getLsbD_foldl_shiftConcat _ _ hi, List.length_replicate]
  by_cases h : i < k
  · simp [h]
  · simp [h]

theorem msb_drained (u : BitVec w) {k : ℕ} (hk : k < w) : (drained u k).msb = u.getMsbD k := by
  rw [BitVec.msb_eq_getLsbD_last, getLsbD_drained u k (by omega), if_neg (by omega),
    BitVec.getMsbD, decide_eq_true hk, Bool.true_and]

theorem drained_width (u : BitVec w) : drained u w = BitVec.allOnes w := by
  apply BitVec.eq_of_getLsbD_eq
  intro i hi
  rw [getLsbD_drained u w hi, if_pos hi, BitVec.getLsbD_allOnes, decide_eq_true hi]

theorem take_succ_highFirst (u : BitVec w) {k : ℕ} (hk : k < w) :
    (highFirst u).take (k + 1) = (highFirst u).take k ++ [u.getMsbD k] := by
  rw [List.take_succ_eq_append_getElem (by rwa [length_highFirst])]
  simp [highFirst]

end NaviMisc.Lib.ShiftRegister

/-!
Words as lists of their bits, the lowest one first.
-/

namespace NaviMisc.Lib.BitLists

open NaviMisc.Lib.Bits

/-- The word with the bits of a list, the lowest one first. -/
def gather (w : ℕ) (l : List Bool) : BitVec w := (BitVec.ofBoolListLE l).setWidth w

def lowFirst {w : ℕ} (u : BitVec w) (n : ℕ) : List Bool := (List.range n).map u.getLsbD

/-- A bit goes where the mask has its one, which then moves up. -/
def collect {w : ℕ} (s : BitVec w × BitVec w) (b : Bool) : BitVec w × BitVec w :=
  (if b then s.1 ||| s.2 else s.1, s.2 <<< 1)

theorem getLsbD_gather (w : ℕ) (l : List Bool) (i : ℕ) :
    (gather w l).getLsbD i = (decide (i < w) && l.getD i false) := by
  rw [gather, BitVec.getLsbD_setWidth, BitVec.getLsbD_ofBoolListLE]

@[simp] theorem length_lowFirst {w : ℕ} (u : BitVec w) (n : ℕ) : (lowFirst u n).length = n := by
  rw [lowFirst, List.length_map, List.length_range]

theorem lowFirst_append {m n : ℕ} (high : BitVec n) (low : BitVec m) :
    lowFirst (high ++ low) (m + n) = lowFirst low m ++ lowFirst high n := by
  rw [lowFirst, List.range_add, List.map_append, List.map_map]
  congr 1
  · apply List.map_congr_left
    intro i hi
    rw [BitVec.getLsbD_append, if_pos (List.mem_range.mp hi)]
  · apply List.map_congr_left
    intro i _
    change (high ++ low).getLsbD (m + i) = _
    rw [BitVec.getLsbD_append, if_neg (by omega), Nat.add_sub_cancel_left]

theorem lowFirst_setWidth {w : ℕ} (u : BitVec w) (n : ℕ) :
    lowFirst (u.setWidth n) n = lowFirst u n := by
  apply List.map_congr_left
  intro i hi
  rw [BitVec.getLsbD_setWidth, decide_eq_true (List.mem_range.mp hi), Bool.true_and]

theorem gather_lowFirst_setWidth (w : ℕ) {n : ℕ} (u : BitVec n) :
    gather w (lowFirst u n) = u.setWidth w := by
  apply BitVec.eq_of_getLsbD_eq
  intro i hi
  rw [getLsbD_gather, BitVec.getLsbD_setWidth]
  by_cases hn : i < n
  · simp [lowFirst, hi, hn]
  · simp [lowFirst, hn, BitVec.getLsbD_of_ge u i (Nat.le_of_not_lt hn)]

theorem gather_lowFirst {w : ℕ} (u : BitVec w) : gather w (lowFirst u w) = u := by
  rw [gather_lowFirst_setWidth, BitVec.setWidth_eq]

theorem lowFirst_gather {w : ℕ} {l : List Bool} (h : l.length = w) : lowFirst (gather w l) w = l := by
  apply List.ext_getElem
  · rw [length_lowFirst, h]
  · intro i hi hi'
    have hget : (lowFirst (gather w l) w)[i] = (gather w l).getLsbD i := by simp [lowFirst]
    rw [hget, getLsbD_gather, decide_eq_true (h ▸ hi'), Bool.true_and,
      List.getD_eq_getElem _ _ hi']

theorem gather_setWidth {m : ℕ} (w : ℕ) {l : List Bool} (hl : l.length ≤ m) :
    gather w l = (gather m l).setWidth w := by
  apply BitVec.eq_of_getLsbD_eq
  intro i hi
  rw [BitVec.getLsbD_setWidth, getLsbD_gather, getLsbD_gather]
  by_cases h : i < m
  · simp [hi, h]
  · simp [h, show l.length ≤ i by omega]

theorem foldl_collect (w : ℕ) (l : List Bool) :
    l.foldl collect (0#w, 1#w) = (gather w l, 1#w <<< l.length) := by
  induction l using List.reverseRec with
  | nil =>
    apply Prod.ext
    · apply BitVec.eq_of_getLsbD_eq
      intro i hi
      simp [getLsbD_gather]
    · exact (BitVec.shiftLeft_zero _).symm
  | append_singleton l b ih =>
    rw [List.foldl_append, ih, List.foldl_cons, List.foldl_nil, collect]
    apply Prod.ext
    · apply BitVec.eq_of_getLsbD_eq
      intro i hi
      have hbit : (gather w (l ++ [b])).getLsbD i =
          ((gather w l).getLsbD i || (b && decide (i = l.length))) := by
        simp only [getLsbD_gather, hi, decide_true, Bool.true_and]
        rcases Nat.lt_trichotomy i l.length with hlt | rfl | hgt
        · simp [List.getElem?_append_left hlt, Nat.ne_of_lt hlt]
        · simp
        · have hend : (l ++ [b]).length ≤ i := by rwa [List.length_append]
          rw [List.getD_eq_default _ _ hend, List.getD_eq_default _ _ hgt.le]
          simp [Nat.ne_of_gt hgt]
      rw [hbit]
      cases b with
      | false => simp
      | true =>
        by_cases hl : l.length < w
        · simp [getLsbD_or_one_shiftLeft _ hl]
        · have hne : i ≠ l.length := by omega
          simp [BitVec.shiftLeft_eq_zero (Nat.le_of_not_lt hl), hne]
    · simp [BitVec.shiftLeft_add]

section Words

variable {v : ℕ}

def firstBits (words : List (BitVec v)) (n : ℕ) : List Bool := (List.range n).map (wordsBit words)

@[simp] theorem length_firstBits (words : List (BitVec v)) (n : ℕ) :
    (firstBits words n).length = n := by
  rw [firstBits, List.length_map, List.length_range]

theorem firstBits_succ (words : List (BitVec v)) (n : ℕ) :
    firstBits words (n + 1) = firstBits words n ++ [wordsBit words n] := by
  rw [firstBits, List.range_succ, List.map_append, List.map_singleton, firstBits]

theorem take_firstBits (words : List (BitVec v)) {m n : ℕ} (h : m ≤ n) :
    (firstBits words n).take m = firstBits words m := by
  rw [firstBits, ← List.map_take, List.take_range, Nat.min_eq_left h, firstBits]

theorem firstBits_congr {words words' : List (BitVec v)} {n : ℕ}
    (h : ∀ i < n, wordsBit words i = wordsBit words' i) : firstBits words n = firstBits words' n :=
  List.map_congr_left fun i hi => h i (List.mem_range.mp hi)

theorem firstBits_take (words : List (BitVec v)) {k n : ℕ} (h : n ≤ v * k) :
    firstBits (words.take k) n = firstBits words n := by
  apply firstBits_congr
  intro i hi
  have hlt : i / v < k := Nat.div_lt_of_lt_mul (hi.trans_le h)
  rw [wordsBit, wordsBit, List.getD_eq_getElem?_getD, List.getElem?_take_of_lt hlt,
    ← List.getD_eq_getElem?_getD]

def setBit (u : BitVec v) (i : ℕ) (b : Bool) : BitVec v :=
  if b then u ||| 1#v <<< i else u &&& ~~~(1#v <<< i)

theorem getLsbD_setBit (u : BitVec v) {i : ℕ} (hi : i < v) (b : Bool) (j : ℕ) :
    (setBit u i b).getLsbD j = if j = i then b else u.getLsbD j := by
  cases b with
  | false =>
    rw [setBit, if_neg Bool.false_ne_true, getLsbD_and_not_one_shiftLeft u hi]
    by_cases hj : j = i <;> simp [hj]
  | true =>
    rw [setBit, if_pos rfl, getLsbD_or_one_shiftLeft u hi]
    by_cases hj : j = i <;> simp [hj]

def putBit (words : List (BitVec v)) (n : ℕ) (b : Bool) : List (BitVec v) :=
  words.set (n / v) (setBit (words.getD (n / v) 0) (n % v) b)

theorem wordsBit_putBit {words : List (BitVec v)} {n : ℕ} (hn : n / v < words.length) (hv : 0 < v)
    (b : Bool) (i : ℕ) :
    wordsBit (putBit words n b) i = if i = n then b else wordsBit words i := by
  rw [wordsBit, putBit]
  by_cases hword : i / v = n / v
  · have hget : (words.set (n / v) (setBit (words.getD (n / v) 0) (n % v) b)).getD (i / v) 0 =
        setBit (words.getD (n / v) 0) (n % v) b := by
      simp [hword, hn]
    have hsame : i % v = n % v ↔ i = n := by
      constructor
      · intro hmod
        rw [← Nat.div_add_mod i v, hword, hmod, Nat.div_add_mod]
      · rintro rfl
        rfl
    rw [hget, getLsbD_setBit _ (Nat.mod_lt n hv)]
    simp only [hsame]
    rw [wordsBit, hword]
  · have hget : (words.set (n / v) (setBit (words.getD (n / v) 0) (n % v) b)).getD (i / v) 0 =
        words.getD (i / v) 0 := by
      simp [List.getElem?_set_ne (Ne.symm hword)]
    have hne : i ≠ n := by
      rintro rfl
      exact hword rfl
    rw [hget, if_neg hne, wordsBit]

theorem firstBits_putBit {words : List (BitVec v)} {n : ℕ} (hn : n / v < words.length)
    (hv : 0 < v) (b : Bool) : firstBits (putBit words n b) (n + 1) = firstBits words n ++ [b] := by
  rw [firstBits_succ, wordsBit_putBit hn hv, if_pos rfl]
  congr 1
  apply firstBits_congr
  intro i hi
  rw [wordsBit_putBit hn hv, if_neg (Nat.ne_of_lt hi)]

end Words

end NaviMisc.Lib.BitLists
