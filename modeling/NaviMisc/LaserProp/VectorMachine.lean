import NaviMisc.Lib.Bits
import NaviMisc.Lib.Rounding

/-!
Instruction words of the vector machine (client/VectorMachine.py): packing, unpacking and the
exponent two coordinates share.
-/

namespace NaviMisc.LaserProp

open NaviMisc.Lib.Bits NaviMisc.Lib.BitFields NaviMisc.Lib.Rounding

abbrev Word := BitVec 32

def FIXED_POINT_BITS : ℕ := 14
def FIXED_POINT_SCALE : ℕ := 1 <<< FIXED_POINT_BITS

theorem fixedPointScale_eq : FIXED_POINT_SCALE = 2 ^ 14 := rfl

def X_SHIFT : ℕ := 0
def X_MASK : ℕ := (1 <<< 9) - 1
def OFFSET_SHIFT : ℕ := 0
def OFFSET_MASK : ℕ := (1 <<< 16) - 1
def Y_SHIFT : ℕ := 9
def Y_MASK : ℕ := (1 <<< 9) - 1
def EXP_SHIFT : ℕ := 18
def EXP_MASK : ℕ := (1 <<< 4) - 1
def SCNT_SHIFT : ℕ := 22
def SCNT_MASK : ℕ := (1 <<< 7) - 1
def LE_SHIFT : ℕ := 29
def LE_MASK : ℕ := 1
def REG_SHIFT : ℕ := 30
def REG_MASK : ℕ := (1 <<< 2) - 1

def REG_SP : ℕ := 0
def REG_S : ℕ := 1
def REG_DS : ℕ := 2
def REG_DDS : ℕ := 3

def SP_NOP : ℕ := 0

/-- The arguments of `pack` with their defaults, and the tuple `unpack` returns. -/
structure Fields where
  reg : ℕ := REG_S
  le : ℕ := 0
  scnt : ℕ := 0
  exp : ℕ := 0
  y : ℤ := 0
  x : ℤ := 0
  offset : ℕ := 0
  deriving DecidableEq

structure Fields.InRange (f : Fields) : Prop where
  reg : f.reg ≤ REG_MASK
  le : f.le ≤ LE_MASK
  scnt : f.scnt ≤ SCNT_MASK
  exp : f.exp ≤ EXP_MASK
  y : -256 ≤ f.y ∧ f.y ≤ 255
  x : -256 ≤ f.x ∧ f.x ≤ 255

def pack (f : Fields) : Word :=
  ((BitVec.ofNat 32 f.reg &&& BitVec.ofNat 32 REG_MASK) <<< REG_SHIFT) |||
  ((BitVec.ofNat 32 f.le &&& BitVec.ofNat 32 LE_MASK) <<< LE_SHIFT) |||
  ((BitVec.ofNat 32 f.scnt &&& BitVec.ofNat 32 SCNT_MASK) <<< SCNT_SHIFT) |||
  ((BitVec.ofNat 32 f.exp &&& BitVec.ofNat 32 EXP_MASK) <<< EXP_SHIFT) |||
  ((BitVec.ofInt 32 f.y &&& BitVec.ofNat 32 Y_MASK) <<< Y_SHIFT) |||
  ((BitVec.ofInt 32 f.x &&& BitVec.ofNat 32 X_MASK) <<< X_SHIFT) |||
  ((BitVec.ofNat 32 f.offset &&& BitVec.ofNat 32 OFFSET_MASK) <<< OFFSET_SHIFT)

/-- The sign extension of `unpack`: nine bits as a number from -256 to 255. -/
def signed (u : Word) : ℤ :=
  if u &&& 0x100#32 ≠ 0#32 then u.toNat - 0x200 else u.toNat

def unpack (v : Word) : Fields where
  reg := ((v >>> REG_SHIFT) &&& BitVec.ofNat 32 REG_MASK).toNat
  le := ((v >>> LE_SHIFT) &&& BitVec.ofNat 32 LE_MASK).toNat
  scnt := ((v >>> SCNT_SHIFT) &&& BitVec.ofNat 32 SCNT_MASK).toNat
  exp := ((v >>> EXP_SHIFT) &&& BitVec.ofNat 32 EXP_MASK).toNat
  y := signed ((v >>> Y_SHIFT) &&& BitVec.ofNat 32 Y_MASK)
  x := signed ((v >>> X_SHIFT) &&& BitVec.ofNat 32 X_MASK)
  offset := ((v >>> OFFSET_SHIFT) &&& BitVec.ofNat 32 OFFSET_MASK).toNat

theorem pack_eq (f : Fields) :
    pack f = place (BitVec.ofNat 32 f.reg) 30 2 ||| place (BitVec.ofNat 32 f.le) 29 1 |||
      place (BitVec.ofNat 32 f.scnt) 22 7 ||| place (BitVec.ofNat 32 f.exp) 18 4 |||
      place (BitVec.ofInt 32 f.y) 9 9 ||| place (BitVec.ofInt 32 f.x) 0 9 |||
      place (BitVec.ofNat 32 f.offset) 0 16 := rfl

theorem unpack_eq (v : Word) :
    unpack v =
      { reg := (field v 30 2).toNat, le := (field v 29 1).toNat, scnt := (field v 22 7).toNat,
        exp := (field v 18 4).toNat, y := signed (field v 9 9), x := signed (field v 0 9),
        offset := (field v 0 16).toNat } := rfl

theorem signed_field (v : Word) (s : ℕ) :
    signed (field v s 9) =
      if 256 ≤ (field v s 9).toNat then ((field v s 9).toNat : ℤ) - 512 else (field v s 9).toNat := by
  have hlt : (field v s 9).toNat < 512 := by
    rw [toNat_field v s (by decide)]
    omega
  have hbit : field v s 9 &&& 0x100#32 ≠ 0#32 ↔ 256 ≤ (field v s 9).toNat := by
    have h := and_twoPow_bne_zero (field v s 9) 8 (by decide)
    rw [show BitVec.twoPow 32 8 = 0x100#32 by decide, bit] at h
    rw [← bne_iff_ne, h, decide_eq_true_eq]
    omega
  rw [signed]
  simp only [hbit]

theorem signed_bounds (v : Word) (s : ℕ) :
    -256 ≤ signed (field v s 9) ∧ signed (field v s 9) ≤ 255 := by
  have hlt : (field v s 9).toNat < 512 := by
    rw [toNat_field v s (by decide)]
    omega
  rw [signed_field]
  split <;> omega

theorem signed_field_emod (v : Word) (s : ℕ) :
    signed (field v s 9) % 2 ^ 9 = (field v s 9).toNat := by
  have hlt : (field v s 9).toNat < 512 := by
    rw [toNat_field v s (by decide)]
    omega
  rw [signed_field]
  split <;> omega

theorem place_signed (v : Word) (s : ℕ) :
    place (BitVec.ofInt 32 (signed (field v s 9))) s 9 = place (v >>> s) s 9 := by
  have h : BitVec.ofInt 32 (signed (field v s 9)) &&& mask 32 9 = field v s 9 := by
    apply BitVec.eq_of_toNat_eq
    have h := toNat_ofInt_and_mask (w := 32) (signed (field v s 9)) (k := 9) (by decide)
    rw [signed_field_emod] at h
    omega
  rw [place, h, field, place]

theorem place_toNat_field (v : Word) (s k : ℕ) :
    place (BitVec.ofNat 32 (field v s k).toNat) s k = place (v >>> s) s k := by
  rw [ofNat_toNat_field, place, field_and_mask, field, place]

theorem pack_unpack (v : Word) : pack (unpack v) = v := by
  rw [pack_eq, unpack_eq]
  simp only [place_toNat_field, place_signed]
  apply BitVec.eq_of_getLsbD_eq
  intro i hi
  simp only [BitVec.getLsbD_or, getLsbD_place, BitVec.getLsbD_ushiftRight]
  by_cases h : v.getLsbD i
  · grind
  · grind

theorem signed_ofInt {z : ℤ} (hz : -256 ≤ z ∧ z ≤ 255) :
    signed (BitVec.ofInt 32 z &&& mask 32 9) = z := by
  have hv := field_place (BitVec.ofInt 32 z) (s := 0) (k := 9) (by decide)
  have h := toNat_ofInt_and_mask (w := 32) z (k := 9) (by decide)
  rw [← hv] at h ⊢
  rw [signed_field]
  split <;> omega

theorem unpack_pack {f : Fields} (hf : f.InRange) (h : f.offset = 0) :
    unpack (pack f) = { f with offset := (field (pack f) 0 16).toNat } := by
  have hreg := hf.reg
  have hle := hf.le
  have hscnt := hf.scnt
  have hexp := hf.exp
  simp only [REG_MASK, LE_MASK, SCNT_MASK, EXP_MASK] at hreg hle hscnt hexp
  have hpack : pack f =
      place (BitVec.ofNat 32 f.reg) 30 2 ||| place (BitVec.ofNat 32 f.le) 29 1 |||
        place (BitVec.ofNat 32 f.scnt) 22 7 ||| place (BitVec.ofNat 32 f.exp) 18 4 |||
        place (BitVec.ofInt 32 f.y) 9 9 ||| place (BitVec.ofInt 32 f.x) 0 9 := by
    rw [pack_eq, h, place_zero, BitVec.or_zero]
  rw [unpack_eq, hpack]
  -- each field is read from its own place and from none of the others
  simp (disch := decide) only [field_or, field_place, field_place_of_disjoint, BitVec.or_zero,
    BitVec.zero_or, signed_ofInt hf.y, signed_ofInt hf.x]
  rw [toNat_ofNat_and_mask (by omega) (by decide), toNat_ofNat_and_mask (by omega) (by decide),
    toNat_ofNat_and_mask (by omega) (by decide), toNat_ofNat_and_mask (by omega) (by decide)]

theorem inRange_unpack (v : Word) : (unpack v).InRange := by
  have h (s k : ℕ) (hk : k ≤ 32) : (field v s k).toNat < 2 ^ k := by
    rw [toNat_field v s hk]
    exact Nat.mod_lt _ (Nat.two_pow_pos k)
  rw [unpack_eq]
  exact ⟨Nat.le_of_lt_succ (h 30 2 (by decide)), Nat.le_of_lt_succ (h 29 1 (by decide)),
    Nat.le_of_lt_succ (h 22 7 (by decide)), Nat.le_of_lt_succ (h 18 4 (by decide)),
    signed_bounds v 9, signed_bounds v 0⟩

inductive Error
  | unsupportedOperand
  | noneType
  | indexOutOfRange
  | notImplemented
  | assertionFailed
  deriving DecidableEq

/-- Python's integers and floats; the client divides with `/` from the future. -/
inductive Num
  | int (n : ℤ)
  | float (q : ℚ)

def Num.value : Num → ℚ
  | .int n => n
  | .float q => q

def Num.max (a b : Num) : Num := if a.value < b.value then b else a

def Num.min (a b : Num) : Num := if b.value < a.value then b else a

/-- An operand of `&`. -/
def Num.operand : Num → Except Error ℤ
  | .int n => .ok n
  | .float _ => .error .unsupportedOperand

def absMax : ℕ := 0xFF

theorem shiftRight_succ (z : ℤ) (e : ℕ) : z >>> (e + 1) = (z >>> e) / 2 := by
  rw [Int.shiftRight_add, Int.shiftRight_eq_div_pow _ 1]
  rfl

def exponent (xi yi : ℤ) (exp : ℕ) : ℕ :=
  if (xi >>> exp).natAbs > absMax ∨ (yi >>> exp).natAbs > absMax then
    exponent xi yi (exp + 1)
  else
    exp
termination_by (xi >>> exp).natAbs + (yi >>> exp).natAbs
decreasing_by
  rw [shiftRight_succ, shiftRight_succ]
  simp only [absMax] at *
  omega

def fixedPoint (x : ℚ) : ℤ := truncate (FIXED_POINT_SCALE * x + 1 / 2)

/-- `packFloat` from its fixed-point values on. -/
def packFixed (reg le scnt : ℕ) (yi xi : ℤ) : Except Error Word := do
  let exp := min EXP_MASK (exponent xi yi 0)
  let xi := xi >>> exp
  let yi := yi >>> exp
  let xi := Num.min (.float (X_MASK / 2)) (Num.max (.float (-X_MASK / 2)) (.int xi))
  let yi := Num.min (.float (Y_MASK / 2)) (Num.max (.float (-Y_MASK / 2)) (.int yi))
  let y ← yi.operand
  let x ← xi.operand
  .ok (pack { reg := reg, le := le, scnt := scnt, exp := exp, y := y, x := x })

def packFloat (reg le scnt : ℕ) (y x : ℚ) : Except Error Word :=
  packFixed reg le scnt (fixedPoint y) (fixedPoint x)

def Fits (xi yi : ℤ) (e : ℕ) : Prop := (xi >>> e).natAbs ≤ absMax ∧ (yi >>> e).natAbs ≤ absMax

theorem Fits.mono {xi yi : ℤ} {e e' : ℕ} (h : Fits xi yi e) (hle : e ≤ e') : Fits xi yi e' := by
  induction e', hle using Nat.le_induction with
  | base => exact h
  | succ e' _ ih =>
    obtain ⟨hx, hy⟩ := ih
    simp only [absMax] at hx hy
    constructor
    · rw [shiftRight_succ, absMax]
      omega
    · rw [shiftRight_succ, absMax]
      omega

theorem exponent_isLeast (xi yi : ℤ) (e : ℕ) :
    IsLeast {e' | e ≤ e' ∧ Fits xi yi e'} (exponent xi yi e) := by
  induction e using exponent.induct xi yi with
  | case1 e h ih =>
    rw [exponent, if_pos h]
    have hne : ¬ Fits xi yi e := by
      intro hf
      have := hf.1
      have := hf.2
      omega
    constructor
    · exact ⟨Nat.le_of_succ_le ih.1.1, ih.1.2⟩
    · rintro e' ⟨hle, hf⟩
      apply ih.2
      rcases Nat.lt_or_eq_of_le hle with hlt | rfl
      · exact ⟨hlt, hf⟩
      · exact absurd hf hne
  | case2 e h =>
    rw [exponent, if_neg h]
    constructor
    · exact ⟨le_rfl, by omega, by omega⟩
    · intro e' h'
      exact h'.1

theorem exponent_le_iff (xi yi : ℤ) (e : ℕ) : exponent xi yi 0 ≤ e ↔ Fits xi yi e := by
  have h := exponent_isLeast xi yi 0
  constructor
  · intro hle
    exact h.1.2.mono hle
  · intro hf
    exact h.2 ⟨Nat.zero_le e, hf⟩

theorem clamp_of_le {m : ℕ} (hm : m = 511) {z : ℤ} (hz : z.natAbs ≤ absMax) :
    Num.min (.float (m / 2)) (Num.max (.float (-m / 2)) (.int z)) = .int z := by
  simp only [absMax] at hz
  have hlo : (Num.float (-m / 2)).value < (Num.int z).value := by
    have h : ((-255 : ℤ) : ℚ) ≤ z := Int.cast_le.mpr (by omega)
    rw [Num.value, Num.value, hm]
    push_cast at h ⊢
    linarith
  have hhi : (Num.int z).value < (Num.float (m / 2)).value := by
    have h : (z : ℚ) ≤ (255 : ℤ) := Int.cast_le.mpr (by omega)
    rw [Num.value, Num.value, hm]
    push_cast at h ⊢
    linarith
  rw [Num.max, if_pos hlo, Num.min, if_pos hhi]

theorem clamp_of_gt {m : ℕ} (hm : m = 511) {z : ℤ} (hz : absMax < z.natAbs) :
    ∃ q, Num.min (.float (m / 2)) (Num.max (.float (-m / 2)) (.int z)) = .float q := by
  simp only [absMax] at hz
  rcases Int.le_total 0 z with hpos | hneg
  · have h : ((256 : ℤ) : ℚ) ≤ z := Int.cast_le.mpr (by omega)
    have hlo : (Num.float (-m / 2)).value < (Num.int z).value := by
      rw [Num.value, Num.value, hm]
      push_cast at h ⊢
      linarith
    have hhi : ¬ (Num.int z).value < (Num.float (m / 2)).value := by
      rw [Num.value, Num.value, hm]
      push_cast at h ⊢
      linarith
    refine ⟨m / 2, ?_⟩
    rw [Num.max, if_pos hlo, Num.min, if_neg hhi]
  · have h : (z : ℚ) ≤ (-256 : ℤ) := Int.cast_le.mpr (by omega)
    have hlo : ¬ (Num.float (-m / 2)).value < (Num.int z).value := by
      rw [Num.value, Num.value, hm]
      push_cast at h ⊢
      linarith
    have hhi : (Num.float (-m / 2)).value < (Num.float (m / 2)).value := by
      rw [Num.value, Num.value, hm]
      norm_num
    refine ⟨-m / 2, ?_⟩
    rw [Num.max, if_neg hlo, Num.min, if_pos hhi]

theorem packFixed_of_fits (reg le scnt : ℕ) {yi xi : ℤ} (h : Fits xi yi EXP_MASK) :
    packFixed reg le scnt yi xi =
      .ok (pack { reg := reg, le := le, scnt := scnt, exp := exponent xi yi 0,
                  y := yi >>> exponent xi yi 0, x := xi >>> exponent xi yi 0 }) := by
  have hmin : min EXP_MASK (exponent xi yi 0) = exponent xi yi 0 :=
    min_eq_right ((exponent_le_iff ..).mpr h)
  obtain ⟨hx, hy⟩ := (exponent_isLeast xi yi 0).1.2
  simp only [packFixed, hmin]
  rw [clamp_of_le (m := X_MASK) rfl hx, clamp_of_le (m := Y_MASK) rfl hy]
  rfl

theorem packFixed_of_not_fits (reg le scnt : ℕ) {yi xi : ℤ} (h : ¬ Fits xi yi EXP_MASK) :
    packFixed reg le scnt yi xi = .error .unsupportedOperand := by
  have hmin : min EXP_MASK (exponent xi yi 0) = EXP_MASK := by
    apply min_eq_left
    apply Nat.le_of_lt
    apply Nat.lt_of_not_le
    rwa [exponent_le_iff]
  simp only [packFixed, hmin]
  by_cases hy : absMax < (yi >>> EXP_MASK).natAbs
  · obtain ⟨q, hq⟩ := clamp_of_gt (m := Y_MASK) rfl hy
    rw [hq]
    rfl
  · have hx : absMax < (xi >>> EXP_MASK).natAbs := by
      by_contra hx
      exact h ⟨Nat.le_of_not_lt hx, Nat.le_of_not_lt hy⟩
    obtain ⟨q, hq⟩ := clamp_of_gt (m := X_MASK) rfl hx
    rw [clamp_of_le (m := Y_MASK) rfl (Nat.le_of_not_lt hy), hq]
    rfl

theorem mantissa_bounds {z : ℤ} {e : ℕ} (h : (z >>> e).natAbs ≤ absMax) :
    -256 ≤ z >>> e ∧ z >>> e ≤ 255 := by
  simp only [absMax] at h
  omega

theorem shift_back (z : ℤ) (e : ℕ) :
    (z >>> e) * 2 ^ e ≤ z ∧ z < (z >>> e) * 2 ^ e + 2 ^ e := by
  have hpos : (0 : ℤ) < 2 ^ e := by positivity
  rw [Int.shiftRight_eq_div_pow]
  push_cast
  have hdiv := Int.mul_ediv_add_emod z (2 ^ e)
  have hnonneg := Int.emod_nonneg z hpos.ne'
  have hlt := Int.emod_lt_of_pos z hpos
  constructor
  · linarith
  · linarith

/-- What `packFloat` promises: the smallest exponent that fits, or the largest mantissas. -/
def Saturates (result : Except Error Word) (reg le scnt : ℕ) (yi xi : ℤ) : Prop :=
  ∃ word e, result = .ok word ∧ IsLeast {e | Fits xi yi e} e ∧
    (unpack word).reg = reg ∧ (unpack word).le = le ∧ (unpack word).scnt = scnt ∧
    (e ≤ EXP_MASK →
      (unpack word).exp = e ∧ (unpack word).x = xi >>> e ∧ (unpack word).y = yi >>> e ∧
        (unpack word).x * 2 ^ e ≤ xi ∧ xi < (unpack word).x * 2 ^ e + 2 ^ e ∧
        (unpack word).y * 2 ^ e ≤ yi ∧ yi < (unpack word).y * 2 ^ e + 2 ^ e) ∧
    (EXP_MASK < e →
      (unpack word).exp = EXP_MASK ∧
        (unpack word).x = max (-(absMax : ℤ)) (min absMax (xi >>> EXP_MASK)) ∧
        (unpack word).y = max (-(absMax : ℤ)) (min absMax (yi >>> EXP_MASK)))

/-- A fixed-point value that nine bits and an exponent of at most 15 can hold. -/
def Encodable (z : ℤ) : Prop := -(255 * 2 ^ 15) ≤ z ∧ z < 256 * 2 ^ 15

theorem natAbs_shiftRight_le_iff (z : ℤ) : (z >>> EXP_MASK).natAbs ≤ absMax ↔ Encodable z := by
  rw [Int.shiftRight_eq_div_pow, show EXP_MASK = 15 by decide, absMax, Encodable]
  omega

theorem fits_iff (xi yi : ℤ) : Fits xi yi EXP_MASK ↔ Encodable xi ∧ Encodable yi := by
  rw [Fits, natAbs_shiftRight_le_iff, natAbs_shiftRight_le_iff]

theorem packFixed_eq_error_iff (reg le scnt : ℕ) (yi xi : ℤ) (e : Error) :
    packFixed reg le scnt yi xi = .error e ↔
      e = .unsupportedOperand ∧ ¬ (Encodable xi ∧ Encodable yi) := by
  rw [← fits_iff]
  by_cases h : Fits xi yi EXP_MASK
  · rw [packFixed_of_fits reg le scnt h]
    exact iff_of_false nofun fun hand => hand.2 h
  · rw [packFixed_of_not_fits reg le scnt h, Except.error.injEq]
    exact ⟨fun heq => ⟨heq.symm, h⟩, fun hand => hand.1.symm⟩

theorem unpack_packed {reg le scnt : ℕ} (hreg : reg ≤ REG_MASK) (hle : le ≤ LE_MASK)
    (hscnt : scnt ≤ SCNT_MASK) {xi yi : ℤ} {e : ℕ} (he : e ≤ EXP_MASK) (h : Fits xi yi e) :
    ∃ offset, unpack (pack { reg := reg, le := le, scnt := scnt, exp := e, y := yi >>> e,
                             x := xi >>> e }) =
      { reg := reg, le := le, scnt := scnt, exp := e, y := yi >>> e, x := xi >>> e,
        offset := offset } :=
  ⟨_, unpack_pack ⟨hreg, hle, hscnt, he, mantissa_bounds h.2, mantissa_bounds h.1⟩ rfl⟩

theorem saturates_of_fits {reg le scnt : ℕ} (hreg : reg ≤ REG_MASK) (hle : le ≤ LE_MASK)
    (hscnt : scnt ≤ SCNT_MASK) {xi yi : ℤ} (h : Fits xi yi EXP_MASK) :
    Saturates (packFixed reg le scnt yi xi) reg le scnt yi xi := by
  have hleast := exponent_isLeast xi yi 0
  have hexp := (exponent_le_iff xi yi EXP_MASK).mpr h
  obtain ⟨offset, hunpack⟩ := unpack_packed hreg hle hscnt hexp hleast.1.2
  refine ⟨_, exponent xi yi 0, packFixed_of_fits reg le scnt h, ?_, ?_⟩
  · simpa using hleast
  · rw [hunpack]
    refine ⟨rfl, rfl, rfl, fun _ => ⟨rfl, rfl, rfl, ?_⟩, fun hlt => ?_⟩
    · exact ⟨(shift_back xi _).1, (shift_back xi _).2, shift_back yi _⟩
    · exact absurd hexp (Nat.not_le.mpr hlt)

theorem not_saturates_of_not_fits (reg le scnt : ℕ) {xi yi : ℤ} (h : ¬ Fits xi yi EXP_MASK) :
    ¬ Saturates (packFixed reg le scnt yi xi) reg le scnt yi xi := by
  rintro ⟨word, e, hok, -⟩
  rw [packFixed_of_not_fits reg le scnt h] at hok
  cases hok

/-- Packing and unpacking undo each other, and `packFloat` keeps its promise exactly when it
has nothing to clamp: the bound it clamps with is a float, which `&` refuses. -/
theorem packFloat_faithful (v : Word) (f : Fields) (reg le scnt : ℕ) (yi xi : ℤ)
    (hf : f.InRange) (hoffset : f.offset = 0) (hreg : reg ≤ REG_MASK) (hle : le ≤ LE_MASK)
    (hscnt : scnt ≤ SCNT_MASK) :
    pack (unpack v) = v ∧ (∃ offset, unpack (pack f) = { f with offset := offset }) ∧
      (Saturates (packFixed reg le scnt yi xi) reg le scnt yi xi ↔
        Encodable xi ∧ Encodable yi) := by
  refine ⟨pack_unpack v, ⟨_, unpack_pack hf hoffset⟩, ?_⟩
  rw [← fits_iff]
  constructor
  · intro h
    by_contra hfits
    exact not_saturates_of_not_fits reg le scnt hfits h
  · exact saturates_of_fits hreg hle hscnt

theorem packFloat_faithful_small :
    pack (unpack 0xdeadbeef) = 0xdeadbeef ∧
      (∃ offset, unpack (pack { x := -256, y := 255, exp := 3 }) =
        { x := -256, y := 255, exp := 3, offset := offset }) ∧
      (Saturates (packFixed REG_S 1 5 (-7) 300) REG_S 1 5 (-7) 300 ↔
        Encodable 300 ∧ Encodable (-7)) :=
  packFloat_faithful 0xdeadbeef { x := -256, y := 255, exp := 3 } REG_S 1 5 (-7) 300
    ⟨by decide, by decide, by decide, by decide, by decide, by decide⟩ rfl (by decide) (by decide)
    (by decide)

/-- Asked for the point (512, 0), `packFloat` raises. -/
theorem packFloat_overflow :
    packFloat REG_S 0 0 0 512 = .error .unsupportedOperand ∧
      ¬ Saturates (packFloat REG_S 0 0 0 512) REG_S 0 0 (fixedPoint 0) (fixedPoint 512) := by
  have h : ¬ Fits (fixedPoint 512) (fixedPoint 0) EXP_MASK := by
    have hx : fixedPoint 512 = 256 * 2 ^ 15 := by
      norm_num [fixedPoint, truncate, fixedPointScale_eq]
    rw [fits_iff, Encodable, hx]
    omega
  exact ⟨packFixed_of_not_fits REG_S 0 0 h, not_saturates_of_not_fits REG_S 0 0 h⟩

end NaviMisc.LaserProp
