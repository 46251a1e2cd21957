import Mathlib.Data.List.ModifyLast
import Mathlib.Tactic.IntervalCases
import Mathlib.Tactic.Linarith
import NaviMisc.Lib.ByteOrder

/-!
The text that is drawn over a picture (camserv/camserv/text_filter.c), in a font of fixed width
(fixfont.c). What accesses memory outside of its array is none; an int wraps around.
-/

namespace NaviMisc.Camserv.Overlay

open NaviMisc.Lib.ByteOrder

def int (z : ℤ) : ℤ := z.bmod (2 ^ 32)

def INT_MIN : ℤ := -2 ^ 31

def FFONT_MAX_WIDTH : ℤ := 8

def FFONT_MAX_HEIGHT : ℤ := 11

def FFONT_RUN_TERM_CHAR : ℕ := 255

inductive RunType
  | NONE
  | ON
  | OFF

def packBit : RunType × List ℕ → Bool → RunType × List ℕ
  | (.ON, line_data), true => (.ON, line_data.modifyLast (· + 1))
  | (_, line_data), true => (.ON, line_data ++ [0])
  | (.OFF, line_data), false => (.OFF, line_data.modifyLast (· + 1))
  | (_, line_data), false => (.OFF, line_data ++ [16])

def pixels (row : Byte) : List Bool := (List.range 8).map fun i => row.getLsbD (7 - i)

def packRow (row : Byte) : List ℕ :=
  ((pixels row).foldl packBit (.NONE, [])).2 ++ [FFONT_RUN_TERM_CHAR]

structure FixedFont where
  width : ℤ
  height : ℤ
  chars : ℕ → ℕ → List ℕ

def fixed_font_char_pack (fontset : ℕ → Byte) (fontoffset : ℕ) (height : ℤ) (y : ℕ) : List ℕ :=
  if (y : ℤ) < height then packRow (fontset (fontoffset + y)) else []

def fixed_font_create (fontset : ℕ → Byte) (width height : ℤ) : Option FixedFont :=
  if width < 0 ∨ width > FFONT_MAX_WIDTH then none
  else if height < 0 ∨ height > FFONT_MAX_HEIGHT then none
  else some ⟨width, height, fun i => fixed_font_char_pack fontset (i * height.toNat) height⟩

/-- A char is signed. -/
def FixedFont.line_data (font : FixedFont) (c : Byte) (y : ℤ) : Option (List ℕ) :=
  if 0 ≤ c.toInt ∧ 0 ≤ y ∧ y < FFONT_MAX_HEIGHT then some (font.chars c.toNat y.toNat) else none

def COLOR_TRANSPARENT : BitVec 32 := 0xff000000

structure Color where
  color : BitVec 32
  rval : Byte
  gval : Byte
  bval : Byte
  bwval : Byte

structure Video_Info where
  width : ℕ
  height : ℕ
  is_black_white : Bool
  width_lt : width < 2 ^ 31
  height_lt : height < 2 ^ 31
  nbytes_lt : (if is_black_white then 1 else 3) * (width * height) < 2 ^ 31

def Video_Info.Bpp (vinfo : Video_Info) : ℕ := if vinfo.is_black_white then 1 else 3

structure TextFilter where
  font : FixedFont
  x : ℤ
  y : ℤ
  fg : Color
  bg : Color
  txt : List Byte

section Draw

variable (vinfo : Video_Info)

structure Pen where
  data : ℕ → Byte
  outp : ℤ

def InImage (offset : ℤ) : Prop :=
  0 ≤ offset ∧ offset < vinfo.Bpp * (vinfo.width * vinfo.height)

instance (offset : ℤ) : Decidable (InImage vinfo offset) := inferInstanceAs (Decidable (_ ∧ _))

def put (s : Pen) (value : Byte) : Option Pen :=
  if InImage vinfo s.outp then some ⟨Function.update s.data s.outp.toNat value, s.outp + 1⟩
  else none

def Color.bytes (c : Color) : List Byte :=
  if vinfo.is_black_white then [c.bwval] else [c.rval, c.gval, c.bval]

def drawRun (c : Color) : ℕ → Pen → Option Pen
  | 0, s => some s
  | n + 1, s => do drawRun c n (← (c.bytes vinfo).foldlM (put vinfo) s)

def drawColor (c : Color) (n : ℕ) (s : Pen) : Option Pen :=
  if c.color ≠ COLOR_TRANSPARENT then drawRun vinfo c n s
  else some { s with outp := s.outp + vinfo.Bpp * n }

variable (tfilt : TextFilter)

def drawLine : List ℕ → Pen → Option Pen
  | [], _ => none
  | p :: packp, s =>
    if p = FFONT_RUN_TERM_CHAR then some s
    else if p < 16 then do drawLine packp (← drawColor vinfo tfilt.fg (p + 1) s)
    else if p < 32 then do drawLine packp (← drawColor vinfo tfilt.bg (p - 15) s)
    else drawLine packp s

def drawChar (y : ℤ) (s : Pen) (c : Byte) : Option Pen := do
  drawLine vinfo tfilt (← tfilt.font.line_data c y) s

def txt_is_offscreen (txtlen : ℕ) : Bool :=
  if tfilt.x ≥ vinfo.width - tfilt.font.width then true
  else if tfilt.x < 0 ∧ int (tfilt.x + tfilt.font.width * txtlen) < tfilt.font.width then true
  else if tfilt.y ≥ vinfo.height then true
  else decide (tfilt.y < 0 ∧ int (-tfilt.y) ≥ tfilt.font.height)

def startY : ℤ :=
  if tfilt.y < 0 ∧ int (-tfilt.y) < tfilt.font.height then int (-tfilt.y) else 0

def lastY : ℤ :=
  if int (tfilt.y + tfilt.font.height) > vinfo.height then
    tfilt.font.height - (int (tfilt.y + tfilt.font.height) - vinfo.height)
  else tfilt.font.height

def firstChar : ℤ := if tfilt.x < 0 then (int (-tfilt.x)).tdiv tfilt.font.width + 1 else 0

def lastChar (use_txt_len : ℕ) : ℤ :=
  if int (tfilt.x + tfilt.font.width * use_txt_len) > vinfo.width then
    (vinfo.width - tfilt.x).tdiv tfilt.font.width - 1
  else use_txt_len - 1

def drawnChars : List Byte :=
  (tfilt.txt.take (lastChar vinfo tfilt tfilt.txt.length + 1).toNat).drop (firstChar tfilt).toNat

def initOutp : ℤ := vinfo.Bpp * ((if tfilt.y < 0 then 0 else tfilt.y) * vinfo.width + tfilt.x)

/-- The row of the picture that is `n` below the first one. -/
def drawRow (data : ℕ → Byte) (n : ℕ) : Option (ℕ → Byte) := do
  let outp := initOutp vinfo tfilt + n * (vinfo.Bpp * vinfo.width)
  let s ← (drawnChars vinfo tfilt).foldlM (drawChar vinfo tfilt (startY tfilt + n))
    ⟨data, outp + firstChar tfilt * (vinfo.Bpp * tfilt.font.width)⟩
  return s.data

def filter_func (in_data : ℕ → Byte) : Option (ℕ → Byte) :=
  if txt_is_offscreen vinfo tfilt tfilt.txt.length then some in_data
  else (List.range (lastY vinfo tfilt - startY tfilt).toNat).foldlM (drawRow vinfo tfilt) in_data

end Draw

section Pack

def unpack (line_data : List ℕ) : List Bool :=
  line_data.flatMap fun p => if p < 16 then List.replicate (p + 1) true
    else List.replicate (p - 15) false

def Open (line_data : List ℕ) : RunType → Prop
  | .NONE => line_data = []
  | .ON => ∃ l p, line_data = l ++ [p] ∧ p < 16
  | .OFF => ∃ l p, line_data = l ++ [p] ∧ 16 ≤ p

structure Packs (s : RunType × List ℕ) (bits : List Bool) : Prop where
  pixels : unpack s.2 = bits
  bound : ∀ p ∈ s.2, p < bits.length ∨ 16 ≤ p ∧ p < 16 + bits.length
  last : Open s.2 s.1

variable {l : List ℕ} {p : ℕ} {bits : List Bool} {b : Bool}

theorem unpack_append (l l' : List ℕ) : unpack (l ++ l') = unpack l ++ unpack l' := by
  rw [unpack, List.flatMap_append]
  rfl

theorem unpack_on (hp : p < 16) : unpack (l ++ [p]) = unpack l ++ List.replicate (p + 1) true := by
  rw [unpack_append]
  simp [unpack, hp]

theorem unpack_off (hp : 16 ≤ p) :
    unpack (l ++ [p]) = unpack l ++ List.replicate (p - 15) false := by
  rw [unpack_append]
  simp [unpack, Nat.not_lt.mpr hp]

theorem bound_concat (hbound : ∀ q ∈ l, q < bits.length ∨ 16 ≤ q ∧ q < 16 + bits.length)
    (hp : p < bits.length + 1 ∨ 16 ≤ p ∧ p < 16 + (bits.length + 1)) :
    ∀ q ∈ l ++ [p], q < (bits ++ [b]).length ∨ 16 ≤ q ∧ q < 16 + (bits ++ [b]).length := by
  intro q hq
  rw [List.length_append, List.length_singleton]
  rcases List.mem_append.mp hq with hq | hq
  · rcases hbound q hq with hq | hq <;> omega
  · rw [List.mem_singleton.mp hq]
    exact hp

theorem Packs.step {s : RunType × List ℕ} (h : Packs s bits) (hbits : bits.length < 8) (b : Bool) :
    Packs (packBit s b) (bits ++ [b]) := by
  obtain ⟨type, line_data⟩ := s
  obtain ⟨hunpack, hbound, hlast⟩ := h
  dsimp only at hunpack hbound hlast
  have hnew : ∀ p, unpack [p] = [b] → (p = 0 ∨ p = 16) → Open (line_data ++ [p]) (if b then .ON else .OFF) →
      Packs (if b then .ON else .OFF, line_data ++ [p]) (bits ++ [b]) := by
    intro p hp hvalue hopen
    refine ⟨by rw [unpack_append, hunpack, hp], bound_concat hbound (by omega), hopen⟩
  cases b with
  | true =>
    cases type with
    | ON =>
      obtain ⟨l, p, rfl, hp⟩ := hlast
      have hlt := hbound p (by simp)
      rw [packBit, List.modifyLast_concat]
      refine ⟨?_, bound_concat (fun q hq => hbound q (by simp [hq])) (by omega), l, p + 1, rfl,
        by omega⟩
      rw [unpack_on (by omega), List.replicate_succ', ← List.append_assoc, ← unpack_on hp, hunpack]
    | NONE => exact hnew 0 rfl (.inl rfl) ⟨line_data, 0, rfl, by decide⟩
    | OFF => exact hnew 0 rfl (.inl rfl) ⟨line_data, 0, rfl, by decide⟩
  | false =>
    cases type with
    | OFF =>
      obtain ⟨l, p, rfl, hp⟩ := hlast
      have hlt := hbound p (by simp)
      have hcount : p + 1 - 15 = p - 15 + 1 := by omega
      rw [packBit, List.modifyLast_concat]
      refine ⟨?_, bound_concat (fun q hq => hbound q (by simp [hq])) (by omega), l, p + 1, rfl,
        by omega⟩
      rw [unpack_off (by omega), hcount, List.replicate_succ', ← List.append_assoc, ← unpack_off hp,
        hunpack]
    | NONE => exact hnew 16 rfl (.inr rfl) ⟨line_data, 16, rfl, Nat.le_refl _⟩
    | ON => exact hnew 16 rfl (.inr rfl) ⟨line_data, 16, rfl, Nat.le_refl _⟩

theorem Packs.foldl {s : RunType × List ℕ} (h : Packs s bits) (rest : List Bool)
    (hrest : (bits ++ rest).length ≤ 8) : Packs (rest.foldl packBit s) (bits ++ rest) := by
  induction rest generalizing s bits with
  | nil => rwa [List.append_nil]
  | cons b rest ih =>
    have hstep := h.step (by simp at hrest; omega) b
    rw [List.append_cons] at hrest ⊢
    exact ih hstep hrest

theorem getElem?_pixels {row : Byte} {j : ℕ} :
    (pixels row)[j]? = some b ↔ j < 8 ∧ row.getLsbD (7 - j) = b := by
  rw [pixels, List.getElem?_map]
  rcases Nat.lt_or_ge j 8 with hj | hj
  · rw [List.getElem?_range hj, Option.map_some, Option.some_inj, and_iff_right hj]
  · rw [List.getElem?_eq_none (by simpa using hj)]
    exact iff_of_false nofun fun h => absurd h.1 (Nat.not_lt.mpr hj)

theorem exists_packRow (row : Byte) : ∃ line_data, packRow row = line_data ++ [FFONT_RUN_TERM_CHAR] ∧
    unpack line_data = pixels row ∧ ∀ p ∈ line_data, p < 32 := by
  have hempty : Packs (.NONE, []) [] := ⟨rfl, by simp, rfl⟩
  obtain ⟨hunpack, hbound, -⟩ := hempty.foldl (pixels row) (by simp [pixels])
  refine ⟨_, rfl, hunpack, fun p hp => ?_⟩
  have hlt := hbound p hp
  simp only [List.nil_append, pixels, List.length_map, List.length_range] at hlt
  omega

end Pack

section Paint

variable (vinfo : Video_Info)

def paint : List (Option Byte) → Pen → Option Pen
  | [], s => some s
  | none :: l, s => paint l { s with outp := s.outp + 1 }
  | some v :: l, s => do paint l (← put vinfo s v)

def colored (c : Color) : List (Option Byte) :=
  (c.bytes vinfo).map fun v => if c.color ≠ COLOR_TRANSPARENT then some v else none

variable {vinfo}

theorem paint_append (l l' : List (Option Byte)) (s : Pen) :
    paint vinfo (l ++ l') s = (paint vinfo l s).bind (paint vinfo l') := by
  induction l generalizing s with
  | nil => rfl
  | cons o l ih =>
    cases o with
    | none => exact ih _
    | some v =>
      simp only [List.cons_append, paint, Option.bind_eq_bind, Option.bind_assoc]
      exact Option.bind_congr fun s _ => ih s

theorem paint_flatMap {α : Type} (draw : Pen → α → Option Pen) (stream : α → List (Option Byte))
    (l : List α) (h : ∀ a ∈ l, ∀ s, draw s a = paint vinfo (stream a) s) (s : Pen) :
    l.foldlM draw s = paint vinfo (l.flatMap stream) s := by
  induction l generalizing s with
  | nil => rfl
  | cons a l ih =>
    rw [List.foldlM_cons, List.flatMap_cons, paint_append, h a List.mem_cons_self]
    exact Option.bind_congr fun s _ => ih (fun b hb => h b (List.mem_cons_of_mem a hb)) s

theorem paint_some (bytes : List Byte) (s : Pen) :
    bytes.foldlM (put vinfo) s = paint vinfo (bytes.map some) s := by
  rw [List.map_eq_flatMap]
  refine paint_flatMap (put vinfo) (fun v => [some v]) bytes (fun v _ s => ?_) s
  simp [paint]

theorem paint_none (n : ℕ) (s : Pen) :
    paint vinfo (List.replicate n none) s = some { s with outp := s.outp + n } := by
  induction n generalizing s with
  | zero => simp [paint]
  | succ n ih =>
    rw [List.replicate_succ, paint, ih]
    congr 2
    dsimp only
    omega

theorem length_colored (c : Color) : (colored vinfo c).length = vinfo.Bpp := by
  rw [colored, List.length_map, Color.bytes, Video_Info.Bpp]
  split_ifs <;> rfl

theorem drawColor_eq (c : Color) (n : ℕ) (s : Pen) :
    drawColor vinfo c n s = paint vinfo ((List.replicate n c).flatMap (colored vinfo)) s := by
  rw [drawColor]
  split_ifs with hc
  · induction n generalizing s with
    | zero => rfl
    | succ n ih =>
      have hcolored : colored vinfo c = (c.bytes vinfo).map some := by
        simp only [colored, if_pos hc]
      rw [drawRun, List.replicate_succ, List.flatMap_cons, paint_append, paint_some, hcolored]
      exact Option.bind_congr fun s _ => ih s
  · have hcolored : colored vinfo c = List.replicate vinfo.Bpp none := by
      rw [← length_colored c, List.eq_replicate_iff]
      simp [colored, hc]
    have hblank : (List.replicate n c).flatMap (colored vinfo) =
        List.replicate (vinfo.Bpp * n) none := by
      rw [List.flatMap_replicate, hcolored, List.flatten_replicate_replicate, Nat.mul_comm]
    rw [hblank, paint_none]
    simp

variable (vinfo) (tfilt : TextFilter)

def shade (b : Bool) : List (Option Byte) := colored vinfo (if b then tfilt.fg else tfilt.bg)

variable {vinfo tfilt}

theorem length_shade (b : Bool) : (shade vinfo tfilt b).length = vinfo.Bpp := length_colored _

theorem drawLine_eq {line_data : List ℕ} (h : ∀ p ∈ line_data, p < 32) (s : Pen) :
    drawLine vinfo tfilt (line_data ++ [FFONT_RUN_TERM_CHAR]) s =
      paint vinfo ((unpack line_data).flatMap (shade vinfo tfilt)) s := by
  induction line_data generalizing s with
  | nil => rfl
  | cons p packp ih =>
    obtain ⟨hp, hpackp⟩ := List.forall_mem_cons.mp h
    have hterm : p ≠ FFONT_RUN_TERM_CHAR := by
      rw [FFONT_RUN_TERM_CHAR]
      omega
    have hrest : ∀ s, drawLine vinfo tfilt (packp ++ [FFONT_RUN_TERM_CHAR]) s =
        paint vinfo ((unpack packp).flatMap (shade vinfo tfilt)) s := fun s => ih hpackp s
    have hrun : ∀ (b : Bool) (n : ℕ) (c : Color), (if b then tfilt.fg else tfilt.bg) = c →
        (List.replicate n b).flatMap (shade vinfo tfilt) =
          (List.replicate n c).flatMap (colored vinfo) := by
      rintro b n c rfl
      simp [List.flatMap_replicate, shade]
    rw [List.cons_append, drawLine, if_neg hterm, unpack, List.flatMap_cons, List.flatMap_append,
      paint_append, ← unpack]
    split_ifs with hon
    · rw [hrun true (p + 1) _ rfl]
      rw [drawColor_eq]
      exact Option.bind_congr fun s _ => hrest s
    · rw [hrun false (p - 15) _ rfl, drawColor_eq]
      exact Option.bind_congr fun s _ => hrest s

end Paint

section Stores

variable (vinfo : Video_Info)

def Wrote (l : List (Option Byte)) (outp offset : ℤ) (v : Byte) : Prop :=
  ∃ i : ℕ, l[i]? = some (some v) ∧ offset = outp + i

def Stores (R : ℤ → Byte → Prop) (data : ℕ → Byte) : Option (ℕ → Byte) → Prop
  | none => ∃ offset v, R offset v ∧ ¬InImage vinfo offset
  | some data' => (∀ offset v, R offset v → InImage vinfo offset) ∧
    ∀ offset : ℕ, (∃ v, R offset v ∧ data' offset = v) ∨
      (∀ v, ¬R offset v) ∧ data' offset = data offset

variable {vinfo} {R R' : ℤ → Byte → Prop} {data : ℕ → Byte} {l l' : List (Option Byte)}
  {outp offset : ℤ} {v : Byte}

theorem Stores.congr {r : Option (ℕ → Byte)} (h : Stores vinfo R data r)
    (hR : ∀ offset v, R offset v ↔ R' offset v) : Stores vinfo R' data r := by
  obtain rfl : R = R' := funext fun offset => funext fun v => propext (hR offset v)
  exact h

theorem Stores.bind {r : Option (ℕ → Byte)} {f : (ℕ → Byte) → Option (ℕ → Byte)}
    (h : Stores vinfo R data r) (hf : ∀ data', Stores vinfo R' data' (f data')) :
    Stores vinfo (fun offset v => R offset v ∨ R' offset v) data (r.bind f) := by
  cases r with
  | none =>
    obtain ⟨offset, v, hwrote, hout⟩ := h
    exact ⟨offset, v, .inl hwrote, hout⟩
  | some data' =>
    obtain ⟨hin, hdata'⟩ := h
    have hnext := hf data'
    rw [Option.bind_some]
    cases hrest : f data' with
    | none =>
      rw [hrest] at hnext
      obtain ⟨offset, v, hwrote, hout⟩ := hnext
      exact ⟨offset, v, .inr hwrote, hout⟩
    | some data'' =>
      rw [hrest] at hnext
      obtain ⟨hin', hdata''⟩ := hnext
      refine ⟨fun offset v h => h.elim (hin offset v) (hin' offset v), fun offset => ?_⟩
      rcases hdata'' offset with ⟨v, hwrote, hv⟩ | ⟨hnot', hkept'⟩
      · exact .inl ⟨v, .inr hwrote, hv⟩
      · rcases hdata' offset with ⟨v, hwrote, hv⟩ | ⟨hnot, hkept⟩
        · exact .inl ⟨v, .inl hwrote, hkept'.trans hv⟩
        · exact .inr ⟨fun v h => h.elim (hnot v) (hnot' v), hkept'.trans hkept⟩

theorem Stores.nothing (hR : ∀ offset v, ¬R offset v) : Stores vinfo R data (some data) :=
  ⟨fun offset v h => absurd h (hR offset v), fun offset => .inr ⟨hR offset, rfl⟩⟩

theorem wrote_nil : ¬Wrote [] outp offset v := by
  rintro ⟨i, hi, -⟩
  cases hi

theorem wrote_append : Wrote (l ++ l') outp offset v ↔
    Wrote l outp offset v ∨ Wrote l' (outp + l.length) offset v := by
  constructor
  · rintro ⟨i, hi, rfl⟩
    rcases Nat.lt_or_ge i l.length with hlt | hge
    · rw [List.getElem?_append_left hlt] at hi
      exact .inl ⟨i, hi, rfl⟩
    · rw [List.getElem?_append_right hge] at hi
      exact .inr ⟨i - l.length, hi, by omega⟩
  · rintro (⟨i, hi, rfl⟩ | ⟨i, hi, rfl⟩)
    · exact ⟨i, List.getElem?_append_left (List.getElem?_eq_some_iff.mp hi).1 ▸ hi, rfl⟩
    · refine ⟨l.length + i, ?_, by omega⟩
      rw [List.getElem?_append_right (Nat.le_add_right _ _), Nat.add_sub_cancel_left]
      exact hi

theorem wrote_cons {o : Option Byte} : Wrote (o :: l) outp offset v ↔
    o = some v ∧ offset = outp ∨ Wrote l (outp + 1) offset v := by
  rw [← List.singleton_append, wrote_append]
  refine or_congr ⟨?_, ?_⟩ Iff.rfl
  · rintro ⟨i, hi, rfl⟩
    obtain ⟨rfl, rfl⟩ : i = 0 ∧ o = some v := by
      cases i with
      | zero => exact ⟨rfl, Option.some.inj hi⟩
      | succ i => cases hi
    exact ⟨rfl, Int.add_zero outp⟩
  · rintro ⟨rfl, rfl⟩
    exact ⟨0, rfl, (Int.add_zero offset).symm⟩

theorem wrote_flatMap {α : Type} {f : α → List (Option Byte)} {m : ℕ}
    (hf : ∀ a, (f a).length = m) {as : List α} : Wrote (as.flatMap f) outp offset v ↔
      ∃ (i : ℕ) (a : α), as[i]? = some a ∧ Wrote (f a) (outp + m * i) offset v := by
  induction as generalizing outp with
  | nil => exact iff_of_false wrote_nil (by simp)
  | cons a as ih =>
    rw [List.flatMap_cons, wrote_append, ih, hf]
    constructor
    · rintro (h | ⟨i, b, hi, h⟩)
      · exact ⟨0, a, rfl, by simpa using h⟩
      · refine ⟨i + 1, b, hi, ?_⟩
        rwa [Nat.cast_succ, mul_add, mul_one, add_comm _ (m : ℤ), ← add_assoc]
    · rintro ⟨i, b, hi, h⟩
      cases i with
      | zero =>
        obtain rfl := Option.some.inj hi
        exact .inl (by simpa using h)
      | succ i =>
        refine .inr ⟨i, b, hi, ?_⟩
        rwa [Nat.cast_succ, mul_add, mul_one, add_comm _ (m : ℤ), ← add_assoc] at h

theorem put_stores (data : ℕ → Byte) (outp : ℤ) (v : Byte) :
    Stores vinfo (fun offset w => some v = some w ∧ offset = outp) data
      ((put vinfo ⟨data, outp⟩ v).map Pen.data) := by
  rw [put]
  split_ifs with hin
  · refine ⟨fun offset w h => h.2 ▸ hin, fun offset => ?_⟩
    by_cases h : (offset : ℤ) = outp
    · refine .inl ⟨v, ⟨rfl, h⟩, ?_⟩
      dsimp only
      rw [← h, Int.toNat_natCast, Function.update_self]
    · refine .inr ⟨fun w hw => h hw.2, Function.update_of_ne ?_ _ _⟩
      have hnonneg : 0 ≤ outp := hin.1
      dsimp only
      omega
  · exact ⟨outp, v, ⟨rfl, rfl⟩, hin⟩

theorem paint_stores (l : List (Option Byte)) (data : ℕ → Byte) (outp : ℤ) :
    Stores vinfo (Wrote l outp) data ((paint vinfo l ⟨data, outp⟩).map Pen.data) := by
  induction l generalizing data outp with
  | nil => exact .nothing fun _ _ => wrote_nil
  | cons o l ih =>
    cases o with
    | none => exact (ih data (outp + 1)).congr fun offset v => by simp [wrote_cons]
    | some w =>
      refine Stores.congr (R := fun offset v => (some w = some v ∧ offset = outp) ∨
        Wrote l (outp + 1) offset v) ?_ fun offset v => wrote_cons.symm
      have hput : Stores vinfo _ data ((put vinfo ⟨data, outp⟩ w).map Pen.data) :=
        put_stores data outp w
      have hbind := hput.bind fun data' => ih data' (outp + 1)
      rw [paint]
      convert hbind using 1
      rw [put]
      split_ifs <;> rfl

end Stores

end NaviMisc.Camserv.Overlay
