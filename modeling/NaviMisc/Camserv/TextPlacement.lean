import NaviMisc.Camserv.TextFilter

/-!
Which texts are drawn as they should be, whatever the font, the colors and the picture are.
-/

namespace NaviMisc.Camserv.Overlay

open NaviMisc.Lib.ByteOrder

structure Placement where
  width : ℕ
  height : ℕ
  x : ℤ
  y : ℤ
  txt : List Byte
  width_le : width ≤ 8
  height_le : height ≤ 11
  x_mem : -2 ^ 31 ≤ x ∧ x < 2 ^ 31
  y_mem : -2 ^ 31 ≤ y ∧ y < 2 ^ 31
  txt_lt : txt.length < 1024
  txt_ne_zero : ∀ c ∈ txt, c ≠ 0

namespace Placement

variable (p : Placement) (vinfo : Video_Info) (fontset : ℕ → Byte) (fg bg : Color)

def filter : TextFilter :=
  ⟨⟨p.width, p.height, fun i => fixed_font_char_pack fontset (i * p.height) p.height⟩, p.x, p.y, fg,
    bg, p.txt⟩

def draw (data : ℕ → Byte) : Option (ℕ → Byte) := do
  let font ← fixed_font_create fontset p.width p.height
  filter_func vinfo ⟨font, p.x, p.y, fg, bg, p.txt⟩ data

def bit (c : Byte) (l j : ℕ) : Bool := (fontset (c.toNat * p.height + l)).getLsbD (7 - j)

/-- The pixel is in column `j` and line `l` of character `i`, which is all in the image. -/
structure InCell (row col i l j : ℕ) : Prop where
  char : i < p.txt.length
  left : 0 ≤ p.x + p.width * i
  right : p.x + p.width * i + p.width ≤ vinfo.width
  line : l < p.height
  column : j < p.width
  row_eq : (row : ℤ) = p.y + l
  col_eq : (col : ℤ) = p.x + p.width * i + j

def byteAt (row col k : ℕ) : ℕ := vinfo.Bpp * (row * vinfo.width + col) + k

def Shown (c : Color) (row col : ℕ) (data data' : ℕ → Byte) : Prop :=
  ∀ k v, (c.bytes vinfo)[k]? = some v → data' (byteAt vinfo row col k) =
    if c.color = COLOR_TRANSPARENT then data (byteAt vinfo row col k) else v

structure Draws (data data' : ℕ → Byte) : Prop where
  cell : ∀ row < vinfo.height, ∀ col < vinfo.width, ∀ i l j, p.InCell vinfo row col i l j →
    ∀ c, p.txt[i]? = some c →
      Shown vinfo (if p.bit fontset c l j then fg else bg) row col data data'
  other : ∀ row < vinfo.height, ∀ col < vinfo.width, (∀ i l j, ¬p.InCell vinfo row col i l j) →
    ∀ k < vinfo.Bpp, data' (byteAt vinfo row col k) = data (byteAt vinfo row col k)

def Visible (i : ℕ) : Prop :=
  i < p.txt.length ∧ 0 ≤ p.x + p.width * i ∧ p.x + p.width * i < vinfo.width ∧
    p.x + p.width * i + p.width ≤ vinfo.width

/-- The code leaves out a character that begins at the left edge, right of others that are cut off,
and a single one that ends at the right edge. -/
def Kept (i : ℕ) : Prop :=
  p.Visible vinfo i ∧ ¬(p.x < 0 ∧ p.x + p.width * i = 0) ∧ p.x ≠ vinfo.width - p.width

def LineVisible (l : ℕ) : Prop := l < p.height ∧ 0 ≤ p.y + l ∧ p.y + l < vinfo.height

def Fits : Prop :=
  ((∀ i, ¬p.Visible vinfo i) ∨ ∀ l, ¬p.LineVisible vinfo l) ∧
      (p.y ≠ INT_MIN ∨ ∀ i, ¬p.Kept vinfo i) ∨
    p.width = 8 ∧ p.x + 8 * p.txt.length < 2 ^ 31 ∧ p.y ≠ INT_MIN ∧
      (∀ i c, p.Visible vinfo i → p.txt[i]? = some c → c.toNat < 128) ∧
      ¬(p.x < 0 ∧ 8 ∣ p.x) ∧ p.x ≠ vinfo.width - 8

theorem draw_eq (data : ℕ → Byte) :
    p.draw vinfo fontset fg bg data = filter_func vinfo (p.filter fontset fg bg) data := by
  have hwidth := p.width_le
  have hheight := p.height_le
  have hcreate : fixed_font_create fontset p.width p.height = some ⟨p.width, p.height,
      fun i => fixed_font_char_pack fontset (i * p.height) p.height⟩ := by
    rw [fixed_font_create, FFONT_MAX_WIDTH, FFONT_MAX_HEIGHT, if_neg (by omega), if_neg (by omega),
      Int.toNat_natCast]
  rw [draw, hcreate]
  rfl

variable {vinfo fontset fg bg}

theorem getElem?_colored {c : Color} {k : ℕ} {v : Byte} : (colored vinfo c)[k]? = some (some v) ↔
    c.color ≠ COLOR_TRANSPARENT ∧ (c.bytes vinfo)[k]? = some v := by
  rw [colored, List.getElem?_map, Option.map_eq_some_iff]
  split_ifs with hc
  · simp [hc]
  · simp [hc]

theorem int_of_lt {z : ℤ} (h : -2 ^ 31 ≤ z) (h' : z < 2 ^ 31) : int z = z := by
  rw [int, Int.bmod_eq_of_le_mul_two] <;> omega

variable (vinfo fontset fg bg)

def glyph (l : ℕ) (c : Byte) : List (Option Byte) :=
  (pixels (fontset (c.toNat * p.height + l))).flatMap (shade vinfo (p.filter fontset fg bg))

variable {vinfo fontset fg bg}

theorem drawChar_eq {c : Byte} (hc : c.toNat < 128) {l : ℕ} (hl : l < p.height) (s : Pen) :
    drawChar vinfo (p.filter fontset fg bg) l s c = paint vinfo (p.glyph vinfo fontset fg bg l c) s := by
  have hheight := p.height_le
  have hsigned : c.toInt = c.toNat := BitVec.toInt_eq_toNat_of_lt (by omega)
  obtain ⟨line_data, hpack, hunpack, hbound⟩ := exists_packRow (fontset (c.toNat * p.height + l))
  have hline : (p.filter fontset fg bg).font.line_data c l =
      some (line_data ++ [FFONT_RUN_TERM_CHAR]) := by
    rw [FixedFont.line_data, FFONT_MAX_HEIGHT, if_pos (by omega), Int.toNat_natCast, filter]
    dsimp only
    rw [fixed_font_char_pack, if_pos (by omega), hpack]
  rw [drawChar, hline, glyph, ← hunpack]
  exact drawLine_eq hbound s

theorem length_glyph (l : ℕ) (c : Byte) :
    (p.glyph vinfo fontset fg bg l c).length = 8 * vinfo.Bpp := by
  simp only [glyph, List.length_flatMap, length_shade, pixels, List.map_map, Function.comp_def,
    List.map_const', List.length_range, List.sum_replicate_nat]

theorem wrote_glyph {l : ℕ} {c : Byte} {outp offset : ℤ} {v : Byte} :
    Wrote (p.glyph vinfo fontset fg bg l c) outp offset v ↔ ∃ j k : ℕ, j < 8 ∧
      (colored vinfo (if p.bit fontset c l j then fg else bg))[k]? = some (some v) ∧
      offset = outp + vinfo.Bpp * j + k := by
  rw [glyph, wrote_flatMap length_shade]
  simp only [getElem?_pixels]
  constructor
  · rintro ⟨j, b, ⟨hj, rfl⟩, k, hk, hoff⟩
    exact ⟨j, k, hj, hk, hoff⟩
  · rintro ⟨j, k, hj, hk, hoff⟩
    exact ⟨j, _, ⟨hj, rfl⟩, k, hk, hoff⟩

variable (vinfo fontset fg bg)

def first : ℕ := (if p.x < 0 then -p.x / p.width + 1 else 0).toNat

def last : ℕ :=
  (if p.x + p.width * p.txt.length < 2 ^ 31 ∧ p.x + p.width * p.txt.length > vinfo.width then
    (vinfo.width - p.x) / p.width else p.txt.length).toNat

def Puts (l : ℕ) (offset : ℤ) (v : Byte) : Prop :=
  ∃ (i j k : ℕ) (c : Byte), p.first ≤ i ∧ i < p.last vinfo ∧ p.txt[i]? = some c ∧ j < 8 ∧
    (colored vinfo (if p.bit fontset c l j then fg else bg))[k]? = some (some v) ∧
    offset = vinfo.Bpp * ((p.y + l) * vinfo.width +
      (p.x + p.width * p.first + 8 * (i - p.first : ℕ) + j)) + k

def Beside : Prop :=
  p.x < vinfo.width - p.width ∧ ¬(p.x < 0 ∧ p.x + p.width * p.txt.length < p.width)

variable {p vinfo fontset fg bg}

theorem width_mul_le : p.width * p.txt.length ≤ 8 * 1023 :=
  Nat.mul_le_mul p.width_le (Nat.le_of_lt_succ p.txt_lt)

theorem Beside.x_gt (h : p.Beside vinfo) : -2 ^ 31 < p.x := by
  have hmul : (p.width * p.txt.length : ℤ) ≤ 8 * 1023 := mod_cast p.width_mul_le
  rcases Int.lt_or_le p.x 0 with hx | hx
  · have hreach := Int.not_lt.mp fun hlt => h.2 ⟨hx, hlt⟩
    omega
  · omega

theorem Beside.drawn_iff (h : p.Beside vinfo)
    (hint : p.x + p.width * p.txt.length < 2 ^ 31) (i : ℕ) :
    p.first ≤ i ∧ i < p.last vinfo ↔ p.Kept vinfo i := by
  have hwidth := p.width_le
  obtain ⟨hright, hleft⟩ := h
  rw [first, last, Kept, Visible]
  generalize p.width = w at *
  interval_cases w <;> simp only [Nat.cast_zero, Nat.cast_ofNat, Nat.cast_one] at * <;>
    split_ifs <;> omega

theorem Beside.drawnChars (h : p.Beside vinfo) : drawnChars vinfo (p.filter fontset fg bg) =
    (p.txt.take (p.last vinfo)).drop p.first := by
  have hmul : (p.width * p.txt.length : ℤ) ≤ 8 * 1023 := mod_cast p.width_mul_le
  have hnonneg : (0 : ℤ) ≤ p.width * p.txt.length := mod_cast Nat.zero_le _
  have hx := h.x_gt
  have hx' := p.x_mem
  have hwidth := vinfo.width_lt
  have hfirst : (firstChar (p.filter fontset fg bg)).toNat = p.first := by
    rw [firstChar, first, filter]
    dsimp only
    split_ifs with hneg
    · rw [int_of_lt (by omega) (by omega), Int.tdiv_eq_ediv_of_nonneg (by omega)]
    · rfl
  have hlast : (lastChar vinfo (p.filter fontset fg bg) p.txt.length + 1).toNat = p.last vinfo := by
    rw [lastChar, last, filter]
    dsimp only
    rcases Int.lt_or_le (p.x + p.width * p.txt.length) (2 ^ 31) with hlt | hge
    · rw [int_of_lt (by omega) hlt, Int.tdiv_eq_ediv_of_nonneg (by have := h.1; omega)]
      split_ifs <;> omega
    · have hwrap : int (p.x + p.width * p.txt.length) ≤ vinfo.width := by
        rw [int, Int.bmod_def]
        split_ifs <;> omega
      rw [if_neg (Int.not_lt.mpr hwrap), if_neg fun hlt => absurd hlt.1 (Int.not_lt.mpr hge)]
      omega
  rw [Overlay.drawnChars, hfirst]
  change (p.txt.take (lastChar vinfo (p.filter fontset fg bg) p.txt.length + 1).toNat).drop _ = _
  rw [hlast]

theorem Beside.firstChar_eq (h : p.Beside vinfo) :
    firstChar (p.filter fontset fg bg) = p.first := by
  have hx := h.x_gt
  have hx' := p.x_mem
  rw [firstChar, first, filter]
  dsimp only
  split_ifs with hneg
  · have hdiv : 0 ≤ -p.x / p.width := Int.ediv_nonneg (by omega) (by omega)
    rw [int_of_lt (by omega) (by omega), Int.tdiv_eq_ediv_of_nonneg (by omega)]
    omega
  · rfl

theorem Beside.drawRow_stores (h : p.Beside vinfo) {l n : ℕ} (hl : l < p.height)
    (hn : startY (p.filter fontset fg bg) + n = l)
    (hrow : (if p.y < 0 then 0 else p.y) + n = p.y + l)
    (hchars : ∀ i c, p.first ≤ i → i < p.last vinfo → p.txt[i]? = some c → c.toNat < 128)
    (data : ℕ → Byte) :
    Stores vinfo (p.Puts vinfo fontset fg bg l) data
      (drawRow vinfo (p.filter fontset fg bg) data n) := by
  have hget : ∀ i c, ((p.txt.take (p.last vinfo)).drop p.first)[i]? = some c ↔
      p.first + i < p.last vinfo ∧ p.txt[p.first + i]? = some c := by
    intro i c
    rw [List.getElem?_drop, List.getElem?_take]
    split_ifs with hi
    · exact (and_iff_right hi).symm
    · exact iff_of_false nofun fun hc => hi hc.1
  have hpaint := paint_flatMap (drawChar vinfo (p.filter fontset fg bg) l)
    (p.glyph vinfo fontset fg bg l) ((p.txt.take (p.last vinfo)).drop p.first) fun c hc s => by
      obtain ⟨i, hi⟩ := List.mem_iff_getElem?.mp hc
      rw [hget] at hi
      exact p.drawChar_eq (hchars _ _ (Nat.le_add_right _ _) hi.1 hi.2) hl s
  have hoffset : ∀ i j k : ℕ, initOutp vinfo (p.filter fontset fg bg) + n * (vinfo.Bpp * vinfo.width) +
      p.first * (vinfo.Bpp * p.width) + (8 * vinfo.Bpp : ℕ) * i + vinfo.Bpp * j + k =
        vinfo.Bpp * ((p.y + l) * vinfo.width +
          (p.x + p.width * p.first + 8 * (p.first + i - p.first : ℕ) + j)) + k := by
    intro i j k
    rw [initOutp, filter, ← hrow, Nat.add_sub_cancel_left]
    push_cast
    ring
  rw [drawRow, h.drawnChars, hn, h.firstChar_eq, hpaint]
  change Stores _ _ _ (Option.bind _ (some ∘ Pen.data))
  rw [← Option.map_eq_bind]
  refine (paint_stores _ data _).congr fun offset v => ?_
  rw [wrote_flatMap (p.length_glyph l)]
  simp only [wrote_glyph, hget]
  constructor
  · rintro ⟨i, c, ⟨hi, hc⟩, j, k, hj, hk, hoff⟩
    exact ⟨p.first + i, j, k, c, Nat.le_add_right _ _, hi, hc, hj, hk, hoff.trans (hoffset i j k)⟩
  · rintro ⟨i, j, k, c, hfirst, hi, hc, hj, hk, hoff⟩
    obtain ⟨i, rfl⟩ := Nat.exists_eq_add_of_le hfirst
    exact ⟨i, c, ⟨hi, hc⟩, j, k, hj, hk, hoff.trans (hoffset i j k).symm⟩

theorem offscreen_eq_false_iff :
    txt_is_offscreen vinfo (p.filter fontset fg bg) p.txt.length = false ↔
      p.Beside vinfo ∧ p.y < vinfo.height ∧ (p.y < 0 → int (-p.y) < p.height) := by
  have hmul : (p.width * p.txt.length : ℤ) ≤ 8 * 1023 := mod_cast p.width_mul_le
  have hnonneg : (0 : ℤ) ≤ p.width * p.txt.length := mod_cast Nat.zero_le _
  have hx := p.x_mem
  rw [txt_is_offscreen, filter, Beside]
  dsimp only
  split_ifs with hright hleft hbelow
  · exact iff_of_false nofun fun h => absurd h.1.1 (Int.not_lt.mpr hright)
  · rw [int_of_lt (by omega) (by omega)] at hleft
    exact iff_of_false nofun fun h => h.1.2 hleft
  · exact iff_of_false nofun fun h => absurd h.2.1 (Int.not_lt.mpr hbelow)
  · rw [decide_eq_false_iff_not, not_and, ge_iff_le]
    simp only [Int.not_le]
    refine ⟨fun h => ⟨⟨Int.not_le.mp hright, ?_⟩, Int.not_le.mp hbelow, h⟩, fun h => h.2.2⟩
    rintro ⟨hneg, hlt⟩
    rw [int_of_lt (by omega) (by omega)] at hleft
    exact hleft ⟨hneg, hlt⟩

theorem draw_offscreen (h : ¬(p.Beside vinfo ∧ p.y < vinfo.height ∧ (p.y < 0 → int (-p.y) < p.height)))
    (data : ℕ → Byte) : p.draw vinfo fontset fg bg data = some data := by
  rw [← @offscreen_eq_false_iff p vinfo fontset fg bg, Bool.not_eq_false] at h
  rw [draw_eq, filter_func]
  exact if_pos h

theorem draw_onscreen (hx : p.Beside vinfo) (hy : p.y < vinfo.height)
    (hup : p.y < 0 → int (-p.y) < p.height) (data : ℕ → Byte) :
    p.draw vinfo fontset fg bg data =
      (List.range (lastY vinfo (p.filter fontset fg bg) - startY (p.filter fontset fg bg)).toNat).foldlM
        (drawRow vinfo (p.filter fontset fg bg)) data := by
  have hon := (@offscreen_eq_false_iff p vinfo fontset fg bg).mpr ⟨hx, hy, hup⟩
  rw [draw_eq, filter_func]
  exact if_neg (Bool.not_eq_true _ ▸ hon)

theorem draw_nothing (hchars : p.Beside vinfo → p.last vinfo ≤ p.first) (data : ℕ → Byte) :
    p.draw vinfo fontset fg bg data = some data := by
  by_cases h : p.Beside vinfo ∧ p.y < vinfo.height ∧ (p.y < 0 → int (-p.y) < p.height)
  · obtain ⟨hx, hy, hup⟩ := h
    rw [draw_onscreen hx hy hup]
    have hnone : drawnChars vinfo (p.filter fontset fg bg) = [] := by
      rw [hx.drawnChars, List.drop_eq_nil_iff, List.length_take]
      exact Nat.le_trans (Nat.min_le_left _ _) (hchars hx)
    generalize (lastY _ _ - startY _).toNat = n
    induction n with
    | zero => rfl
    | succ n ih =>
      rw [List.range_succ, List.foldlM_append, ih]
      simp only [List.foldlM_cons, List.foldlM_nil, drawRow, hnone]
      rfl
  · exact draw_offscreen h data

variable (p vinfo)

def firstLine : ℕ := (if p.y < 0 then -p.y else 0).toNat

def lastLine : ℕ :=
  (if p.y + p.height < 2 ^ 31 ∧ p.y + p.height > vinfo.height then vinfo.height - p.y
    else p.height).toNat

variable {p vinfo}

theorem startY_eq (hy : p.y ≠ INT_MIN) (hup : p.y < 0 → int (-p.y) < p.height) :
    startY (p.filter fontset fg bg) = p.firstLine := by
  have hmem := p.y_mem
  rw [INT_MIN] at hy
  rw [startY, firstLine, filter]
  dsimp only
  split_ifs with h hneg hneg
  · rw [int_of_lt (by omega) (by omega)]
    omega
  · exact absurd h.1 hneg
  · exact absurd ⟨hneg, hup hneg⟩ h
  · rfl

theorem lastY_eq (hy : p.y < vinfo.height) :
    (lastY vinfo (p.filter fontset fg bg) - p.firstLine).toNat = p.lastLine vinfo - p.firstLine := by
  have hmem := p.y_mem
  have hheight := p.height_le
  have hheight' := vinfo.height_lt
  rw [lastY, lastLine, filter]
  dsimp only
  rcases Int.lt_or_le (p.y + p.height) (2 ^ 31) with hlt | hge
  · rw [int_of_lt (by omega) hlt]
    split_ifs <;> omega
  · have hwrap : int (p.y + p.height) ≤ vinfo.height := by
      rw [int, Int.bmod_def]
      split_ifs <;> omega
    rw [if_neg (Int.not_lt.mpr hwrap), if_neg fun hlt => absurd hlt.1 (Int.not_lt.mpr hge)]
    omega

theorem lastLine_le : p.lastLine vinfo ≤ p.height := by
  rw [lastLine]
  split_ifs <;> omega

theorem firstLine_add (n : ℕ) : (if p.y < 0 then 0 else p.y) + n = p.y + (p.firstLine + n : ℕ) := by
  rw [firstLine]
  split_ifs <;> omega

theorem draw_stores (hx : p.Beside vinfo) (hy : p.y < vinfo.height)
    (hup : p.y < 0 → int (-p.y) < p.height) (hmin : p.y ≠ INT_MIN)
    (hchars : ∀ i c, p.first ≤ i → i < p.last vinfo → p.txt[i]? = some c → c.toNat < 128)
    (data : ℕ → Byte) :
    Stores vinfo (fun offset v => ∃ l, p.firstLine ≤ l ∧ l < p.lastLine vinfo ∧
      p.Puts vinfo fontset fg bg l offset v) data (p.draw vinfo fontset fg bg data) := by
  rw [draw_onscreen hx hy hup, startY_eq hmin hup, lastY_eq hy]
  have hlines : ∀ n, n = 0 ∨ p.firstLine + n ≤ p.height →
      Stores vinfo (fun offset v => ∃ l, p.firstLine ≤ l ∧ l < p.firstLine + n ∧
        p.Puts vinfo fontset fg bg l offset v) data
        ((List.range n).foldlM (drawRow vinfo (p.filter fontset fg bg)) data) := by
    intro n hn
    induction n with
    | zero => exact .nothing fun _ _ ⟨l, hle, hlt, _⟩ => absurd hle (Nat.not_le.mpr hlt)
    | succ n ih =>
      have hstart : startY (p.filter fontset fg bg) + n = (p.firstLine + n : ℕ) := by
        rw [startY_eq hmin hup, Nat.cast_add]
      have hnext := (ih (by omega)).bind fun data' =>
        hx.drawRow_stores (by omega : p.firstLine + n < p.height) hstart (firstLine_add n) hchars data'
      rw [List.range_succ, List.foldlM_append]
      simp only [List.foldlM_cons, List.foldlM_nil, bind_pure]
      refine hnext.congr fun offset v => ⟨?_, ?_⟩
      · rintro (⟨l, hle, hlt, hputs⟩ | hputs)
        · exact ⟨l, hle, by omega, hputs⟩
        · exact ⟨p.firstLine + n, by omega, by omega, hputs⟩
      · rintro ⟨l, hle, hlt, hputs⟩
        rcases Nat.lt_or_ge l (p.firstLine + n) with h | h
        · exact .inl ⟨l, hle, h, hputs⟩
        · obtain rfl : l = p.firstLine + n := by omega
          exact .inr hputs
  have hle : p.lastLine vinfo ≤ p.height := lastLine_le
  refine (hlines (p.lastLine vinfo - p.firstLine) (by omega)).congr fun offset v => ?_
  refine exists_congr fun l => and_congr_right fun hl => and_congr_left' ?_
  omega

theorem foldlM_eq_none {α β : Type} {f : β → α → Option β} {l : List α} {a : α} (ha : a ∈ l)
    (hf : ∀ s, f s a = none) (s : β) : l.foldlM f s = none := by
  induction l generalizing s with
  | nil => cases ha
  | cons b l ih =>
    rw [List.foldlM_cons]
    rcases List.mem_cons.mp ha with rfl | ha
    · rw [hf]
      rfl
    · exact Option.bind_eq_none_iff.mpr fun s' _ => ih ha s'

theorem draw_none (hx : p.Beside vinfo) (hy : p.y < vinfo.height)
    (hup : p.y < 0 → int (-p.y) < p.height)
    (hlines : startY (p.filter fontset fg bg) < lastY vinfo (p.filter fontset fg bg)) {i : ℕ} {c : Byte}
    (hfirst : p.first ≤ i) (hlast : i < p.last vinfo) (hc : p.txt[i]? = some c)
    (hbad : 128 ≤ c.toNat ∨ startY (p.filter fontset fg bg) < 0) (data : ℕ → Byte) :
    p.draw vinfo fontset fg bg data = none := by
  have hfail : ∀ s, drawChar vinfo (p.filter fontset fg bg)
      (startY (p.filter fontset fg bg) + (0 : ℕ)) s c = none := by
    intro s
    have hsigned : 128 ≤ c.toNat → c.toInt < 0 := by
      intro hc
      rw [BitVec.toInt_eq_toNat_cond]
      split_ifs <;> omega
    rw [drawChar, FixedFont.line_data, if_neg (by omega)]
    rfl
  have hmem : c ∈ drawnChars vinfo (p.filter fontset fg bg) := by
    rw [hx.drawnChars]
    refine List.mem_of_getElem? (i := i - p.first) ?_
    rw [List.getElem?_drop, Nat.add_sub_cancel' hfirst, List.getElem?_take, if_pos hlast, hc]
  have hrow : drawRow vinfo (p.filter fontset fg bg) data 0 = none := by
    rw [drawRow, foldlM_eq_none hmem hfail]
    rfl
  obtain ⟨n, hn⟩ := Nat.exists_eq_succ_of_ne_zero (by omega :
    (lastY vinfo (p.filter fontset fg bg) - startY (p.filter fontset fg bg)).toNat ≠ 0)
  rw [draw_onscreen hx hy hup, hn, List.range_succ_eq_map, List.foldlM_cons, hrow]
  rfl

theorem bpp_pos : 0 < vinfo.Bpp := by
  rw [Video_Info.Bpp]
  split_ifs <;> decide

theorem lt_bpp {c : Color} {k : ℕ} {v : Byte} (h : (c.bytes vinfo)[k]? = some v) : k < vinfo.Bpp := by
  have hlength : (c.bytes vinfo).length = vinfo.Bpp := by
    rw [Color.bytes, Video_Info.Bpp]
    split_ifs <;> rfl
  exact hlength ▸ (List.getElem?_eq_some_iff.mp h).1

theorem byteAt_inj {row col k row' col' k' : ℕ} (hcol : col < vinfo.width)
    (hcol' : col' < vinfo.width) (hk : k < vinfo.Bpp) (hk' : k' < vinfo.Bpp)
    (h : byteAt vinfo row col k = byteAt vinfo row' col' k') : row = row' ∧ col = col' ∧ k = k' := by
  rw [byteAt, byteAt] at h
  have hdiv : ∀ {m a b c d : ℕ}, b < m → d < m → m * a + b = m * c + d → a = c ∧ b = d := by
    intro m a b c d hb hd heq
    have hquot := congrArg (· / m) heq
    have hrem := congrArg (· % m) heq
    simp only [Nat.mul_add_div (Nat.zero_lt_of_lt hb), Nat.div_eq_of_lt hb, Nat.div_eq_of_lt hd,
      Nat.add_zero, Nat.mul_add_mod, Nat.mod_eq_of_lt hb, Nat.mod_eq_of_lt hd] at hquot hrem
    exact ⟨hquot, hrem⟩
  obtain ⟨hpixel, hk⟩ := hdiv hk hk' h
  rw [Nat.mul_comm row, Nat.mul_comm row'] at hpixel
  obtain ⟨hrow, hcol⟩ := hdiv hcol hcol' hpixel
  exact ⟨hrow, hcol, hk⟩

theorem byteAt_inImage {row col k : ℕ} (hrow : row < vinfo.height) (hcol : col < vinfo.width)
    (hk : k < vinfo.Bpp) : InImage vinfo (byteAt vinfo row col k) := by
  have hpixel : row * vinfo.width + col + 1 ≤ vinfo.width * vinfo.height := by
    calc row * vinfo.width + col + 1 ≤ row * vinfo.width + vinfo.width := by omega
      _ = (row + 1) * vinfo.width := (Nat.succ_mul _ _).symm
      _ ≤ vinfo.height * vinfo.width := Nat.mul_le_mul_right _ hrow
      _ = vinfo.width * vinfo.height := Nat.mul_comm _ _
  have hbyte : byteAt vinfo row col k < vinfo.Bpp * (vinfo.width * vinfo.height) := by
    calc byteAt vinfo row col k < vinfo.Bpp * (row * vinfo.width + col) + vinfo.Bpp :=
          Nat.add_lt_add_left hk _
      _ = vinfo.Bpp * (row * vinfo.width + col + 1) := (Nat.mul_succ _ _).symm
      _ ≤ vinfo.Bpp * (vinfo.width * vinfo.height) := Nat.mul_le_mul_left _ hpixel
  exact ⟨Int.natCast_nonneg _, mod_cast hbyte⟩

theorem not_inImage {r c : ℤ} (hr : vinfo.height ≤ r) (hc : 0 ≤ c) :
    ¬InImage vinfo (vinfo.Bpp * (r * vinfo.width + c)) := by
  rintro ⟨-, hlt⟩
  refine absurd hlt (Int.not_lt.mpr (Int.mul_le_mul_of_nonneg_left ?_ (Int.natCast_nonneg _)))
  calc (vinfo.width * vinfo.height : ℤ) = vinfo.height * vinfo.width := mul_comm _ _
    _ ≤ r * vinfo.width := Int.mul_le_mul_of_nonneg_right hr (Int.natCast_nonneg _)
    _ ≤ r * vinfo.width + c := Int.le_add_of_nonneg_right hc

theorem offset_eq {row col k : ℕ} {y x : ℤ} (hrow : (row : ℤ) = y) (hcol : (col : ℤ) = x) :
    vinfo.Bpp * (y * vinfo.width + x) + k = (byteAt vinfo row col k : ℕ) := by
  rw [← hrow, ← hcol, byteAt]
  push_cast
  rfl

theorem line_iff (hy : p.y < vinfo.height) (hint : p.y + p.height < 2 ^ 31) (l : ℕ) :
    p.firstLine ≤ l ∧ l < p.lastLine vinfo ↔ p.LineVisible vinfo l := by
  rw [firstLine, lastLine, LineVisible]
  split_ifs <;> omega

theorem LineVisible.drawn {l : ℕ} (h : p.LineVisible vinfo l) :
    p.firstLine ≤ l ∧ l < p.lastLine vinfo := by
  obtain ⟨hl, hle, hlt⟩ := h
  rw [firstLine, lastLine]
  split_ifs <;> omega

theorem LineVisible.onscreen {l : ℕ} (h : p.LineVisible vinfo l) :
    p.y < vinfo.height ∧ (p.y < 0 → int (-p.y) < p.height) ∧ p.y ≠ INT_MIN := by
  obtain ⟨hl, hle, hlt⟩ := h
  have hheight := p.height_le
  refine ⟨by omega, fun hneg => ?_, by rw [INT_MIN]; omega⟩
  rw [int_of_lt (by omega) (by omega)]
  omega

theorem width_mul_succ_le {i : ℕ} (hi : i < p.txt.length) :
    (p.width * i + p.width : ℤ) ≤ p.width * p.txt.length := by
  have hmul := Nat.mul_le_mul_left p.width hi
  rw [Nat.mul_succ] at hmul
  exact_mod_cast hmul

theorem Visible.beside {i : ℕ} (h : p.Visible vinfo i) (hx : p.x ≠ vinfo.width - p.width) :
    p.Beside vinfo := by
  obtain ⟨hi, hleft, -, hright⟩ := h
  have hmul := width_mul_succ_le hi
  have hnonneg : (0 : ℤ) ≤ p.width * i := mod_cast Nat.zero_le _
  exact ⟨by omega, by omega⟩

theorem Kept.drawn {i : ℕ} (h : p.Kept vinfo i) : p.first ≤ i ∧ i < p.last vinfo := by
  have hbeside := h.1.beside h.2.2
  rcases Int.lt_or_le (p.x + p.width * p.txt.length) (2 ^ 31) with hint | hint
  · exact (hbeside.drawn_iff hint i).mpr h
  · have hmul : (p.width * p.txt.length : ℤ) ≤ 8 * 1023 := mod_cast p.width_mul_le
    have hi := h.1.1
    rw [first, last, if_neg (by omega), if_neg (by omega)]
    omega

theorem InCell.visible {row col i l j : ℕ} (h : p.InCell vinfo row col i l j) : p.Visible vinfo i :=
  ⟨h.char, h.left, by have := h.right; have := h.column; omega, h.right⟩

theorem InCell.lineVisible {row col i l j : ℕ} (h : p.InCell vinfo row col i l j)
    (hrow : row < vinfo.height) : p.LineVisible vinfo l :=
  ⟨h.line, by have := h.row_eq; omega, by have := h.row_eq; omega⟩

theorem draws_self (h : (∀ i, ¬p.Visible vinfo i) ∨ ∀ l, ¬p.LineVisible vinfo l) (data : ℕ → Byte) :
    p.Draws vinfo fontset fg bg data data := by
  refine ⟨fun row hrow col hcol i l j hcell => ?_, fun _ _ _ _ _ _ _ => rfl⟩
  rcases h with h | h
  · exact absurd hcell.visible (h i)
  · exact absurd (hcell.lineVisible hrow) (h l)

section Eight

variable (hwidth : p.width = 8) (hx : p.Beside vinfo)
  (hint : p.x + p.width * p.txt.length < 2 ^ 31) (hy : p.y < vinfo.height)
include hwidth

omit hwidth in
theorem height_lt_of_width (hW : 8 ≤ vinfo.width) : vinfo.height < 2 ^ 28 := by
  have hbytes := vinfo.nbytes_lt
  have hpixels : 8 * vinfo.height ≤ vinfo.width * vinfo.height := Nat.mul_le_mul_right _ hW
  split_ifs at hbytes <;> omega

include hx hint hy

theorem Puts.cell {l : ℕ} {offset : ℤ} {v : Byte} (h : p.Puts vinfo fontset fg bg l offset v)
    (hl : p.firstLine ≤ l ∧ l < p.lastLine vinfo) :
    ∃ row < vinfo.height, ∃ col < vinfo.width, ∃ i j c k, p.InCell vinfo row col i l j ∧
      p.Kept vinfo i ∧ p.txt[i]? = some c ∧
      (colored vinfo (if p.bit fontset c l j then fg else bg))[k]? = some (some v) ∧
      offset = (byteAt vinfo row col k : ℕ) := by
  obtain ⟨i, j, k, c, hfirst, hlast, hc, hj, hk, hoff⟩ := h
  have hkept := (hx.drawn_iff hint i).mp ⟨hfirst, hlast⟩
  obtain ⟨hi, hleft, -, hright⟩ := hkept.1
  rw [hwidth] at hleft hright
  have hheight := p.height_le
  have hH := height_lt_of_width (by omega : 8 ≤ vinfo.width)
  obtain ⟨hlh, hle, hlt⟩ := (line_iff hy (by omega) l).mp hl
  have hrow : ((p.y + l).toNat : ℤ) = p.y + l := Int.toNat_of_nonneg hle
  have hcol : ((p.x + 8 * i + j).toNat : ℤ) = p.x + 8 * i + j := Int.toNat_of_nonneg (by omega)
  have hcol' : ((p.x + 8 * i + j).toNat : ℤ) =
      p.x + p.width * p.first + 8 * (i - p.first : ℕ) + j := by
    rw [hwidth]
    omega
  refine ⟨(p.y + l).toNat, by omega, (p.x + 8 * i + j).toNat, by omega, i, j, c, k, ?_, hkept, hc, hk,
    hoff.trans (offset_eq hrow hcol')⟩
  refine ⟨hi, ?_, ?_, hlh, ?_, hrow, ?_⟩ <;> rw [hwidth] <;> omega

omit hx hint hy in
theorem InCell.puts {row col i l j : ℕ} (h : p.InCell vinfo row col i l j) (hkept : p.Kept vinfo i)
    {c : Byte} (hc : p.txt[i]? = some c) {k : ℕ} {v : Byte}
    (hk : (colored vinfo (if p.bit fontset c l j then fg else bg))[k]? = some (some v)) :
    p.Puts vinfo fontset fg bg l (byteAt vinfo row col k : ℕ) v := by
  obtain ⟨hfirst, hlast⟩ := hkept.drawn
  have hj := h.column
  have hcol := h.col_eq
  refine ⟨i, j, k, c, hfirst, hlast, hc, by omega, hk, (offset_eq h.row_eq ?_).symm⟩
  rw [hwidth] at hcol ⊢
  omega

omit hwidth hx hint hy in
theorem InCell.unique (hwidth : p.width = 8) {row col i l j i' l' j' : ℕ}
    (h : p.InCell vinfo row col i l j) (h' : p.InCell vinfo row col i' l' j') :
    i = i' ∧ l = l' ∧ j = j' := by
  obtain ⟨-, -, -, -, hj, hrow, hcol⟩ := h
  obtain ⟨-, -, -, -, hj', hrow', hcol'⟩ := h'
  rw [hwidth] at hj hj' hcol hcol'
  omega

theorem draws_of_eight (hup : p.y < 0 → int (-p.y) < p.height) (hmin : p.y ≠ INT_MIN)
    (hchars : ∀ i c, p.Visible vinfo i → p.txt[i]? = some c → c.toNat < 128)
    (hkept : ∀ i, p.Visible vinfo i → p.Kept vinfo i) (data : ℕ → Byte) :
    ∃ data', p.draw vinfo fontset fg bg data = some data' ∧
      p.Draws vinfo fontset fg bg data data' := by
  have hstores : Stores vinfo _ data (p.draw vinfo fontset fg bg data) :=
    draw_stores hx hy hup hmin
      (fun i c hfirst hlast => hchars i c ((hx.drawn_iff hint i).mp ⟨hfirst, hlast⟩).1) data
  cases hdraw : p.draw vinfo fontset fg bg data with
  | none =>
    rw [hdraw] at hstores
    obtain ⟨offset, v, ⟨l, hfirst, hlast, hputs⟩, hout⟩ := hstores
    obtain ⟨row, hrow, col, hcol, i, j, c, k, -, -, -, hk, rfl⟩ :=
      hputs.cell hwidth hx hint hy ⟨hfirst, hlast⟩
    exact absurd (byteAt_inImage hrow hcol (lt_bpp (getElem?_colored.mp hk).2)) hout
  | some data' =>
    rw [hdraw] at hstores
    obtain ⟨-, hstores⟩ := hstores
    refine ⟨data', rfl, fun row hrow col hcol i l j hcell c hc k v hv => ?_,
      fun row hrow col hcol hnot k hk => ?_⟩
    · rcases hstores (byteAt vinfo row col k) with ⟨w, ⟨l', hfirst, hlast, hputs⟩, hw⟩ | ⟨hnot, hkeep⟩
      · obtain ⟨row', hrow', col', hcol', i', j', c', k', hcell', -, hc', hk', heq⟩ :=
          hputs.cell hwidth hx hint hy ⟨hfirst, hlast⟩
        obtain ⟨hcolor, hw'⟩ := getElem?_colored.mp hk'
        obtain ⟨rfl, rfl, rfl⟩ := byteAt_inj hcol hcol' (lt_bpp hv) (lt_bpp hw') (Nat.cast_inj.mp heq)
        obtain ⟨rfl, rfl, rfl⟩ := hcell.unique hwidth hcell'
        obtain rfl := Option.some.inj (hc.symm.trans hc')
        rw [hw, if_neg hcolor]
        exact Option.some.inj (hw'.symm.trans hv)
      · by_cases hcolor : (if p.bit fontset c l j then fg else bg).color = COLOR_TRANSPARENT
        · rw [hkeep, if_pos hcolor]
        · obtain ⟨hfirst, hlast⟩ := (hcell.lineVisible hrow).drawn
          exact absurd ⟨l, hfirst, hlast, hcell.puts hwidth (hkept i hcell.visible) hc
            (getElem?_colored.mpr ⟨hcolor, hv⟩)⟩ (hnot v)
    · rcases hstores (byteAt vinfo row col k) with ⟨w, ⟨l, hfirst, hlast, hputs⟩, hw⟩ | ⟨-, hkeep⟩
      · obtain ⟨row', hrow', col', hcol', i, j, c, k', hcell, -, -, hk', heq⟩ :=
          hputs.cell hwidth hx hint hy ⟨hfirst, hlast⟩
        obtain ⟨rfl, rfl, rfl⟩ := byteAt_inj hcol hcol' hk (lt_bpp (getElem?_colored.mp hk').2)
          (Nat.cast_inj.mp heq)
        exact absurd hcell (hnot i l j)
      · exact hkeep

end Eight

theorem Beside.exists_kept (h : p.Beside vinfo) (hdrawn : p.first < p.last vinfo) :
    ∃ i, p.Kept vinfo i := by
  rcases Int.lt_or_le (p.x + p.width * p.txt.length) (2 ^ 31) with hint | hint
  · exact ⟨p.first, (h.drawn_iff hint p.first).mp ⟨Nat.le_refl _, hdrawn⟩⟩
  · have hmul : (p.width * p.txt.length : ℤ) ≤ 8 * 1023 := mod_cast p.width_mul_le
    have hright := h.1
    rw [last, if_neg (by omega)] at hdrawn
    exact ⟨0, ⟨by omega, by omega, by omega, by omega⟩, by omega, by omega⟩

theorem exists_lineVisible (hy : p.y < vinfo.height) (hdrawn : p.firstLine < p.lastLine vinfo) :
    ∃ l, p.LineVisible vinfo l := by
  rcases Int.lt_or_le (p.y + p.height) (2 ^ 31) with hint | hint
  · exact ⟨p.firstLine, (line_iff hy hint _).mp ⟨Nat.le_refl _, hdrawn⟩⟩
  · have hheight := p.height_le
    rw [lastLine, if_neg (by omega)] at hdrawn
    exact ⟨0, by omega, by omega, by omega⟩

theorem draw_self (h : (∀ i, ¬p.Kept vinfo i) ∨ (∀ l, ¬p.LineVisible vinfo l) ∧ p.y ≠ INT_MIN)
    (data : ℕ → Byte) : p.draw vinfo fontset fg bg data = some data := by
  rcases h with hkept | ⟨hline, hmin⟩
  · refine draw_nothing (fun hx => Nat.not_lt.mp fun hdrawn => ?_) data
    obtain ⟨i, hi⟩ := hx.exists_kept hdrawn
    exact hkept i hi
  · by_cases hon : p.Beside vinfo ∧ p.y < vinfo.height ∧ (p.y < 0 → int (-p.y) < p.height)
    · obtain ⟨hx, hy, hup⟩ := hon
      have hnone : p.lastLine vinfo - p.firstLine = 0 := by
        refine Nat.sub_eq_zero_of_le (Nat.not_lt.mp fun hdrawn => ?_)
        obtain ⟨l, hl⟩ := exists_lineVisible hy hdrawn
        exact hline l hl
      rw [draw_onscreen hx hy hup, startY_eq hmin hup, lastY_eq hy, hnone]
      rfl
    · exact draw_offscreen hon data

theorem draws_of_fits (h : p.Fits vinfo) (data : ℕ → Byte) :
    ∃ data', p.draw vinfo fontset fg bg data = some data' ∧
      p.Draws vinfo fontset fg bg data data' := by
  have hself : ((∀ i, ¬p.Visible vinfo i) ∨ ∀ l, ¬p.LineVisible vinfo l) →
      (p.y ≠ INT_MIN ∨ ∀ i, ¬p.Kept vinfo i) → ∃ data',
        p.draw vinfo fontset fg bg data = some data' ∧ p.Draws vinfo fontset fg bg data data' := by
    intro hnothing hmin
    refine ⟨data, draw_self ?_ data, draws_self hnothing data⟩
    rcases hnothing with hcell | hline
    · exact .inl fun i hi => hcell i hi.1
    · rcases hmin with hmin | hkept
      · exact .inr ⟨hline, hmin⟩
      · exact .inl hkept
  rcases h with ⟨hnothing, hmin⟩ | ⟨hwidth, hint, hmin, hchars, hleft, hright⟩
  · exact hself hnothing hmin
  by_cases hnothing : (∀ i, ¬p.Visible vinfo i) ∨ ∀ l, ¬p.LineVisible vinfo l
  · exact hself hnothing (.inl hmin)
  · rw [not_or, not_forall_not, not_forall_not] at hnothing
    obtain ⟨⟨i₀, hi₀⟩, l₀, hl₀⟩ := hnothing
    obtain ⟨hy, hup, -⟩ := hl₀.onscreen
    have hright' : p.x ≠ vinfo.width - p.width := by
      rw [hwidth]
      exact hright
    refine draws_of_eight hwidth (hi₀.beside hright') (by rw [hwidth]; exact hint) hy hup hmin hchars
      (fun i hi => ⟨hi, fun hedge => hleft ⟨hedge.1, ?_⟩, hright'⟩) data
    rw [hwidth] at hedge
    omega

section Ink

def ink : Color := ⟨0, 1, 1, 1, 1⟩

theorem getElem?_ink {k : ℕ} (hk : k < vinfo.Bpp) : (ink.bytes vinfo)[k]? = some 1 := by
  have hbytes : ink.bytes vinfo = List.replicate vinfo.Bpp 1 := by
    rw [Color.bytes, Video_Info.Bpp]
    split_ifs <;> rfl
  rw [hbytes, List.getElem?_replicate, if_pos hk]

variable {data' : ℕ → Byte}
  (hdraw : p.draw vinfo (fun _ => 0) ink ink (fun _ => 0) = some data')
  (h : p.Draws vinfo (fun _ => 0) ink ink (fun _ => 0) data')

section Draws

include h

theorem inked {row col i l j : ℕ} (hrow : row < vinfo.height) (hcol : col < vinfo.width)
    (hcell : p.InCell vinfo row col i l j) : data' (byteAt vinfo row col 0) = 1 := by
  obtain ⟨c, hc⟩ : ∃ c, p.txt[i]? = some c := ⟨_, List.getElem?_eq_getElem hcell.char⟩
  have hshown := h.cell row hrow col hcol i l j hcell c hc
  rw [ite_self] at hshown
  exact (hshown 0 1 (getElem?_ink bpp_pos)).trans (if_neg (by decide))

theorem not_inked {r x : ℤ} (hr : 0 ≤ r ∧ r < vinfo.height) (hx : 0 ≤ x ∧ x < vinfo.width)
    (hcell : ∀ i l j, ¬p.InCell vinfo r.toNat x.toNat i l j) :
    data' (vinfo.Bpp * (r * vinfo.width + x)).toNat = 0 := by
  have hoffset := @offset_eq vinfo r.toNat x.toNat 0 r x (Int.toNat_of_nonneg hr.1)
    (Int.toNat_of_nonneg hx.1)
  rw [Nat.cast_zero, Int.add_zero] at hoffset
  rw [hoffset, Int.toNat_natCast]
  exact h.other _ (by omega) _ (by omega) hcell 0 bpp_pos

end Draws

section Draw

include hdraw

theorem not_kept_of_min (hmin : p.y = INT_MIN) (i : ℕ) : ¬p.Kept vinfo i := by
  intro hkept
  have hheight := p.height_le
  have hneg : int (-p.y) = -2 ^ 31 := by
    rw [hmin]
    decide
  have hy : p.y = -2 ^ 31 := hmin
  have hstart : startY (p.filter (fun _ => 0) ink ink) = -2 ^ 31 := by
    rw [startY, filter]
    dsimp only
    rw [hneg, if_pos (by omega)]
  have hlast : lastY vinfo (p.filter (fun _ => 0) ink ink) = p.height := by
    rw [lastY, filter]
    dsimp only
    rw [int_of_lt (by omega) (by omega), if_neg (by omega)]
  obtain ⟨c, hc⟩ : ∃ c, p.txt[i]? = some c := ⟨_, List.getElem?_eq_getElem hkept.1.1⟩
  obtain ⟨hfirst, hend⟩ := hkept.drawn
  have hnone := draw_none (hkept.1.beside hkept.2.2) (by omega : p.y < vinfo.height)
    (fun _ => by omega) (by rw [hstart, hlast]; omega) hfirst hend hc
    (.inr (by rw [hstart]; decide)) (fun _ => 0)
  exact Option.some_ne_none _ (hdraw.symm.trans hnone)

variable (hx : p.Beside vinfo) {l₀ : ℕ} (hl₀ : p.LineVisible vinfo l₀)
include hx hl₀

theorem lt_of_drawn {i : ℕ} {c : Byte} (hfirst : p.first ≤ i) (hlast : i < p.last vinfo)
    (hc : p.txt[i]? = some c) : c.toNat < 128 := by
  obtain ⟨hy, hup, hmin⟩ := hl₀.onscreen
  obtain ⟨hfirst₀, hlast₀⟩ := hl₀.drawn
  have hstart : startY (p.filter (fun _ => 0) ink ink) = p.firstLine := startY_eq hmin hup
  have hrows : (lastY vinfo (p.filter (fun _ => 0) ink ink) - p.firstLine).toNat =
      p.lastLine vinfo - p.firstLine := lastY_eq hy
  by_contra hc'
  have hnone := draw_none hx hy hup (by rw [hstart]; omega) hfirst hlast hc
    (.inl (Nat.not_lt.mp hc')) (fun _ => 0)
  exact Option.some_ne_none _ (hdraw.symm.trans hnone)

theorem stored : Stores vinfo (fun offset v => ∃ l, p.firstLine ≤ l ∧ l < p.lastLine vinfo ∧
    p.Puts vinfo (fun _ => 0) ink ink l offset v) (fun _ => 0) (some data') := by
  obtain ⟨hy, hup, hmin⟩ := hl₀.onscreen
  rw [← hdraw]
  exact draw_stores hx hy hup hmin (fun i c => lt_of_drawn hdraw hx hl₀) _

theorem drawn_inked {l i j : ℕ} (hl : p.firstLine ≤ l ∧ l < p.lastLine vinfo)
    (hi : p.first ≤ i ∧ i < p.last vinfo) (hi' : i < p.txt.length) (hj : j < 8) {offset : ℤ}
    (hoffset : offset = vinfo.Bpp * ((p.y + l) * vinfo.width +
      (p.x + p.width * p.first + 8 * (i - p.first : ℕ) + j))) :
    InImage vinfo offset ∧ data' offset.toNat = 1 := by
  obtain ⟨hin, hvalue⟩ := stored hdraw hx hl₀
  have hputs : p.Puts vinfo (fun _ => 0) ink ink l offset 1 := by
    refine ⟨i, j, 0, p.txt[i], hi.1, hi.2, List.getElem?_eq_getElem hi', hj, ?_, ?_⟩
    · rw [ite_self, getElem?_colored]
      exact ⟨by decide, getElem?_ink bpp_pos⟩
    · rw [hoffset, Nat.cast_zero, Int.add_zero]
  have hinside := hin offset 1 ⟨l, hl.1, hl.2, hputs⟩
  have hnat : ((offset.toNat : ℕ) : ℤ) = offset := Int.toNat_of_nonneg hinside.1
  refine ⟨hinside, ?_⟩
  rcases hvalue offset.toNat with ⟨v, ⟨l', -, -, hputs'⟩, hv⟩ | ⟨hnot, -⟩
  · obtain ⟨_, _, k, _, -, -, -, -, hk, -⟩ := hputs'
    rw [ite_self, getElem?_colored] at hk
    rw [hv]
    exact Option.some.inj (hk.2.symm.trans (getElem?_ink (lt_bpp hk.2)))
  · exact absurd ⟨l, hl.1, hl.2, hnat ▸ hputs⟩ (hnot 1)

end Draw

theorem Visible.cell {i l j : ℕ} (hi : p.Visible vinfo i) (hl : p.LineVisible vinfo l)
    (hj : j < p.width) : ∃ row < vinfo.height, ∃ col < vinfo.width, p.InCell vinfo row col i l j := by
  obtain ⟨hchar, hleft, -, hright⟩ := hi
  obtain ⟨hline, hle, hlt⟩ := hl
  exact ⟨(p.y + l).toNat, by omega, (p.x + p.width * i + j).toNat, by omega, hchar, hleft, hright,
    hline, hj, Int.toNat_of_nonneg hle, Int.toNat_of_nonneg (by omega)⟩

variable {i₀ l₀ : ℕ} (hi₀ : p.Visible vinfo i₀) (hl₀ : p.LineVisible vinfo l₀)

include h hi₀ in
theorem clean_below (hbelow : 0 ≤ p.y + p.lastLine vinfo)
    (hrest : p.y + p.lastLine vinfo < vinfo.height) :
    data' (vinfo.Bpp * ((p.y + p.lastLine vinfo) * vinfo.width + 0)).toNat = 0 := by
  have hwidth : (0 : ℤ) < vinfo.width := Int.lt_of_le_of_lt hi₀.2.1 hi₀.2.2.1
  refine not_inked h ⟨hbelow, hrest⟩ ⟨Int.le_refl 0, hwidth⟩ fun i l j hcell => ?_
  have hrow := hcell.row_eq
  have hlast := (hcell.lineVisible (by omega)).drawn.2
  omega

section Reached

include hdraw h hi₀ hl₀

theorem not_blank (hwidth : 0 < p.width) : data' ≠ fun _ => 0 := by
  rintro rfl
  obtain ⟨row, hrow, col, hcol, hcell⟩ := hi₀.cell hl₀ hwidth
  exact absurd (inked h hrow hcol hcell) (by decide)

theorem right_ne : p.x ≠ vinfo.width - p.width := by
  intro hedge
  have hside := hi₀.2.2.1
  have hwidth : 0 < p.width := by
    by_contra hzero
    obtain hzero : p.width = 0 := by omega
    rw [hzero] at hedge hside
    simp only [Nat.cast_zero, zero_mul] at hside hedge
    omega
  have hbeside : ¬p.Beside vinfo := fun hx => by
    have hlt := hx.1
    omega
  have hself : p.draw vinfo (fun _ => 0) ink ink (fun _ => 0) = some fun _ => 0 :=
    draw_offscreen (fun hon => hbeside hon.1) _
  exact not_blank hdraw h hi₀ hl₀ hwidth (Option.some.inj (hdraw.symm.trans hself))

theorem beside : p.Beside vinfo := hi₀.beside (right_ne hdraw h hi₀ hl₀)

theorem first_lt_last : p.first < p.last vinfo := by
  by_contra hnone
  have hself : p.draw vinfo (fun _ => 0) ink ink (fun _ => 0) = some fun _ => 0 :=
    draw_nothing (fun _ => Nat.not_lt.mp hnone) _
  rcases Nat.eq_zero_or_pos p.width with hwidth | hwidth
  · have hkept : p.Kept vinfo i₀ := by
      have hleft := hi₀.2.1
      refine ⟨hi₀, ?_, right_ne hdraw h hi₀ hl₀⟩
      rw [hwidth] at hleft ⊢
      simp only [Nat.cast_zero, zero_mul] at hleft ⊢
      omega
    obtain ⟨hfirst, hlast⟩ := hkept.drawn
    omega
  · exact not_blank hdraw h hi₀ hl₀ hwidth (Option.some.inj (hdraw.symm.trans hself))

theorem text_fits : p.x + p.width * p.txt.length < 2 ^ 31 := by
  by_contra hint
  have hx := beside hdraw h hi₀ hl₀
  have hdrawn := first_lt_last hdraw h hi₀ hl₀
  have hmul : (p.width * p.txt.length : ℤ) ≤ 8 * 1023 := mod_cast p.width_mul_le
  have hmul' : (p.width * p.txt.length : ℤ) ≤ 8 * p.txt.length :=
    mod_cast Nat.mul_le_mul_right _ p.width_le
  have hfirst : p.first = 0 := by
    rw [first, if_neg (by omega)]
    rfl
  have hlast : p.last vinfo = p.txt.length := by
    rw [last, if_neg (by omega)]
    rfl
  obtain ⟨hin, -⟩ := drawn_inked hdraw hx hl₀ hl₀.drawn (i := p.txt.length - 1) (j := 7) (by omega)
    (by omega) (by decide) rfl
  have hrow : 0 ≤ (p.y + l₀) * vinfo.width := Int.mul_nonneg hl₀.2.1 (Int.natCast_nonneg _)
  have hlarge : 2 ^ 31 - 1 ≤ (p.y + l₀) * vinfo.width +
      (p.x + p.width * p.first + 8 * (p.txt.length - 1 - p.first : ℕ) + (7 : ℕ)) := by
    rw [hfirst]
    push_cast
    omega
  have hbytes : (vinfo.Bpp * (vinfo.width * vinfo.height) : ℤ) < 2 ^ 31 :=
    mod_cast vinfo.nbytes_lt
  have hscaled := Int.mul_le_mul_of_nonneg_right
    (mod_cast bpp_pos : (1 : ℤ) ≤ vinfo.Bpp) (by omega : 0 ≤ (p.y + l₀) * vinfo.width +
      (p.x + p.width * p.first + 8 * (p.txt.length - 1 - p.first : ℕ) + (7 : ℕ)))
  have hend := hin.2
  omega

theorem last_kept : p.Kept vinfo (p.last vinfo - 1) := by
  have hdrawn := first_lt_last hdraw h hi₀ hl₀
  exact ((beside hdraw h hi₀ hl₀).drawn_iff (text_fits hdraw h hi₀ hl₀) _).mp ⟨by omega, by omega⟩

theorem last_inked (hlt : p.width < 8) {offset : ℤ} (hoffset : offset = vinfo.Bpp *
      ((p.y + (p.lastLine vinfo - 1 : ℕ)) * vinfo.width + (p.x + p.width * p.last vinfo))) :
    InImage vinfo offset ∧ data' offset.toNat = 1 := by
  have hdrawn := first_lt_last hdraw h hi₀ hl₀
  have hlines := hl₀.drawn
  have hlast : p.last vinfo ≤ p.txt.length := by
    have hkept := (last_kept hdraw h hi₀ hl₀).1.1
    omega
  obtain ⟨n, hn⟩ := Nat.exists_eq_add_of_lt hdrawn
  have hsplit : p.width * p.first + 8 * (p.width * (n + 1) / 8) + p.width * (n + 1) % 8 =
      p.width * p.last vinfo := by
    rw [hn, Nat.add_assoc, Nat.div_add_mod, Nat.add_assoc, ← Nat.mul_add]
  have hquot : p.width * (n + 1) / 8 < n + 1 := by
    rw [Nat.div_lt_iff_lt_mul (by decide)]
    exact Nat.mul_comm p.width _ ▸ Nat.mul_lt_mul_of_pos_left hlt (Nat.succ_pos n)
  refine drawn_inked hdraw (beside hdraw h hi₀ hl₀) hl₀ (l := p.lastLine vinfo - 1)
    (i := p.first + p.width * (n + 1) / 8) (j := p.width * (n + 1) % 8) (by omega) (by omega)
    (by omega) (Nat.mod_lt _ (by decide)) ?_
  rw [hoffset, ← Nat.cast_mul, ← hsplit, Nat.add_sub_cancel_left]
  push_cast
  ring

theorem not_visible_last (hwidth : 0 < p.width) : ¬p.Visible vinfo (p.last vinfo) := by
  intro hlast
  have hdrawn := first_lt_last hdraw h hi₀ hl₀
  have hleft := (last_kept hdraw h hi₀ hl₀).1.2.1
  have hkept : p.Kept vinfo (p.last vinfo) := by
    refine ⟨hlast, fun hedge => ?_, right_ne hdraw h hi₀ hl₀⟩
    have hzero := hedge.2
    obtain ⟨n, hn⟩ : ∃ n, p.last vinfo = n + 1 := ⟨p.last vinfo - 1, by omega⟩
    rw [hn, Nat.add_sub_cancel] at hleft
    rw [hn] at hzero
    push_cast at hzero
    rw [mul_add, mul_one] at hzero
    omega
  have hlt := hkept.drawn.2
  omega

theorem last_col :
    (p.width * p.last vinfo : ℤ) = p.width * (p.last vinfo - 1 : ℕ) + p.width := by
  have hdrawn := first_lt_last hdraw h hi₀ hl₀
  obtain ⟨n, hn⟩ : ∃ n, p.last vinfo = n + 1 := ⟨p.last vinfo - 1, by omega⟩
  rw [hn, Nat.add_sub_cancel]
  push_cast
  ring

theorem clean_right {r : ℤ} (hr : 0 ≤ r ∧ r < vinfo.height)
    (hcut : p.x + p.width * p.last vinfo < vinfo.width) :
    data' (vinfo.Bpp * (r * vinfo.width + (p.x + p.width * p.last vinfo))).toNat = 0 := by
  have hleft := (last_kept hdraw h hi₀ hl₀).1.2.1
  have hcol := last_col hdraw h hi₀ hl₀
  refine not_inked h hr ⟨by omega, hcut⟩ fun i l j hcell => ?_
  have hcell' := hcell.col_eq
  have heq : p.width * p.last vinfo = p.width * i + j := by
    zify
    omega
  have hquot := congrArg (· / p.width) heq
  have hpos := Nat.zero_lt_of_lt hcell.column
  simp only [Nat.mul_div_cancel_left _ hpos, Nat.mul_add_div hpos,
    Nat.div_eq_of_lt hcell.column] at hquot
  exact not_visible_last hdraw h hi₀ hl₀ hpos (hquot ▸ hcell.visible)

theorem width_eq : p.width = 8 := by
  by_contra hne
  have hlt : p.width < 8 := Nat.lt_of_le_of_ne p.width_le hne
  obtain ⟨hin, hink⟩ := last_inked hdraw h hi₀ hl₀ hlt rfl
  have hlines := hl₀.drawn
  obtain ⟨-, hleft, -, hright⟩ := (last_kept hdraw h hi₀ hl₀).1
  have hcol := last_col hdraw h hi₀ hl₀
  rcases Int.lt_or_le (p.y + p.height) (2 ^ 31) with hint | hint
  · have hline := ((line_iff hl₀.onscreen.1 hint (p.lastLine vinfo - 1)).mp ⟨by omega, by omega⟩).2
    rcases Int.lt_or_le (p.x + p.width * p.last vinfo) vinfo.width with hcut | hcut
    · rw [clean_right hdraw h hi₀ hl₀ hline hcut] at hink
      exact absurd hink (by decide)
    · have hwrap : (p.y + (p.lastLine vinfo - 1 : ℕ)) * vinfo.width +
          (p.x + p.width * p.last vinfo) = (p.y + p.lastLine vinfo) * vinfo.width + 0 := by
        have hedge : p.x + p.width * p.last vinfo = vinfo.width := by omega
        have hnext : (p.lastLine vinfo : ℤ) = (p.lastLine vinfo - 1 : ℕ) + 1 := by omega
        rw [hedge, hnext]
        ring
      rw [hwrap] at hin hink
      rcases Int.lt_or_le (p.y + p.lastLine vinfo) vinfo.height with hrest | hrest
      · rw [clean_below h hi₀ (by omega) hrest] at hink
        exact absurd hink (by decide)
      · exact not_inImage hrest (Int.le_refl 0) hin
  -- The lines are counted up to a bound that has overflown.
  · have hheight := vinfo.height_lt
    have hline := hl₀.1
    have hbelow : vinfo.height ≤ p.y + (p.lastLine vinfo - 1 : ℕ) := by
      rw [lastLine, if_neg (by omega)]
      omega
    exact not_inImage hbelow (by omega) hin

theorem left_not_dvd : ¬(p.x < 0 ∧ 8 ∣ p.x) := by
  rintro ⟨hneg, m, hm⟩
  have hwidth := width_eq hdraw h hi₀ hl₀
  have hx := beside hdraw h hi₀ hl₀
  have hint := text_fits hdraw h hi₀ hl₀
  have hy := hl₀.onscreen.1
  obtain ⟨-, hvalue⟩ := stored hdraw hx hl₀
  have hedge : p.Visible vinfo (-m).toNat := by
    obtain ⟨hchar, hleft, hin, hright⟩ := hi₀
    rw [hwidth] at hleft hright hin
    refine ⟨by omega, ?_, ?_, ?_⟩ <;> rw [hwidth] <;> omega
  obtain ⟨row, hrow, col, hcol, hcell⟩ := hedge.cell hl₀ (by omega : 0 < p.width)
  have hzero := hcell.col_eq
  have hink := inked h hrow hcol hcell
  rcases hvalue (byteAt vinfo row col 0) with ⟨v, ⟨l, hfirst, hlast, hputs⟩, -⟩ | ⟨-, hkeep⟩
  · obtain ⟨row', hrow', col', hcol', i, j, c, k, hcell', hkept, -, hk, heq⟩ :=
      hputs.cell hwidth hx hint hy ⟨hfirst, hlast⟩
    obtain ⟨-, rfl, -⟩ := byteAt_inj hcol hcol' bpp_pos (lt_bpp (getElem?_colored.mp hk).2)
      (Nat.cast_inj.mp heq)
    have hleft := hcell'.left
    have hcol_eq := hcell'.col_eq
    refine hkept.2.1 ⟨hneg, ?_⟩
    rw [hwidth] at hzero hleft hcol_eq ⊢
    omega
  · exact absurd (hink.symm.trans hkeep : (1 : Byte) = 0) (by decide)

end Reached

theorem fits_of_draws (hdraw : p.draw vinfo (fun _ => 0) ink ink (fun _ => 0) = some data')
    (h : p.Draws vinfo (fun _ => 0) ink ink (fun _ => 0) data') : p.Fits vinfo := by
  by_cases hnothing : (∀ i, ¬p.Visible vinfo i) ∨ ∀ l, ¬p.LineVisible vinfo l
  · refine .inl ⟨hnothing, ?_⟩
    by_cases hmin : p.y = INT_MIN
    · exact .inr (not_kept_of_min hdraw hmin)
    · exact .inl hmin
  · rw [not_or, not_forall_not, not_forall_not] at hnothing
    obtain ⟨⟨i₀, hi₀⟩, l₀, hl₀⟩ := hnothing
    have hwidth := width_eq hdraw h hi₀ hl₀
    have hint := text_fits hdraw h hi₀ hl₀
    have hleft := left_not_dvd hdraw h hi₀ hl₀
    have hright := right_ne hdraw h hi₀ hl₀
    refine .inr ⟨hwidth, ?_, hl₀.onscreen.2.2, fun i c hi hc => ?_, hleft, ?_⟩
    · rw [hwidth] at hint
      exact hint
    · have hkept : p.Kept vinfo i := by
        refine ⟨hi, fun hedge => hleft ⟨hedge.1, ?_⟩, hright⟩
        rw [hwidth] at hedge
        omega
      obtain ⟨hfirst, hlast⟩ := hkept.drawn
      exact lt_of_drawn hdraw (beside hdraw h hi₀ hl₀) hl₀ hfirst hlast hc
    · rw [hwidth] at hright
      exact hright

end Ink

/-- A text is drawn as it should be in all fonts and colors and on all pictures exactly if it fits. -/
theorem draws_iff (p : Placement) (vinfo : Video_Info) :
    (∀ fontset fg bg data, ∃ data', p.draw vinfo fontset fg bg data = some data' ∧
      p.Draws vinfo fontset fg bg data data') ↔ p.Fits vinfo := by
  constructor
  · intro h
    obtain ⟨data', hdraw, hdraws⟩ := h (fun _ => 0) ink ink fun _ => 0
    exact fits_of_draws hdraw hdraws
  · exact fun h fontset fg bg data => draws_of_fits h data

def narrow : Placement where
  width := 6
  height := 11
  x := 0
  y := 0
  txt := [0x41]
  width_le := by decide
  height_le := by decide
  x_mem := by decide
  y_mem := by decide
  txt_lt := by decide
  txt_ne_zero := by decide

def picture : Video_Info where
  width := 320
  height := 240
  is_black_white := true
  width_lt := by decide
  height_lt := by decide
  nbytes_lt := by decide

/-- The two pixels right of the character are drawn, too. -/
theorem not_draws : ¬∀ (p : Placement) (vinfo : Video_Info) (fontset : ℕ → Byte) (fg bg : Color)
    (data : ℕ → Byte), ∃ data', p.draw vinfo fontset fg bg data = some data' ∧
      p.Draws vinfo fontset fg bg data data' := by
  intro h
  obtain ⟨data', hdraw, hdraws⟩ := h narrow picture (fun _ => 0) ink ink fun _ => 0
  rcases fits_of_draws hdraw hdraws with ⟨hcell | hline, -⟩ | ⟨hwidth, -⟩
  · exact hcell 0 ⟨by decide, by decide, by decide, by decide⟩
  · exact hline 0 ⟨by decide, by decide, by decide⟩
  · exact absurd hwidth (by decide)

end Placement

end NaviMisc.Camserv.Overlay
