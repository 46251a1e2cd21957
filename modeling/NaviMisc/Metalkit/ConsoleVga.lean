import Mathlib.Data.Int.Notation
import Mathlib.Data.List.Basic
import Mathlib.Data.List.GetD
import Mathlib.Data.List.Induction
import Mathlib.Logic.Function.Iterate

/-!
The VGA text console (metalkit/lib/console_vga.c), and a terminal without a frame buffer.
-/

namespace NaviMisc.Metalkit.ConsoleVga

abbrev Byte := BitVec 8

def VGA_TEXT_WIDTH : ℕ := 80

def VGA_TEXT_HEIGHT : ℕ := 25

def space : Byte := 0x20

def newlineChar : Byte := 0x0A

def tabChar : Byte := 0x09

def backspaceChar : Byte := 0x08

def int8 (z : ℤ) : ℤ := z.bmod 256

section Frame

abbrev Frame := ℕ → Byte

def InFrame (offset : ℤ) : Prop :=
  0 ≤ offset ∧ offset < VGA_TEXT_WIDTH * VGA_TEXT_HEIGHT * 2

instance (offset : ℤ) : Decidable (InFrame offset) := inferInstanceAs (Decidable (_ ∧ _))

def peek (fb : Frame) (offset : ℤ) : Option Byte :=
  if InFrame offset then some (fb offset.toNat) else none

def poke (fb : Frame) (offset : ℤ) (value : Byte) : Option Frame :=
  if InFrame offset then some (Function.update fb offset.toNat value) else none

def memcpy : ℕ → ℤ → ℤ → Frame → Option Frame
  | 0, _, _, fb => some fb
  | size + 1, dest, src, fb => do
    let value ← peek fb src
    let fb ← poke fb dest value
    memcpy size (dest + 1) (src + 1) fb

def writeCell (attr : Byte) (offset : ℤ) (c : Byte) (fb : Frame) : Option Frame := do
  let fb ← poke fb offset c
  poke fb (offset + 1) attr

def blanks (attr : Byte) : ℕ → ℤ → Frame → Option Frame
  | 0, _, fb => some fb
  | n + 1, offset, fb => do
    let fb ← writeCell attr offset space fb
    blanks attr n (offset + 2) fb

end Frame

structure ConsoleVGAObject where
  x : ℤ
  y : ℤ
  attr : Byte
  fb : Frame

/-- The outer loop of `ConsoleVGAClear`. -/
def clearRows (attr : Byte) : ℕ → ℤ → Frame → Option Frame
  | 0, _, fb => some fb
  | rows + 1, offset, fb => do
    let fb ← blanks attr VGA_TEXT_WIDTH offset fb
    clearRows attr rows (offset + 2 * VGA_TEXT_WIDTH) fb

def ConsoleVGAClear (self : ConsoleVGAObject) : Option ConsoleVGAObject := do
  let self := { self with x := 0, y := 0 }
  let fb ← clearRows self.attr VGA_TEXT_HEIGHT 0 self.fb
  return { self with fb }

def wrap (self : ConsoleVGAObject) : ConsoleVGAObject :=
  if VGA_TEXT_WIDTH ≤ self.x then { self with x := 0, y := int8 (self.y + 1) } else self

def scroll (self : ConsoleVGAObject) : Option ConsoleVGAObject :=
  if VGA_TEXT_HEIGHT ≤ self.y then do
    let scrollSize := VGA_TEXT_WIDTH * 2 * (VGA_TEXT_HEIGHT - 1)
    let fb ← memcpy scrollSize 0 (VGA_TEXT_WIDTH * 2 : ℕ) self.fb
    let fb ← blanks self.attr VGA_TEXT_WIDTH scrollSize fb
    return { self with y := VGA_TEXT_HEIGHT - 1, fb }
  else return self

def tabLoop (write : ConsoleVGAObject → Option ConsoleVGAObject) :
    ℕ → ConsoleVGAObject → Option ConsoleVGAObject
  | 0, _ => none
  | fuel + 1, self =>
    if self.x % 8 ≠ 0 then do
      let self ← write self
      tabLoop write fuel self
    else return self

def ConsoleVGAWriteChar : ℕ → Byte → ConsoleVGAObject → Option ConsoleVGAObject
  | 0, _, _ => none
  | fuel + 1, c, self => do
    let self ←
      if c = newlineChar then pure { self with y := int8 (self.y + 1), x := 0 }
      else if c = tabChar then tabLoop (ConsoleVGAWriteChar fuel space) fuel self
      else if c = backspaceChar then
        if 0 < self.x then do
          let self ← ConsoleVGAWriteChar fuel space { self with x := int8 (self.x - 1) }
          pure { self with x := int8 (self.x - 1) }
        else pure self
      else do
        let fb ← writeCell self.attr (self.x * 2 + self.y * VGA_TEXT_WIDTH * 2) c self.fb
        pure { self with fb, x := int8 (self.x + 1) }
    scroll (wrap self)

def console (fuel : ℕ) (string : List Byte) (self : ConsoleVGAObject) : Option ConsoleVGAObject :=
  ConsoleVGAClear self >>= string.foldlM fun self c => ConsoleVGAWriteChar fuel c self

structure Layout where
  lines : List (List Byte)
  line : List Byte
  fits : line.length < VGA_TEXT_WIDTH

namespace Layout

def empty : Layout := ⟨[], [], by decide⟩

def newline (L : Layout) : Layout := ⟨L.lines ++ [L.line], [], by decide⟩

def put (c : Byte) (L : Layout) : Layout :=
  if h : L.line.length + 1 < VGA_TEXT_WIDTH then
    ⟨L.lines, L.line ++ [c], by rwa [List.length_append, List.length_singleton]⟩
  else ⟨L.lines ++ [L.line ++ [c]], [], by decide⟩

def backspace (L : Layout) : Layout :=
  ⟨L.lines, L.line.dropLast, by rw [List.length_dropLast]; have := L.fits; omega⟩

def write (blanks : ℕ → ℕ) (L : Layout) (c : Byte) : Layout :=
  if c = newlineChar then L.newline
  else if c = tabChar then (put space)^[blanks L.line.length] L
  else if c = backspaceChar then L.backspace
  else L.put c

def rows (L : Layout) : List (List Byte) := L.lines ++ [L.line]

def visible (L : Layout) (row col : ℕ) : Byte :=
  ((L.rows.drop (L.rows.length - VGA_TEXT_HEIGHT)).getD row []).getD col space

end Layout

def nextStop (column : ℕ) : ℕ := 8 - column % 8

def toStop (column : ℕ) : ℕ := (8 - column % 8) % 8

def layout (blanks : ℕ → ℕ) (string : List Byte) : Layout :=
  string.foldl (Layout.write blanks) Layout.empty

section Frame

variable {fb : Frame} {k n : ℕ}

theorem inFrame_natCast {offset : ℕ} (h : offset < 4000) : InFrame offset := by
  constructor
  · exact Int.natCast_nonneg offset
  · rw [VGA_TEXT_WIDTH, VGA_TEXT_HEIGHT]
    omega

theorem peek_natCast {offset : ℕ} (h : offset < 4000) : peek fb offset = some (fb offset) :=
  if_pos (inFrame_natCast h)

theorem poke_natCast {offset : ℕ} (h : offset < 4000) (value : Byte) :
    poke fb offset value = some (Function.update fb offset value) :=
  if_pos (inFrame_natCast h)

theorem memcpy_spec {size dest src : ℕ} (hdest : dest ≤ src) (hsrc : src + size ≤ 4000) (fb : Frame) :
    ∃ fb', memcpy size dest src fb = some fb' ∧
      ∀ j, fb' j = if dest ≤ j ∧ j < dest + size then fb (j - dest + src) else fb j := by
  induction size generalizing dest src fb with
  | zero => exact ⟨fb, rfl, fun j => (if_neg (by omega)).symm⟩
  | succ size ih =>
    obtain ⟨fb', hcopy, hfb'⟩ := ih (by omega : dest + 1 ≤ src + 1)
      (by omega : src + 1 + size ≤ 4000) (Function.update fb dest (fb src))
    refine ⟨fb', ?_, fun j => ?_⟩
    · simp only [memcpy, peek_natCast (by omega : src < 4000), Option.bind_eq_bind, Option.bind_some,
        poke_natCast (by omega : dest < 4000)]
      exact hcopy
    · rw [hfb']
      by_cases hj : j = dest
      · subst hj
        rw [if_neg (by omega), if_pos (by omega), Function.update_self, Nat.sub_self, Nat.zero_add]
      · by_cases hin : dest ≤ j ∧ j < dest + (size + 1)
        · have hindex : j - (dest + 1) + (src + 1) = j - dest + src := by omega
          rw [if_pos (by omega), if_pos hin, hindex, Function.update_of_ne (by omega)]
        · rw [if_neg (by omega), if_neg hin, Function.update_of_ne hj]

def text (fb : Frame) (j : ℕ) : Byte := fb (2 * j)

theorem writeCell_spec (hk : k < 2000) (attr c : Byte) (fb : Frame) :
    ∃ fb', writeCell attr (2 * k : ℕ) c fb = some fb' ∧
      ∀ j, text fb' j = if j = k then c else text fb j := by
  refine ⟨Function.update (Function.update fb (2 * k) c) (2 * k + 1) attr, ?_, fun j => ?_⟩
  · rw [writeCell, poke_natCast (by omega), Option.bind_eq_bind, Option.bind_some]
    exact poke_natCast (by omega : 2 * k + 1 < 4000) attr
  · rw [text, Function.update_of_ne (by omega)]
    split_ifs with hj
    · rw [hj, Function.update_self]
    · exact Function.update_of_ne (by omega) _ _

theorem blanks_spec (hk : k + n ≤ 2000) (attr : Byte) (fb : Frame) :
    ∃ fb', blanks attr n (2 * k : ℕ) fb = some fb' ∧
      ∀ j, text fb' j = if k ≤ j ∧ j < k + n then space else text fb j := by
  induction n generalizing k fb with
  | zero => exact ⟨fb, rfl, fun j => (if_neg (by omega)).symm⟩
  | succ n ih =>
    obtain ⟨fb₁, hcell, hfb₁⟩ := writeCell_spec (by omega : k < 2000) attr space fb
    obtain ⟨fb₂, hrest, hfb₂⟩ := ih (k := k + 1) (by omega) fb₁
    refine ⟨fb₂, ?_, fun j => ?_⟩
    · rw [blanks, hcell, Option.bind_eq_bind, Option.bind_some]
      exact hrest
    · rw [hfb₂, hfb₁]
      split_ifs <;> first | rfl | omega

theorem clearRows_spec {rows : ℕ} (hk : k + 80 * rows ≤ 2000) (attr : Byte) (fb : Frame) :
    ∃ fb', clearRows attr rows (2 * k : ℕ) fb = some fb' ∧
      ∀ j, text fb' j = if k ≤ j ∧ j < k + 80 * rows then space else text fb j := by
  induction rows generalizing k fb with
  | zero => exact ⟨fb, rfl, fun j => (if_neg (by omega)).symm⟩
  | succ rows ih =>
    obtain ⟨fb₁, hrow, hfb₁⟩ := blanks_spec (n := 80) (by omega : k + 80 ≤ 2000) attr fb
    obtain ⟨fb₂, hrest, hfb₂⟩ := ih (k := k + 80) (by omega) fb₁
    refine ⟨fb₂, ?_, fun j => ?_⟩
    · rw [clearRows, VGA_TEXT_WIDTH, hrow, Option.bind_eq_bind, Option.bind_some]
      exact hrest
    · rw [hfb₂, hfb₁]
      split_ifs <;> first | rfl | omega

end Frame

theorem getD_concat {α : Type*} (l : List α) (a d : α) (n : ℕ) :
    (l ++ [a]).getD n d = if n = l.length then a else l.getD n d := by
  split_ifs with hn
  · rw [hn, List.getD_append_right _ _ _ _ (Nat.le_refl _), Nat.sub_self, List.getD_cons_zero]
  · rcases Nat.lt_or_ge n l.length with hlt | hge
    · exact List.getD_append _ _ _ _ hlt
    · rw [List.getD_eq_default _ _ (by rw [List.length_append, List.length_singleton]; omega),
        List.getD_eq_default _ _ hge]

section Cells

def cell (lines : List (List Byte)) (line : List Byte) (r k : ℕ) : Byte :=
  ((lines ++ [line]).getD r []).getD k space

variable {lines : List (List Byte)} {line : List Byte} {r k : ℕ}

theorem cell_eq : cell lines line r k =
    if r = lines.length then line.getD k space else (lines.getD r []).getD k space := by
  rw [cell, getD_concat]
  split_ifs <;> rfl

theorem cell_of_lt (hr : lines.length < r) : cell lines line r k = space := by
  rw [cell_eq, if_neg (by omega), List.getD_eq_default _ _ (by omega : lines.length ≤ r)]
  rfl

theorem cell_newline : cell (lines ++ [line]) [] r k = cell lines line r k := by
  rw [cell, cell, getD_concat]
  split_ifs with hr
  · rw [hr, List.getD_eq_default _ _ (Nat.le_refl _)]
  · rfl

theorem cell_concat (c : Byte) : cell lines (line ++ [c]) r k =
    if r = lines.length ∧ k = line.length then c else cell lines line r k := by
  rw [cell_eq, cell_eq, getD_concat]
  split_ifs <;> first | rfl | omega

theorem cell_dropLast (hline : 0 < line.length) : cell lines line.dropLast r k =
    if r = lines.length ∧ k = line.length - 1 then space else cell lines line r k := by
  have hne : line ≠ [] := List.ne_nil_of_length_pos hline
  have hlength : line.dropLast.length = line.length - 1 := List.length_dropLast
  have hconcat := @cell_concat lines line.dropLast r k (line.getLast hne)
  rw [List.dropLast_concat_getLast, hlength] at hconcat
  split_ifs with h
  · rw [cell_eq, if_pos h.1, List.getD_eq_default _ _ (by omega)]
  · rw [hconcat, if_neg h]

end Cells

namespace Layout

variable {L : Layout}

theorem cell_put (c : Byte) (r k : ℕ) : cell (L.put c).lines (L.put c).line r k =
    if r = L.lines.length ∧ k = L.line.length then c else cell L.lines L.line r k := by
  rw [← cell_concat, put]
  split_ifs
  · rfl
  · exact cell_newline

theorem length_put (c : Byte) : (L.put c).line.length = (L.line.length + 1) % 80 := by
  have hfits : L.line.length < 80 := L.fits
  rw [put]
  split_ifs with h <;> rw [VGA_TEXT_WIDTH] at h
  · rw [List.length_append, List.length_singleton, Nat.mod_eq_of_lt h]
  · rw [List.length_nil]
    omega

theorem length_puts (c : Byte) (n : ℕ) :
    ((put c)^[n] L).line.length = (L.line.length + n) % 80 := by
  induction n generalizing L with
  | zero => exact (Nat.mod_eq_of_lt L.fits).symm
  | succ n ih => rw [Function.iterate_succ_apply, ih, length_put, Nat.mod_add_mod, Nat.add_right_comm,
      Nat.add_assoc]

end Layout

structure Shows (object : ConsoleVGAObject) (L : Layout) : Prop where
  x : object.x = L.line.length
  y : object.y = min L.lines.length (VGA_TEXT_HEIGHT - 1)
  text : ∀ row < VGA_TEXT_HEIGHT, ∀ col < VGA_TEXT_WIDTH,
    text object.fb (VGA_TEXT_WIDTH * row + col) = L.visible row col

section Console

def Displays (fb : Frame) (n : ℕ) (cells : ℕ → ℕ → Byte) : Prop :=
  ∀ row < 25, ∀ col < 80, text fb (80 * row + col) = cells (n - 24 + row) col

variable {self : ConsoleVGAObject} {L : Layout}

theorem visible_eq (L : Layout) (row col : ℕ) :
    L.visible row col = cell L.lines L.line (L.lines.length - 24 + row) col := by
  rw [Layout.visible, cell, Layout.rows, List.length_append, List.length_singleton, VGA_TEXT_HEIGHT,
    Nat.add_sub_add_right _ 1 24]
  simp only [List.getD_eq_getElem?_getD, List.getElem?_drop]

theorem shows_iff : Shows self L ↔ self.x = L.line.length ∧
    self.y = (min L.lines.length 24 : ℕ) ∧ Displays self.fb L.lines.length (cell L.lines L.line) := by
  constructor
  · rintro ⟨hx, hy, htext⟩
    exact ⟨hx, hy,
      fun row hrow col hcol => (htext row hrow col hcol).trans (visible_eq L row col)⟩
  · rintro ⟨hx, hy, htext⟩
    exact ⟨hx, hy,
      fun row hrow col hcol => (htext row hrow col hcol).trans (visible_eq L row col).symm⟩

theorem int8_of_lt {z : ℤ} (h : 0 ≤ z) (h' : z < 128) : int8 z = z := by
  rw [int8, Int.bmod_eq_of_le_mul_two] <;> omega

theorem wrap_inside (hx : self.x < 80) : wrap self = self :=
  if_neg (Int.not_le.mpr hx)

theorem scroll_inside (hy : self.y < 25) : scroll self = some self :=
  if_neg (Int.not_le.mpr hy)

theorem scroll_spec (hy : 25 ≤ self.y) : ∃ fb, scroll self = some { self with y := 24, fb } ∧
    ∀ j, text fb j = if 1920 ≤ j ∧ j < 2000 then space
      else if j < 1920 then text self.fb (j + 80) else text self.fb j := by
  obtain ⟨fb₁, hcopy, hfb₁⟩ := memcpy_spec (by decide : 0 ≤ 160)
    (by decide : 160 + 3840 ≤ 4000) self.fb
  obtain ⟨fb₂, hblanks, hfb₂⟩ := blanks_spec (k := 1920) (n := 80) (by decide) self.attr fb₁
  refine ⟨fb₂, ?_, fun j => ?_⟩
  · rw [scroll, if_pos (show ((VGA_TEXT_HEIGHT : ℕ) : ℤ) ≤ self.y from hy)]
    change (memcpy 3840 (0 : ℕ) (160 : ℕ) self.fb).bind _ = _
    rw [hcopy, Option.bind_some]
    change (blanks self.attr 80 (2 * 1920 : ℕ) fb₁).bind _ = _
    rw [hblanks]
    rfl
  · have htext : text fb₁ j = if j < 1920 then text self.fb (j + 80) else text self.fb j := by
      rw [text, hfb₁, text, text]
      split_ifs
      · exact congrArg self.fb (by omega)
      · omega
      · omega
      · rfl
    rw [hfb₂, htext]

theorem newline_spec {n : ℕ} {cells : ℕ → ℕ → Byte} (hy : self.y = (min n 24 : ℕ))
    (hdisplays : Displays self.fb n cells) (hblank : ∀ col, cells (n + 1) col = space) :
    ∃ self', scroll { self with x := 0, y := int8 (self.y + 1) } = some self' ∧ self'.x = 0 ∧
      self'.y = (min (n + 1) 24 : ℕ) ∧ Displays self'.fb (n + 1) cells := by
  have hint : int8 (self.y + 1) = (min n 24 : ℕ) + 1 := by
    rw [hy, int8_of_lt] <;> omega
  rw [hint]
  rcases Nat.lt_or_ge n 24 with hn | hn
  · refine ⟨_, scroll_inside (by dsimp only; omega), rfl, by dsimp only; omega, ?_⟩
    intro row hrow col hcol
    rw [hdisplays row hrow col hcol]
    congr 1
    omega
  · have hbottom : 25 ≤ ConsoleVGAObject.y { self with x := 0, y := (min n 24 : ℕ) + 1 } := by
      dsimp only
      omega
    obtain ⟨fb, hscroll, hfb⟩ := scroll_spec hbottom
    refine ⟨_, hscroll, rfl, by dsimp only; omega, ?_⟩
    intro row hrow col hcol
    rw [hfb]
    split_ifs with hlast hcopied
    · have hrow : n + 1 - 24 + row = n + 1 := by omega
      rw [hrow, hblank]
    · have hindex : n + 1 - 24 + row = n - 24 + (row + 1) := by omega
      rw [hindex, ← hdisplays (row + 1) (by omega) col hcol]
      congr 1
      omega
    · omega

def Plain (c : Byte) : Prop := c ≠ newlineChar ∧ c ≠ tabChar ∧ c ≠ backspaceChar

theorem plain_space : Plain space := ⟨by decide, by decide, by decide⟩

theorem write_plain {c : Byte} (hc : Plain c) {x y : ℕ} (hx : self.x = x) (hy : self.y = y)
    (hx80 : x < 80) (hy25 : y < 25) (fuel : ℕ) :
    ∃ fb, ConsoleVGAWriteChar (fuel + 1) c self =
      scroll (wrap { self with fb, x := x + 1 }) ∧
      ∀ j, text fb j = if j = 80 * y + x then c else text self.fb j := by
  obtain ⟨fb, hcell, hfb⟩ := writeCell_spec (by omega : 80 * y + x < 2000) self.attr c self.fb
  refine ⟨fb, ?_, hfb⟩
  have hoffset : self.x * 2 + self.y * VGA_TEXT_WIDTH * 2 = (2 * (80 * y + x) : ℕ) := by
    rw [hx, hy, VGA_TEXT_WIDTH]
    omega
  rw [ConsoleVGAWriteChar, if_neg hc.1, if_neg hc.2.1, if_neg hc.2.2, hoffset, hcell, hx,
    int8_of_lt (by omega) (by omega)]
  rfl

theorem write_put {c : Byte} (hc : Plain c) (h : Shows self L) (fuel : ℕ) :
    ∃ self', ConsoleVGAWriteChar (fuel + 1) c self = some self' ∧ Shows self' (L.put c) := by
  obtain ⟨hx, hy, hdisplays⟩ := shows_iff.mp h
  have hfits : L.line.length < 80 := L.fits
  obtain ⟨fb, hwrite, hfb⟩ := write_plain hc hx hy hfits (by omega) fuel
  have hput : Displays fb L.lines.length (cell (L.put c).lines (L.put c).line) := by
    intro row hrow col hcol
    rw [hfb, Layout.cell_put, hdisplays row hrow col hcol]
    by_cases hhere : 80 * row + col = 80 * min L.lines.length 24 + L.line.length
    · rw [if_pos hhere, if_pos (by omega)]
    · rw [if_neg hhere, if_neg (by omega)]
  rw [hwrite]
  by_cases hlast : L.line.length + 1 < 80
  · rw [wrap_inside (by dsimp only; omega), scroll_inside (by dsimp only; omega)]
    refine ⟨_, rfl, shows_iff.mpr ?_⟩
    rw [Layout.put, dif_pos (show _ < VGA_TEXT_WIDTH from hlast)] at hput ⊢
    refine ⟨?_, hy, hput⟩
    rw [List.length_append, List.length_singleton]
    rfl
  · rw [wrap, if_pos (by rw [VGA_TEXT_WIDTH]; dsimp only; omega)]
    have hy' : ConsoleVGAObject.y { self with fb, x := L.line.length + 1 } =
        (min L.lines.length 24 : ℕ) := hy
    obtain ⟨self', hscroll, hx', hy', hdisplays'⟩ := newline_spec hy' hput fun col => by
        rw [Layout.put, dif_neg (show ¬_ < VGA_TEXT_WIDTH from hlast), cell_newline]
        exact cell_of_lt (Nat.lt_succ_self _)
    refine ⟨self', hscroll, shows_iff.mpr ?_⟩
    rw [Layout.put, dif_neg (show ¬_ < VGA_TEXT_WIDTH from hlast)] at hdisplays' ⊢
    rw [List.length_append, List.length_singleton]
    exact ⟨hx', hy', hdisplays'⟩

theorem Shows.settled (h : Shows self L) : scroll (wrap self) = some self := by
  obtain ⟨hx, hy, -⟩ := shows_iff.mp h
  have hfits : L.line.length < 80 := L.fits
  rw [wrap_inside (by omega), scroll_inside (by omega)]

theorem write_newline (h : Shows self L) (fuel : ℕ) : ∃ self',
    ConsoleVGAWriteChar (fuel + 1) newlineChar self = some self' ∧ Shows self' L.newline := by
  obtain ⟨-, hy, hdisplays⟩ := shows_iff.mp h
  obtain ⟨self', hscroll, hx', hy', hdisplays'⟩ := newline_spec hy hdisplays fun col =>
    cell_of_lt (Nat.lt_succ_self _)
  refine ⟨self', ?_, shows_iff.mpr ?_⟩
  · rw [ConsoleVGAWriteChar, if_pos rfl]
    change scroll (wrap _) = _
    rw [wrap_inside (by dsimp only; decide), hscroll]
  · rw [Layout.newline, List.length_append, List.length_singleton]
    exact ⟨hx', hy', fun row hrow col hcol =>
      (hdisplays' row hrow col hcol).trans cell_newline.symm⟩

theorem write_backspace (h : Shows self L) (fuel : ℕ) : ∃ self',
    ConsoleVGAWriteChar (fuel + 2) backspaceChar self = some self' ∧ Shows self' L.backspace := by
  obtain ⟨hx, hy, hdisplays⟩ := shows_iff.mp h
  have hfits : L.line.length < 80 := L.fits
  rw [ConsoleVGAWriteChar, if_neg (by decide), if_neg (by decide), if_pos rfl]
  by_cases hline : 0 < L.line.length
  · have hint : int8 (self.x - 1) = (L.line.length - 1 : ℕ) := by
      rw [hx, int8_of_lt] <;> omega
    have hx' : ConsoleVGAObject.x { self with x := (L.line.length - 1 : ℕ) } =
        (L.line.length - 1 : ℕ) := rfl
    obtain ⟨fb, hwrite, hfb⟩ := write_plain plain_space hx' hy (by omega) (by omega) fuel
    rw [wrap_inside (by dsimp only; omega), scroll_inside (by dsimp only; omega)] at hwrite
    have hback : int8 ((L.line.length - 1 : ℕ) + 1 - 1) = (L.line.length - 1 : ℕ) := by
      rw [int8_of_lt] <;> omega
    rw [if_pos (by omega), hint, hwrite]
    change ∃ self', scroll (wrap _) = some self' ∧ _
    dsimp only
    rw [hback, wrap_inside (by dsimp only; omega), scroll_inside (by dsimp only; omega)]
    refine ⟨_, rfl, shows_iff.mpr ⟨?_, hy, ?_⟩⟩
    · rw [Layout.backspace, List.length_dropLast]
    · intro row hrow col hcol
      rw [hfb, Layout.backspace, cell_dropLast hline, hdisplays row hrow col hcol]
      by_cases hhere : 80 * row + col = 80 * min L.lines.length 24 + (L.line.length - 1)
      · rw [if_pos hhere, if_pos (by dsimp only; omega)]
      · rw [if_neg hhere, if_neg (by dsimp only; omega)]
  · have hempty : L.backspace = L := by
      obtain ⟨lines, line, _⟩ := L
      obtain rfl : line = [] := List.eq_nil_of_length_eq_zero (by dsimp only at hline; omega)
      rfl
    rw [if_neg (by omega), hempty]
    exact ⟨self, h.settled, h⟩

theorem toStop_lt (column : ℕ) : toStop column < 8 := Nat.mod_lt _ (by decide)

theorem tabLoop_spec {n k : ℕ} (h : Shows self L) (hn : toStop L.line.length = n) (hk : n < k)
    (fuel : ℕ) : ∃ self', tabLoop (ConsoleVGAWriteChar (fuel + 1) space) k self = some self' ∧
      Shows self' ((Layout.put space)^[n] L) := by
  have hx := h.x
  rw [toStop] at hn
  obtain ⟨k, rfl⟩ := Nat.exists_eq_succ_of_ne_zero (by omega : k ≠ 0)
  induction n generalizing k self L with
  | zero =>
    refine ⟨self, ?_, h⟩
    rw [tabLoop, if_neg (by omega)]
    rfl
  | succ n ih =>
    obtain ⟨self₁, hwrite, h₁⟩ := write_put plain_space h fuel
    obtain ⟨k, rfl⟩ := Nat.exists_eq_succ_of_ne_zero (by omega : k ≠ 0)
    have hfits : L.line.length < 80 := L.fits
    have hlength := Layout.length_put (L := L) space
    obtain ⟨self', hloop, h'⟩ := ih h₁ (by rw [hlength]; omega) h₁.x k (by omega)
    refine ⟨self', ?_, h'⟩
    rw [tabLoop, if_pos (by omega), hwrite]
    exact hloop

theorem write_tab (h : Shows self L) (fuel : ℕ) : ∃ self',
    ConsoleVGAWriteChar (fuel + 9) tabChar self = some self' ∧
      Shows self' ((Layout.put space)^[toStop L.line.length] L) := by
  have hfuel : toStop L.line.length < fuel + 8 := by
    have hlt := toStop_lt L.line.length
    omega
  obtain ⟨self', hloop, h'⟩ := tabLoop_spec h rfl hfuel (fuel + 7)
  refine ⟨self', ?_, h'⟩
  rw [ConsoleVGAWriteChar, if_neg (by decide), if_pos rfl, hloop]
  exact h'.settled

theorem write_shows (h : Shows self L) (c : Byte) (fuel : ℕ) : ∃ self',
    ConsoleVGAWriteChar (fuel + 9) c self = some self' ∧ Shows self' (L.write toStop c) := by
  rw [Layout.write]
  split_ifs with hnewline htab hbackspace
  · rw [hnewline]
    exact write_newline h (fuel + 8)
  · rw [htab]
    exact write_tab h fuel
  · rw [hbackspace]
    exact write_backspace h (fuel + 7)
  · exact write_put ⟨hnewline, htab, hbackspace⟩ h (fuel + 8)

theorem clear_shows (self : ConsoleVGAObject) :
    ∃ self', ConsoleVGAClear self = some self' ∧ Shows self' Layout.empty := by
  obtain ⟨fb, hclear, hfb⟩ := clearRows_spec (by decide : 0 + 80 * 25 ≤ 2000) self.attr self.fb
  refine ⟨{ self with x := 0, y := 0, fb }, ?_, shows_iff.mpr ⟨rfl, rfl, ?_⟩⟩
  · rw [ConsoleVGAClear]
    change (clearRows self.attr 25 (2 * 0 : ℕ) self.fb).bind _ = _
    rw [hclear]
    rfl
  · intro row hrow col hcol
    rw [hfb, if_pos (by omega), cell_eq]
    split_ifs <;> rfl

theorem console_shows (fuel : ℕ) (string : List Byte) (self : ConsoleVGAObject) : ∃ self',
    console (fuel + 9) string self = some self' ∧ Shows self' (layout toStop string) := by
  obtain ⟨self₀, hclear, h₀⟩ := clear_shows self
  rw [console, hclear, layout, Option.bind_eq_bind, Option.bind_some]
  generalize Layout.empty = L at h₀ ⊢
  clear hclear
  induction string generalizing self₀ L with
  | nil => exact ⟨self₀, rfl, h₀⟩
  | cons c string ih =>
    obtain ⟨self₁, hwrite, h₁⟩ := write_shows h₀ c fuel
    rw [List.foldlM_cons, hwrite, List.foldl_cons]
    exact ih _ _ h₁

end Console

def NoTabAtStop (string : List Byte) : Prop :=
  ∀ start, start ++ [tabChar] <+: string → ¬8 ∣ (layout nextStop start).line.length

section Tabs

variable {string : List Byte}

theorem layout_concat (blanks : ℕ → ℕ) (string : List Byte) (c : Byte) :
    layout blanks (string ++ [c]) = (layout blanks string).write blanks c := by
  rw [layout, layout, List.foldl_append]
  rfl

theorem layout_eq (h : NoTabAtStop string) : layout nextStop string = layout toStop string := by
  induction string using List.reverseRecOn with
  | nil => rfl
  | append_singleton string c ih =>
    have hprefix : layout nextStop string = layout toStop string := by
      apply ih
      intro start hstart
      exact h start (hstart.trans (List.prefix_append string [c]))
    rw [layout_concat, layout_concat, ← hprefix, Layout.write, Layout.write]
    by_cases htab : c = tabChar
    · have hstop := h string (htab ▸ List.prefix_rfl)
      have hblanks : nextStop (layout nextStop string).line.length =
          toStop (layout nextStop string).line.length := by
        rw [nextStop, toStop]
        omega
      rw [hblanks]
    · rw [if_neg htab, if_neg htab]

theorem noTabAtStop_iff (self : ConsoleVGAObject) (fuel : ℕ) :
    (∀ start, start <+: string → ∃ self', console (fuel + 9) start self = some self' ∧
      Shows self' (layout nextStop start)) ↔ NoTabAtStop string := by
  constructor
  · intro h start hstart hstop
    have hlength : ∀ start, start <+: string →
        (layout nextStop start).line.length = (layout toStop start).line.length := by
      intro start hstart
      obtain ⟨self₁, hrun₁, h₁⟩ := h start hstart
      obtain ⟨self₂, hrun₂, h₂⟩ := console_shows fuel start self
      obtain rfl := Option.some.inj (hrun₁.symm.trans hrun₂)
      exact Int.ofNat.inj (h₁.x.symm.trans h₂.x)
    have hbefore := hlength start ((List.prefix_append start [tabChar]).trans hstart)
    have hafter := hlength _ hstart
    have hfits : (layout nextStop start).line.length < 80 := Layout.fits _
    have hwrite : ∀ blanks, ((layout blanks start).write blanks tabChar).line.length =
        ((layout blanks start).line.length + blanks (layout blanks start).line.length) % 80 :=
      fun blanks => Layout.length_puts space _
    rw [layout_concat, layout_concat, hwrite, hwrite, ← hbefore, nextStop, toStop] at hafter
    omega
  · intro h start hstart
    have hnext := layout_eq fun before hbefore => h before (hbefore.trans hstart)
    rw [hnext]
    exact console_shows fuel start self

/-- What is accessed outside the frame buffer would end the run, as would a loop without an end. -/
theorem console_terminal (fuel : ℕ) (string : List Byte) (self : ConsoleVGAObject) :
    (∃ self', console (fuel + 9) string self = some self' ∧ 0 ≤ self'.x ∧
      self'.x < VGA_TEXT_WIDTH ∧ 0 ≤ self'.y ∧ self'.y < VGA_TEXT_HEIGHT) ∧
    ((∀ start, start <+: string → ∃ self', console (fuel + 9) start self = some self' ∧
      Shows self' (layout nextStop start)) ↔ NoTabAtStop string) := by
  refine ⟨?_, noTabAtStop_iff self fuel⟩
  obtain ⟨self', hrun, h⟩ := console_shows fuel string self
  obtain ⟨hx, hy, -⟩ := shows_iff.mp h
  have hfits : (layout toStop string).line.length < 80 := Layout.fits _
  rw [VGA_TEXT_WIDTH, VGA_TEXT_HEIGHT]
  exact ⟨self', hrun, by omega, by omega, by omega, by omega⟩

/-- The tab before the letter is lost. -/
theorem not_console_terminal : ¬∀ (fuel : ℕ) (string : List Byte) (self : ConsoleVGAObject),
    ∃ self', console (fuel + 9) string self = some self' ∧
      ∀ row < VGA_TEXT_HEIGHT, ∀ col < VGA_TEXT_WIDTH,
        text self'.fb (VGA_TEXT_WIDTH * row + col) = (layout nextStop string).visible row col := by
  intro h
  obtain ⟨self₁, hrun₁, htext⟩ := h 0 [tabChar, 0x41] ⟨0, 0, 7, fun _ => 0⟩
  obtain ⟨self₂, hrun₂, hshows⟩ := console_shows 0 [tabChar, 0x41] ⟨0, 0, 7, fun _ => 0⟩
  obtain rfl := Option.some.inj (hrun₁.symm.trans hrun₂)
  have hletter := (htext 0 (by decide) 0 (by decide)).symm.trans
    (hshows.text 0 (by decide) 0 (by decide))
  exact absurd hletter (by decide)

end Tabs

end NaviMisc.Metalkit.ConsoleVga
