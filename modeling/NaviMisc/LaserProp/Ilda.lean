import Mathlib.Data.Int.Bitwise
import NaviMisc.Lib.Lists
import NaviMisc.Lib.ByteOrder

/-!
Tables of points and colors in the image data transfer format, client/ILDA.py.
-/

namespace NaviMisc.LaserProp.Ilda

open NaviMisc.Lib
open NaviMisc.Lib.ByteOrder (Byte)
open NaviMisc.Lib.Packing (Code)

inductive Error
  | structError
  | valueError
  | indexError
  deriving DecidableEq

section Struct

def h : Code := ⟨2, true⟩

def H : Code := ⟨2, false⟩

def B : Code := ⟨1, false⟩

def pack (fmt : List Code) (l : List ℤ) : Except Error (List Byte) :=
  (Packing.pack .big fmt l).elim (.error .structError) .ok

def unpack (fmt : List Code) (s : List Byte) : Except Error (List ℤ) :=
  (Packing.unpack .big fmt s).elim (.error .structError) .ok

/-- A string in a field of `n` bytes is cut or filled with zeros. -/
def field (n : ℕ) (s : List Byte) : List Byte := s.take n ++ List.replicate (n - s.length) 0

end Struct

def FORMAT_3D : ℤ := 0

def FORMAT_2D : ℤ := 1

def FORMAT_COLOR_TABLE : ℤ := 2

def formatTable : List (List Code) := [[h, h, h, H], [h, h, H], [B, B, B]]

def HEADER_MAGIC : List Byte := [0x49, 0x4C, 0x44, 0x41, 0, 0, 0]

def HEADER_RESERVED : ℤ := 0

def HEADER_LEN : ℕ := 32

structure Table where
  format : ℤ := FORMAT_2D
  name : List Byte := []
  length : ℤ := 0
  number : ℤ := 0
  total : ℤ := 0
  scanHead : ℤ := 0
  items : List (List ℤ) := []
  deriving DecidableEq

structure Point where
  x : ℚ := 0
  y : ℚ := 0
  z : ℚ := 0
  color : ℤ := 0
  blanking : Bool := false
  deriving DecidableEq

def index {α : Type*} (l : List α) (i : ℤ) : Except Error α :=
  let i := if i < 0 then l.length + i else i
  if i < 0 then .error .indexError else l[i.toNat]?.elim (.error .indexError) .ok

namespace Table

/-- The struct format `>7sB16sHHHBB`. -/
def packHeader (t : Table) : Except Error (List Byte) := do
  let format ← pack [B] [t.format]
  let numbers ← pack [H, H, H, B, B] [t.length, t.number, t.total, t.scanHead, HEADER_RESERVED]
  .ok (field 7 HEADER_MAGIC ++ format ++ field 16 t.name ++ numbers)

def unpackHeader (data : List Byte) (t : Table) : Except Error Table := do
  if data.length ≠ HEADER_LEN then .error .structError
  else do
    let magic := data.take 7
    let format ← unpack [B] ((data.drop 7).take 1)
    let name := (data.drop 8).take 16
    let numbers ← unpack [H, H, H, B, B] (data.drop 24)
    match format, numbers with
    | [format], [length, number, total, scanHead, reserved] =>
      if magic ≠ HEADER_MAGIC then .error .valueError
      else if reserved ≠ HEADER_RESERVED then .error .valueError
      else .ok { t with format, name, length, number, total, scanHead }
    | _, _ => .error .structError

def getItemFormat (t : Table) : Except Error (List Code) :=
  match index formatTable t.format with
  | .error .indexError => .error .valueError
  | r => r

def readItems (fmt : List Code) : ℕ → List Byte → Except Error (List (List ℤ) × List Byte)
  | 0, s => .ok ([], s)
  | n + 1, s => do
    let item ← unpack fmt (s.take (Packing.calcsize fmt))
    let (items, s) ← readItems fmt n (s.drop (Packing.calcsize fmt))
    .ok (item :: items, s)

def read (t : Table) (s : List Byte) : Except Error (Table × List Byte) := do
  let t ← t.unpackHeader (s.take HEADER_LEN)
  let s := s.drop HEADER_LEN
  if t.length = 0 then .ok (t, s)
  else do
    let fmt ← t.getItemFormat
    let (items, s) ← readItems fmt t.length.toNat s
    .ok ({ t with items }, s)

def write (t : Table) : Except Error (List Byte) := do
  let header ← t.packHeader
  if t.length = 0 then .ok header
  else do
    let fmt ← t.getItemFormat
    .ok (header ++ (← t.items.mapM (pack fmt)).flatten)

end Table

def Point.decode (t : List ℤ) : Except Error Point := do
  let x := (← index t 0) / (0x7FFF : ℚ)
  let y := (← index t 1) / (0x7FFF : ℚ)
  let z ← if t.length > 3 then do .ok ((← index t 2) / (0x7FFF : ℚ)) else .ok 0
  let color := (← index t 3).land 0xFF
  let blanking := (← index t 3).land (1 <<< 14) ≠ 0
  .ok { x, y, z, color, blanking }

def Table.iterPoints (t : Table) : Except Error (List Point) := t.items.mapM Point.decode

theorem Table.unpackHeader_length {data : List Byte} {t t' : Table}
    (h : t.unpackHeader data = .ok t') : data.length = HEADER_LEN := by
  rw [unpackHeader] at h
  split at h
  · cases h
  · exact not_not.mp ‹_›

theorem Table.readItems_length {fmt : List Code} {n : ℕ} {s s' : List Byte}
    {items : List (List ℤ)} (h : readItems fmt n s = .ok (items, s')) : s'.length ≤ s.length := by
  induction n generalizing s items with
  | zero =>
    cases h
    exact Nat.le_refl _
  | succ n ih =>
    obtain ⟨item, -, h⟩ := Lists.bind_eq_ok h
    obtain ⟨⟨items', s₁⟩, hrest, h⟩ := Lists.bind_eq_ok h
    cases h
    exact (ih hrest).trans (by simp)

theorem Table.read_length {t t' : Table} {s s' : List Byte} (h : t.read s = .ok (t', s')) :
    s'.length < s.length := by
  obtain ⟨t₁, hheader, h⟩ := Lists.bind_eq_ok h
  have hlength := unpackHeader_length hheader
  rw [List.length_take, HEADER_LEN] at hlength
  have hdrop : (s.drop HEADER_LEN).length < s.length := by
    rw [List.length_drop, HEADER_LEN]
    omega
  dsimp only at h
  split at h
  · cases h
    exact hdrop
  · obtain ⟨fmt, -, h⟩ := Lists.bind_eq_ok h
    obtain ⟨⟨items, s₁⟩, hitems, h⟩ := Lists.bind_eq_ok h
    cases h
    exact (readItems_length hitems).trans_lt hdrop

/-- The tables that are yielded, and the rest of the stream or what is raised. -/
def read (s : List Byte) : List Table × Except Error (List Byte) :=
  match h : Table.read {} s with
  | .error e => ([], .error e)
  | .ok (t, s') =>
    if t.length = 0 then ([], .ok s')
    else
      have := Table.read_length h
      let (tables, r) := read s'
      (t :: tables, r)
termination_by s.length

def write (tables : List Table) : Except Error (List Byte) := do
  let tables ← tables.mapM Table.write
  .ok (tables.flatten ++ (← Table.write {}))

section Round

theorem length_field (n : ℕ) (s : List Byte) : (field n s).length = n := by
  rw [field, List.length_append, List.length_take, List.length_replicate]
  omega

theorem field_of_length {n : ℕ} {s : List Byte} (h : s.length = n) : field n s = s := by
  rw [field, List.take_of_length_le h.le, h, Nat.sub_self, List.replicate_zero, List.append_nil]

theorem pack_inRange {fmt : List Code} {l : List ℤ} (h : List.Forall₂ Code.InRange fmt l) :
    ∃ s, pack fmt l = .ok s ∧ s.length = Packing.calcsize fmt ∧ unpack fmt s = .ok l := by
  obtain ⟨s, hs⟩ := Packing.exists_pack (e := .big) h
  refine ⟨s, ?_, Packing.length_pack hs, ?_⟩
  · rw [pack, hs]
    rfl
  · rw [unpack, Packing.unpack_pack hs]
    rfl

namespace Table

structure HeaderInRange (t : Table) : Prop where
  format : B.InRange t.format
  length : H.InRange t.length
  number : H.InRange t.number
  total : H.InRange t.total
  scanHead : B.InRange t.scanHead

variable {t : Table}

theorem unpackHeader_packHeader (ht : t.HeaderInRange) :
    ∃ data, t.packHeader = .ok data ∧ data.length = HEADER_LEN ∧
      ∀ t₀, unpackHeader data t₀ = .ok { t with name := field 16 t.name, items := t₀.items } := by
  obtain ⟨format, hformat, hlformat, huformat⟩ := pack_inRange (.cons ht.format .nil)
  obtain ⟨numbers, hnumbers, hlnumbers, hunumbers⟩ :=
    pack_inRange (.cons ht.length (.cons ht.number (.cons ht.total (.cons ht.scanHead
      (.cons (show B.InRange HEADER_RESERVED by decide) .nil)))))
  have hmagic : field 7 HEADER_MAGIC = HEADER_MAGIC := field_of_length rfl
  have hlname := length_field 16 t.name
  refine ⟨field 7 HEADER_MAGIC ++ format ++ field 16 t.name ++ numbers, ?_, ?_, fun t₀ => ?_⟩
  · rw [packHeader, hformat, hnumbers]
    rfl
  · simp [length_field, hlformat, hlnumbers, Packing.calcsize, B, H, HEADER_LEN]
  · generalize field 16 t.name = name at *
    rw [hmagic]
    change format.length = 1 at hlformat
    change numbers.length = 8 at hlnumbers
    have hlheader : (HEADER_MAGIC ++ format).length = 8 := by
      rw [List.length_append, hlformat]
      rfl
    have hlall : (HEADER_MAGIC ++ format ++ name).length = 24 := by
      rw [List.length_append, hlheader, hlname]
    rw [unpackHeader, if_neg (by rw [List.length_append, hlall, hlnumbers]; decide)]
    dsimp only
    rw [List.drop_left' hlall, List.append_assoc _ name, List.drop_left' hlheader,
      List.take_left' hlname, List.append_assoc, List.drop_left' (show HEADER_MAGIC.length = 7 from rfl),
      List.take_left' (show HEADER_MAGIC.length = 7 from rfl), List.take_left' hlformat, huformat,
      hunumbers]
    rfl

theorem readItems_mapM {fmt : List Code} {items : List (List ℤ)}
    (h : ∀ item ∈ items, List.Forall₂ Code.InRange fmt item) :
    ∃ data, items.mapM (pack fmt) = .ok data ∧
      ∀ rest, readItems fmt items.length (data.flatten ++ rest) = .ok (items, rest) := by
  induction items with
  | nil => exact ⟨[], rfl, fun _ => rfl⟩
  | cons item items ih =>
    rw [List.forall_mem_cons] at h
    obtain ⟨s, hpack, hlength, hunpack⟩ := pack_inRange h.1
    obtain ⟨data, hdata, hread⟩ := ih h.2
    refine ⟨s :: data, ?_, fun rest => ?_⟩
    · rw [List.mapM_cons, hpack, hdata]
      rfl
    · rw [List.flatten_cons, List.append_assoc, List.length_cons, readItems,
        List.take_left' hlength, List.drop_left' hlength, hunpack, hread]
      rfl

structure Valid (t : Table) : Prop where
  format : t.format = FORMAT_3D ∨ t.format = FORMAT_2D ∨ t.format = FORMAT_COLOR_TABLE
  name : t.name.length = 16
  length : t.length = t.items.length
  nonempty : 1 ≤ t.items.length
  header : t.HeaderInRange
  items : ∀ fmt, t.getItemFormat = .ok fmt → ∀ item ∈ t.items, List.Forall₂ Code.InRange fmt item

theorem getItemFormat_valid
    (h : t.format = FORMAT_3D ∨ t.format = FORMAT_2D ∨ t.format = FORMAT_COLOR_TABLE) :
    ∃ fmt, t.getItemFormat = .ok fmt := by
  rcases h with h | h | h
  · exact ⟨[Ilda.h, Ilda.h, Ilda.h, H], by rw [getItemFormat, h]; rfl⟩
  · exact ⟨[Ilda.h, Ilda.h, H], by rw [getItemFormat, h]; rfl⟩
  · exact ⟨[B, B, B], by rw [getItemFormat, h]; rfl⟩

theorem read_write (ht : t.Valid) :
    ∃ data, t.write = .ok data ∧ ∀ rest, Table.read {} (data ++ rest) = .ok (t, rest) := by
  obtain ⟨header, hheader, hlength, hunpack⟩ := unpackHeader_packHeader ht.header
  obtain ⟨fmt, hfmt⟩ := getItemFormat_valid ht.format
  obtain ⟨data, hdata, hread⟩ := readItems_mapM (ht.items fmt hfmt)
  have hne : t.length ≠ 0 := by
    have hpos := ht.nonempty
    rw [ht.length]
    omega
  refine ⟨header ++ data.flatten, ?_, fun rest => ?_⟩
  · rw [write, hheader]
    change (if t.length = 0 then _ else _) = _
    rw [if_neg hne, hfmt]
    change (t.items.mapM (pack fmt) >>= _) = _
    rw [hdata]
    rfl
  · rw [read, List.append_assoc, List.take_left' hlength, List.drop_left' hlength, hunpack,
      field_of_length ht.name]
    change (if t.length = 0 then _ else getItemFormat _ >>= _) = _
    have hfmt' : getItemFormat { t with items := [] } = .ok fmt := hfmt
    rw [if_neg hne, hfmt']
    change (readItems fmt t.length.toNat _ >>= _) = _
    rw [ht.length, Int.toNat_natCast, hread, ← ht.length]
    rfl

theorem write_end : ∃ data, Table.write {} = .ok data ∧
    ∀ rest, ∃ t, t.length = 0 ∧ Table.read {} (data ++ rest) = .ok (t, rest) := by
  have hrange : HeaderInRange {} := ⟨by decide, by decide, by decide, by decide, by decide⟩
  obtain ⟨header, hheader, hlength, hunpack⟩ := unpackHeader_packHeader hrange
  refine ⟨header, ?_, fun rest => ⟨{ name := field 16 [] }, rfl, ?_⟩⟩
  · rw [write, hheader]
    rfl
  · rw [read, List.take_left' hlength, List.drop_left' hlength, hunpack]
    rfl

end Table

theorem read_cons {s s' : List Byte} {t : Table} (h : Table.read {} s = .ok (t, s'))
    (ht : t.length ≠ 0) : read s = (t :: (read s').1, (read s').2) := by
  rw [read]
  split
  · rename_i h'
    rw [h] at h'
    cases h'
  · rename_i h'
    rw [h] at h'
    cases h'
    rw [if_neg ht]

theorem read_nil {s s' : List Byte} {t : Table} (h : Table.read {} s = .ok (t, s'))
    (ht : t.length = 0) : read s = ([], .ok s') := by
  rw [read]
  split
  · rename_i h'
    rw [h] at h'
    cases h'
  · rename_i h'
    rw [h] at h'
    cases h'
    rw [if_pos ht]

theorem read_write {tables : List Table} (h : ∀ t ∈ tables, t.Valid) :
    ∃ data, write tables = .ok data ∧ ∀ rest, read (data ++ rest) = (tables, .ok rest) := by
  obtain ⟨last, hlast, hend⟩ := Table.write_end
  suffices hall : ∃ data, tables.mapM Table.write = .ok data ∧
      ∀ rest, read (data.flatten ++ (last ++ rest)) = (tables, .ok rest) by
    obtain ⟨data, hdata, hread⟩ := hall
    refine ⟨data.flatten ++ last, ?_, fun rest => ?_⟩
    · rw [write, hdata, hlast]
      rfl
    · rw [List.append_assoc]
      exact hread rest
  induction tables with
  | nil =>
    refine ⟨[], rfl, fun rest => ?_⟩
    obtain ⟨t, ht, hread⟩ := hend rest
    exact read_nil hread ht
  | cons t tables ih =>
    rw [List.forall_mem_cons] at h
    obtain ⟨s, hs, hread⟩ := Table.read_write h.1
    obtain ⟨data, hdata, hrest⟩ := ih h.2
    refine ⟨s :: data, ?_, fun rest => ?_⟩
    · rw [List.mapM_cons, hs, hdata]
      rfl
    · have hne : t.length ≠ 0 := by
        have hpos := h.1.nonempty
        rw [h.1.length]
        omega
      rw [List.flatten_cons, List.append_assoc, read_cons (hread _) hne, hrest]

end Round

section Points

structure Table.IsFrame (t : Table) : Prop where
  format : t.format = FORMAT_3D ∨ t.format = FORMAT_2D
  items : ∀ fmt, t.getItemFormat = .ok fmt → ∀ item ∈ t.items, List.Forall₂ Code.InRange fmt item

def Point.Shows (format : ℤ) (item : List ℤ) (p : Point) : Prop :=
  ∃ x y status : ℤ, p.x = x / 0x7FFF ∧ p.y = y / 0x7FFF ∧ p.color = status % 2 ^ 8 ∧
    p.blanking = status.testBit 14 ∧
      (format = FORMAT_2D ∧ item = [x, y, status] ∨
        format = FORMAT_3D ∧ ∃ z, item = [x, y, z, status] ∧ p.z = z / 0x7FFF)

def Table.Shown (t : Table) : Prop :=
  ∃ points, t.iterPoints = .ok points ∧ List.Forall₂ (Point.Shows t.format) t.items points

theorem status_bits {status : ℤ} (h : H.InRange status) :
    status.land 0xFF = status % 2 ^ 8 ∧
      decide (status.land (1 <<< 14) ≠ 0) = status.testBit 14 := by
  obtain ⟨n, rfl⟩ := Int.eq_ofNat_of_zero_le h.1
  constructor
  · change ((n &&& (2 ^ 8 - 1) : ℕ) : ℤ) = ((n % 2 ^ 8 : ℕ) : ℤ)
    rw [Nat.and_two_pow_sub_one_eq_mod]
  · change decide (((n &&& 2 ^ 14 : ℕ) : ℤ) ≠ 0) = n.testBit 14
    rw [Nat.and_two_pow]
    cases n.testBit 14 <;> rfl

theorem decode_2d (x y status : ℤ) : Point.decode [x, y, status] = .error .indexError := rfl

theorem decode_3d (x y z : ℤ) {status : ℤ} (h : H.InRange status) :
    ∃ p, Point.decode [x, y, z, status] = .ok p ∧ p.Shows FORMAT_3D [x, y, z, status] := by
  obtain ⟨hcolor, hblanking⟩ := status_bits h
  exact ⟨_, rfl, x, y, status, rfl, rfl, hcolor, hblanking, Or.inr ⟨rfl, z, rfl, rfl⟩⟩

theorem item_3d {item : List ℤ} (hitem : List.Forall₂ Code.InRange [h, h, h, H] item) :
    ∃ x y z status, item = [x, y, z, status] ∧ H.InRange status := by
  obtain _ | ⟨-, _ | ⟨-, _ | ⟨-, _ | ⟨hstatus, ⟨⟩⟩⟩⟩⟩ := hitem
  exact ⟨_, _, _, _, rfl, hstatus⟩

theorem item_2d {item : List ℤ} (hitem : List.Forall₂ Code.InRange [h, h, H] item) :
    ∃ x y status, item = [x, y, status] := by
  obtain _ | ⟨-, _ | ⟨-, _ | ⟨-, ⟨⟩⟩⟩⟩ := hitem
  exact ⟨_, _, _, rfl⟩

theorem shown_iff {t : Table} (ht : t.IsFrame) : t.Shown ↔ t.format = FORMAT_3D ∨ t.items = [] := by
  rcases ht.format with hformat | hformat
  · apply iff_of_true _ (Or.inl hformat)
    apply Lists.exists_mapM
    intro item hitem
    have hrange := ht.items [h, h, h, H] (by rw [Table.getItemFormat, hformat]; rfl) item hitem
    obtain ⟨x, y, z, status, rfl, hstatus⟩ := item_3d hrange
    rw [hformat]
    exact decode_3d x y z hstatus
  · have hne : t.format ≠ FORMAT_3D := by
      rw [hformat]
      decide
    rw [or_iff_right hne]
    constructor
    · rintro ⟨points, hpoints, -⟩
      rw [List.eq_nil_iff_forall_not_mem]
      intro item hitem
      have hrange := ht.items [h, h, H] (by rw [Table.getItemFormat, hformat]; rfl) item hitem
      obtain ⟨x, y, status, rfl⟩ := item_2d hrange
      obtain ⟨p, -, hp⟩ := Lists.mem_mapM hpoints hitem
      rw [decode_2d] at hp
      cases hp
    · intro hnil
      rw [Table.Shown, Table.iterPoints, hnil]
      exact ⟨[], rfl, .nil⟩

end Points

/-- A file is read back as it was written; the points of a frame are given exactly if it is of
three dimensions or has none. -/
theorem files_round_trip {tables : List Table} (htables : ∀ t ∈ tables, t.Valid) {t : Table}
    (ht : t.IsFrame) :
    (∃ data, write tables = .ok data ∧ ∀ rest, read (data ++ rest) = (tables, .ok rest)) ∧
      (t.Shown ↔ t.format = FORMAT_3D ∨ t.items = []) :=
  ⟨read_write htables, shown_iff ht⟩

def origin : Table where
  format := FORMAT_3D
  name := List.replicate 16 0
  length := 1
  items := [[0, 0, 0, 0]]

theorem origin_items (fmt : List Code) (hfmt : origin.getItemFormat = .ok fmt) :
    ∀ item ∈ origin.items, List.Forall₂ Code.InRange fmt item := by
  cases hfmt
  intro item hitem
  rw [List.mem_singleton.mp hitem]
  exact .cons (by decide) (.cons (by decide) (.cons (by decide) (.cons (by decide) .nil)))

theorem files_round_trip_origin :
    (∃ data, write [origin] = .ok data ∧ ∀ rest, read (data ++ rest) = ([origin], .ok rest)) ∧
      (origin.Shown ↔ origin.format = FORMAT_3D ∨ origin.items = []) := by
  apply files_round_trip
  · intro t ht
    rw [List.mem_singleton.mp ht]
    exact ⟨Or.inl rfl, rfl, rfl, by decide,
      ⟨by decide, by decide, by decide, by decide, by decide⟩, origin_items⟩
  · exact ⟨Or.inl rfl, origin_items⟩

theorem points_missing : ¬ ∀ t : Table, t.IsFrame → t.Shown := by
  intro h
  let t : Table := { format := FORMAT_2D, length := 1, items := [[0, 0, 0]] }
  have ht : t.IsFrame := by
    refine ⟨Or.inr rfl, ?_⟩
    rintro _ ⟨⟩ item hitem
    rw [List.mem_singleton.mp hitem]
    exact .cons (by decide) (.cons (by decide) (.cons (by decide) .nil))
  obtain ⟨points, hpoints, -⟩ := h t ht
  cases hpoints

end NaviMisc.LaserProp.Ilda
