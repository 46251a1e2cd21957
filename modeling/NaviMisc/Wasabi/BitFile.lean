import NaviMisc.Lib.ByteOrder
import Mathlib.Data.List.Nodup
import Mathlib.Data.List.Perm.Subperm
import Mathlib.Data.List.TakeWhile

/-!
Xilinx bit files (wasabi/devices/unicone/src/bit_file.c).
-/

namespace NaviMisc.Wasabi.Unicone

abbrev Byte := BitVec 8

inductive Field
  | ncd_filename
  | part_number
  | date
  | time
  deriving DecidableEq

/-- Which sizes `malloc` has memory for. -/
structure Heap where
  malloc : ℕ → Bool
  malloc_large : ∀ size, 2 ^ 63 ≤ size → malloc size = false

structure Bitfile where
  file : Option (List Byte)
  string : Field → Option (List Byte)
  length : ℤ
  data : Option (List Byte)

/-- `fread` of one item of a size, with what is left of the file. -/
def fread (size : ℕ) (file : List Byte) : Option (List Byte) × List Byte :=
  if size = 0 then (none, file)
  else if size ≤ file.length then (some (file.take size), file.drop size)
  else (none, [])

def readInt : ℕ → BitVec 32 → List Byte → ℤ × List Byte
  | 0, word, file => (word.toInt, file)
  | _ + 1, _, [] => (-1, [])
  | bytes + 1, word, byte :: file => readInt bytes (word <<< 8 ||| byte.setWidth 32) file

def bitfile_read_int (bytes : ℕ) (file : List Byte) : ℤ × List Byte := readInt bytes 0 file

section Reading

variable (heap : Heap)

def bitfile_read_string (file : List Byte) : Option (List Byte) × List Byte :=
  let (length, file) := bitfile_read_int 2 file
  if length < 0 then (none, file)
  else if heap.malloc (length.toNat + 1) then fread length.toNat file
  else (none, file)

def Bitfile.set (self : Bitfile) (field : Field) (string : Option (List Byte)) : Bitfile :=
  { self with string := Function.update self.string field string }

def readField (field : Field) (self : Bitfile) (file : List Byte) : Bitfile × List Byte × Bool :=
  let (string, file) := bitfile_read_string heap file
  (self.set field string, file, false)

def bitfile_handle_hdr_field (type : Byte) (self : Bitfile) (file : List Byte) :
    Bitfile × List Byte × Bool :=
  if type = 0x61 then readField heap .ncd_filename self file
  else if type = 0x62 then readField heap .part_number self file
  else if type = 0x63 then readField heap .date self file
  else if type = 0x64 then readField heap .time self file
  else if type = 0x65 then
    let (length, file) := bitfile_read_int 4 file
    ({ self with length }, file, true)
  else (self, file, false)

def headerLoop : ℕ → BitVec 32 → Bitfile → List Byte → Option (BitVec 32 × Bitfile × List Byte)
  | 0, _, _, _ => none
  | _ + 1, n_fields, self, [] => some (n_fields, self, [])
  | fuel + 1, n_fields, self, code :: file =>
    let (self, file, last) := bitfile_handle_hdr_field heap code self file
    if last then some (n_fields + 1, self, file)
    else headerLoop fuel (n_fields + 1) self file

def ref_magic : List Byte :=
  [0x00, 0x09, 0x0F, 0xF0, 0x0F, 0xF0, 0x0F, 0xF0, 0x0F, 0xF0, 0x00, 0x00, 0x01]

def bitfile_read_header (self : Bitfile) (file : List Byte) : Option (ℤ × Bitfile × List Byte) :=
  match fread ref_magic.length file with
  | (none, file) => some (-1, self, file)
  | (some file_magic, file) =>
    if file_magic ≠ ref_magic then some (-1, self, file)
    else do
      let (n_fields, self, file) ← headerLoop heap (file.length + 1) 0#32 self file
      return (n_fields.toInt, self, file)

def zeroed : Bitfile := ⟨none, fun _ => none, 0, none⟩

/-- A bit file, or NULL. -/
def bitfile_new_from_file (file : List Byte) : Option (Option Bitfile) := do
  if heap.malloc 56 then
    let (n_fields, self, file) ← bitfile_read_header heap zeroed file
    return if n_fields < 0 then none else some { self with file := some file }
  else return none

def size_t (z : ℤ) : ℕ := (z % 2 ^ 64).toNat

def bitfile_read_content (self : Bitfile) : Bitfile × ℤ :=
  if self.data.isSome then (self, -1)
  else
    match self.file with
    | none => (self, -1)
    | some file =>
      if heap.malloc (size_t self.length) then
        match fread (size_t self.length) file with
        -- What the data are then does not matter.
        | (none, file) => ({ self with data := some [], file := some file }, -1)
        | (some data, _) => ({ self with data := some data, file := none }, self.length)
      else (self, -1)

end Reading

open Lib.ByteOrder (bytes)

def Field.code : Field → Byte
  | .ncd_filename => 0x61
  | .part_number => 0x62
  | .date => 0x63
  | .time => 0x64

structure BitSource where
  order : List Field
  nodup : order.Nodup
  mem_order : ∀ field, field ∈ order
  string : Field → List Byte
  string_lt : ∀ field, (string field).length < 2 ^ 16
  content : List Byte
  content_pos : 0 < content.length
  content_lt : content.length < 2 ^ 31

namespace BitSource

variable (source : BitSource)

def field (field : Field) : List Byte :=
  field.code :: (bytes 2 (source.string field).length).reverse ++ source.string field

def tail : List Byte :=
  0x65 :: (bytes 4 source.content.length).reverse ++ source.content

def encode : List Byte := ref_magic ++ (source.order.flatMap source.field ++ source.tail)

def ends (fields : List Field) (field : Field) : ℕ :=
  ((fields.takeWhile (· ≠ field)).flatMap source.field).length + (source.field field).length

theorem length_field (field : Field) :
    (source.field field).length = 3 + (source.string field).length := by
  rw [BitSource.field, List.length_append, List.length_cons, List.length_reverse,
    Lib.ByteOrder.length_bytes, Nat.add_comm 2 1]

theorem length_tail : source.tail.length = 5 + source.content.length := by
  rw [tail, List.length_append, List.length_cons, List.length_reverse,
    Lib.ByteOrder.length_bytes, Nat.add_comm 4 1]

theorem ends_self (fields : List Field) (field : Field) :
    source.ends (field :: fields) field = (source.field field).length := by
  simp [ends]

theorem ends_cons (fields : List Field) {field first : Field} (h : first ≠ field) :
    source.ends (first :: fields) field =
      (source.field first).length + source.ends fields field := by
  simp [ends, h, Nat.add_assoc]

theorem ends_le {fields : List Field} {field : Field} (h : field ∈ fields) :
    source.ends fields field ≤ (fields.flatMap source.field).length := by
  induction fields with
  | nil => cases h
  | cons first fields ih =>
    rw [List.flatMap_cons, List.length_append]
    by_cases hfirst : first = field
    · rw [hfirst, source.ends_self]
      exact Nat.le_add_right _ _
    · rw [source.ends_cons fields hfirst]
      exact Nat.add_le_add_left (ih (List.mem_of_ne_of_mem (Ne.symm hfirst) h)) _

end BitSource

section Integers

def shiftIn (b : Byte) (word : BitVec 32) : BitVec 32 := word <<< 8 ||| b.setWidth 32

theorem toNat_shiftIn (b : Byte) {word : BitVec 32} (h : word.toNat < 2 ^ 24) :
    (shiftIn b word).toNat = 256 * word.toNat + b.toNat := by
  have hb := b.isLt
  rw [shiftIn, BitVec.toNat_or, BitVec.toNat_shiftLeft, BitVec.toNat_setWidth,
    Nat.mod_eq_of_lt (by rw [Nat.shiftLeft_eq]; omega), Nat.mod_eq_of_lt (by omega),
    ← Nat.shiftLeft_add_eq_or_of_lt hb, Nat.shiftLeft_eq]
  omega

theorem readInt_append (l rest : List Byte) (word : BitVec 32) :
    readInt l.length word (l ++ rest) = ((l.reverse.foldr shiftIn word).toInt, rest) := by
  induction l generalizing word with
  | nil => rfl
  | cons b l ih =>
    rw [List.length_cons, List.cons_append, readInt, List.reverse_cons, List.foldr_append]
    exact ih _

theorem readInt_short {k : ℕ} {file : List Byte} (h : file.length < k) (word : BitVec 32) :
    readInt k word file = (-1, []) := by
  induction k generalizing file word with
  | zero => exact absurd h (Nat.not_lt_zero _)
  | succ k ih =>
    cases file with
    | nil => rfl
    | cons b file => exact ih (Nat.lt_of_succ_lt_succ h) _

theorem toNat_foldr_bytes {k n : ℕ} (hn : n < 256 ^ k) (h : n < 2 ^ 32) :
    ((bytes k n).foldr shiftIn 0).toNat = n := by
  induction k generalizing n with
  | zero =>
    obtain rfl := Nat.lt_one_iff.mp hn
    rfl
  | succ k ih =>
    have hhigh := ih (n := n / 256) (Nat.div_lt_of_lt_mul (by rwa [← Nat.pow_succ'])) (by omega)
    rw [bytes, List.foldr_cons, toNat_shiftIn _ (by omega), hhigh, BitVec.toNat_ofNat]
    omega

theorem bitfile_read_int_bytes {k n : ℕ} (hn : n < 256 ^ k) (h : n < 2 ^ 31) (rest : List Byte) :
    bitfile_read_int k ((bytes k n).reverse ++ rest) = ((n : ℤ), rest) := by
  have hread := readInt_append (bytes k n).reverse rest 0
  rw [List.length_reverse, Lib.ByteOrder.length_bytes, List.reverse_reverse] at hread
  have hvalue := toNat_foldr_bytes hn (by omega : n < 2 ^ 32)
  rw [bitfile_read_int, hread, BitVec.toInt_eq_toNat_of_lt (by omega), hvalue]

end Integers

def Heap.Ample (heap : Heap) : Prop := ∀ size, 0 < size → size < 2 ^ 31 → heap.malloc size = true

section Header

variable {heap : Heap} {source : BitSource} {self : Bitfile} {n : BitVec 32} {fuel m : ℕ}

def BitSource.loaded (source : BitSource) (field : Field) : Option (List Byte) :=
  if source.string field = [] then none else some (source.string field)

theorem fread_append {item : List Byte} (h : item ≠ []) (rest : List Byte) :
    fread item.length (item ++ rest) = (some item, rest) := by
  rw [fread, if_neg (List.length_eq_zero_iff.not.mpr h), if_pos (by simp), List.take_left,
    List.drop_left]

theorem fread_short {size : ℕ} {file : List Byte} (h : file.length < size) :
    fread size file = (none, []) := by
  rw [fread, if_neg (by omega), if_neg (by omega)]

theorem read_string_whole (hheap : heap.Ample) (source : BitSource) (field : Field)
    (rest : List Byte) : bitfile_read_string heap
      ((bytes 2 (source.string field).length).reverse ++ (source.string field ++ rest)) =
        (source.loaded field, rest) := by
  have hlt := source.string_lt field
  rw [bitfile_read_string, bitfile_read_int_bytes (by omega) (by omega)]
  dsimp only
  rw [if_neg (by omega), Int.toNat_natCast, if_pos (hheap _ (by omega) (by omega)), BitSource.loaded]
  split_ifs with hempty
  · rw [hempty]
    rfl
  · exact fread_append hempty rest

theorem read_string_cut (hheap : heap.Ample) (source : BitSource) (field : Field)
    (hm : m < 2 + (source.string field).length) : bitfile_read_string heap
      (((bytes 2 (source.string field).length).reverse ++ source.string field).take m) =
        (none, []) := by
  have hlt := source.string_lt field
  have hlength : (bytes 2 (source.string field).length).reverse.length = 2 := by
    rw [List.length_reverse, Lib.ByteOrder.length_bytes]
  rw [bitfile_read_string]
  rcases Nat.lt_or_ge m 2 with hshort | hlong
  · rw [bitfile_read_int, readInt_short (by rw [List.length_take]; omega)]
    rfl
  · rw [List.take_append, List.take_of_length_le (by omega), hlength,
      bitfile_read_int_bytes (by omega) (by omega)]
    dsimp only
    rw [if_neg (by omega), Int.toNat_natCast, if_pos (hheap _ (by omega) (by omega)),
      fread_short (by rw [List.length_take]; omega)]

theorem handle_hdr_field_code (field : Field) (self : Bitfile) (file : List Byte) :
    bitfile_handle_hdr_field heap field.code self file = readField heap field self file := by
  cases field <;> rfl

theorem headerLoop_field (hheap : heap.Ample) (field : Field) (rest : List Byte) :
    headerLoop heap (fuel + 1) n self (source.field field ++ rest) =
      headerLoop heap fuel (n + 1) (self.set field (source.loaded field)) rest := by
  rw [BitSource.field, List.append_assoc, List.cons_append, headerLoop, handle_hdr_field_code,
    readField, read_string_whole hheap]
  rfl

theorem headerLoop_field_cut (hheap : heap.Ample) (field : Field) (rest : List Byte) (hm₀ : 0 < m)
    (hm : m < (source.field field).length) :
    headerLoop heap (fuel + 2) n self ((source.field field ++ rest).take m) =
      some (n + 1, self.set field none, []) := by
  obtain ⟨m, rfl⟩ := Nat.exists_eq_succ_of_ne_zero (Nat.ne_of_gt hm₀)
  rw [BitSource.length_field] at hm
  rw [List.take_append_of_le_length (by rw [BitSource.length_field]; omega), BitSource.field,
    List.cons_append, List.take_succ_cons, headerLoop, handle_hdr_field_code, readField,
    read_string_cut hheap source field (by omega)]
  rfl

theorem headerLoop_tail (t : ℕ) : headerLoop heap (fuel + 1) n self (source.tail.take t) =
    if t = 0 then some (n, self, [])
    else if t < 5 then some (n + 1, { self with length := -1 }, [])
    else some (n + 1, { self with length := source.content.length },
      source.content.take (t - 5)) := by
  have hlength : (bytes 4 source.content.length).reverse.length = 4 := by
    rw [List.length_reverse, Lib.ByteOrder.length_bytes]
  have hlt := source.content_lt
  cases t with
  | zero => rfl
  | succ t =>
    have hcode : ∀ file : List Byte, headerLoop heap (fuel + 1) n self (0x65 :: file) =
        some (n + 1, { self with length := (bitfile_read_int 4 file).1 },
          (bitfile_read_int 4 file).2) := fun _ => rfl
    rw [BitSource.tail, List.cons_append, List.take_succ_cons, hcode, if_neg (Nat.succ_ne_zero t)]
    rcases Nat.lt_or_ge t 4 with hshort | hlong
    · rw [if_pos (by omega), bitfile_read_int, readInt_short (by rw [List.length_take]; omega)]
    · have hrest : t - 4 = t + 1 - 5 := by omega
      rw [if_neg (by omega), List.take_append, List.take_of_length_le (by omega), hlength,
        bitfile_read_int_bytes (by omega) (by omega), hrest]

structure CutHeader (source : BitSource) (fields : List Field) (m : ℕ) (before after : Bitfile)
    (file : List Byte) : Prop where
  string : ∀ field ∈ fields,
    after.string field = if source.ends fields field ≤ m then source.loaded field else none
  string_other : ∀ field, field ∉ fields → after.string field = before.string field
  data : after.data = before.data
  whole : (fields.flatMap source.field).length + 5 ≤ m → after.length = source.content.length ∧
    file = source.content.take (m - ((fields.flatMap source.field).length + 5))
  cut : m < (fields.flatMap source.field).length + 5 →
    (after.length = before.length ∨ after.length = -1) ∧ file = []

theorem length_field_le_ends (source : BitSource) (first : Field) (fields : List Field)
    (field : Field) : (source.field first).length ≤ source.ends (first :: fields) field := by
  by_cases h : first = field
  · rw [h, source.ends_self]
  · rw [source.ends_cons fields h]
    exact Nat.le_add_right _ _

theorem set_none_string {first : Field} {fields : List Field}
    (hnone : ∀ field ∈ first :: fields, self.string field = none) (field : Field)
    (h : field ∈ first :: fields) : (self.set first none).string field = none := by
  by_cases hfirst : field = first
  · rw [hfirst]
    exact Function.update_self _ _ _
  · exact (Function.update_of_ne hfirst _ _).trans (hnone field h)

theorem CutHeader.of_lt {first : Field} {fields : List Field} {after : Bitfile}
    (hm : m < (source.field first).length) (hdata : after.data = self.data)
    (hlength : after.length = self.length)
    (hnone : ∀ field ∈ first :: fields, after.string field = none)
    (hother : ∀ field, field ∉ first :: fields → after.string field = self.string field) :
    CutHeader source (first :: fields) m self after [] where
  string field h := by
    have hends := length_field_le_ends source first fields field
    rw [hnone field h, if_neg (by omega)]
  string_other := hother
  data := hdata
  whole h := by
    rw [List.flatMap_cons, List.length_append] at h
    omega
  cut _ := ⟨.inl hlength, rfl⟩

theorem CutHeader.cons {first : Field} {fields : List Field} {after : Bitfile} {file : List Byte}
    (hfirst : first ∉ fields) (hm : (source.field first).length ≤ m)
    (h : CutHeader source fields (m - (source.field first).length)
      (self.set first (source.loaded first)) after file) :
    CutHeader source (first :: fields) m self after file where
  string field hfield := by
    rcases List.mem_cons.mp hfield with rfl | hrest
    · rw [h.string_other field hfirst, source.ends_self, if_pos hm]
      exact Function.update_self _ _ _
    · have hne : first ≠ field := fun heq => hfirst (heq ▸ hrest)
      rw [h.string field hrest, source.ends_cons fields hne]
      congr 1
      rw [eq_iff_iff]
      omega
  string_other field hfield := by
    obtain ⟨hne, hrest⟩ := not_or.mp (List.mem_cons.not.mp hfield)
    exact (h.string_other field hrest).trans (Function.update_of_ne hne _ _)
  data := h.data
  whole hwhole := by
    rw [List.flatMap_cons, List.length_append] at hwhole ⊢
    obtain ⟨hlength, hfile⟩ := h.whole (by omega)
    refine ⟨hlength, hfile.trans (congrArg source.content.take ?_)⟩
    omega
  cut hcut := by
    rw [List.flatMap_cons, List.length_append] at hcut
    exact h.cut (by omega)

theorem headerLoop_cut (hheap : heap.Ample) {fields : List Field} (hnodup : fields.Nodup)
    (hnone : ∀ field ∈ fields, self.string field = none)
    (hfuel : ((fields.flatMap source.field ++ source.tail).take m).length < fuel) :
    ∃ k after file, k ≤ fields.length + 1 ∧ headerLoop heap fuel n self
      ((fields.flatMap source.field ++ source.tail).take m) =
        some (n + BitVec.ofNat 32 k, after, file) ∧
      CutHeader source fields m self after file := by
  induction fields generalizing self n fuel m with
  | nil =>
    obtain ⟨fuel, rfl⟩ := Nat.exists_eq_succ_of_ne_zero (by omega : fuel ≠ 0)
    rw [List.flatMap_nil, List.nil_append, headerLoop_tail]
    split_ifs with hzero hcut
    · refine ⟨0, self, [], Nat.zero_le _, by rw [BitVec.add_zero], ?_⟩
      exact ⟨nofun, fun _ _ => rfl, rfl, fun h => by simp at h; omega, fun _ => ⟨.inl rfl, rfl⟩⟩
    · refine ⟨1, _, [], Nat.le_refl 1, rfl, ?_⟩
      exact ⟨nofun, fun _ _ => rfl, rfl, fun h => by simp at h; omega, fun _ => ⟨.inr rfl, rfl⟩⟩
    · refine ⟨1, _, _, Nat.le_refl 1, rfl, ?_⟩
      exact ⟨nofun, fun _ _ => rfl, rfl, fun _ => ⟨rfl, by simp⟩, fun h => by simp at h; omega⟩
  | cons first fields ih =>
    obtain ⟨fuel, rfl⟩ := Nat.exists_eq_succ_of_ne_zero (by omega : fuel ≠ 0)
    obtain ⟨hfirst, hnodup⟩ := List.nodup_cons.mp hnodup
    have hlength := source.length_field first
    rw [List.flatMap_cons, List.append_assoc] at hfuel ⊢
    rcases Nat.eq_zero_or_pos m with rfl | hpos
    · refine ⟨0, self, [], Nat.zero_le _, by rw [BitVec.add_zero]; rfl, ?_⟩
      exact .of_lt (by omega) rfl rfl hnone fun _ _ => rfl
    rcases Nat.lt_or_ge m (source.field first).length with hcut | hwhole
    · obtain ⟨fuel, rfl⟩ := Nat.exists_eq_succ_of_ne_zero (n := fuel) (by
        rw [List.length_take, List.length_append] at hfuel
        omega)
      refine ⟨1, self.set first none, [], by omega, headerLoop_field_cut hheap first _ hpos hcut, ?_⟩
      refine .of_lt hcut rfl rfl (set_none_string hnone) fun field hfield => ?_
      exact Function.update_of_ne (List.ne_of_not_mem_cons hfield) _ _
    · rw [List.take_append, List.take_of_length_le hwhole] at hfuel ⊢
      rw [List.length_append] at hfuel
      have hnone' : ∀ field ∈ fields,
          (self.set first (source.loaded first)).string field = none := by
        intro field hfield
        have hne : field ≠ first := fun heq => hfirst (heq ▸ hfield)
        exact (Function.update_of_ne hne _ _).trans (hnone field (List.mem_cons_of_mem _ hfield))
      have hrest : ((fields.flatMap source.field ++ source.tail).take
          (m - (source.field first).length)).length < fuel := by omega
      obtain ⟨k, after, file, hk, hloop, hheader⟩ := ih (n := n + 1) hnodup hnone' hrest
      refine ⟨1 + k, after, file, ?_, ?_, hheader.cons hfirst hwhole⟩
      · rw [List.length_cons]
        omega
      · rw [headerLoop_field hheap, hloop, BitVec.ofNat_add, BitVec.add_assoc]
        rfl

end Header

section Totality

variable (heap : Heap)

theorem length_readInt (k : ℕ) (word : BitVec 32) (file : List Byte) :
    (readInt k word file).2.length ≤ file.length := by
  induction k generalizing word file with
  | zero => exact Nat.le_refl _
  | succ k ih =>
    cases file with
    | nil => exact Nat.le_refl 0
    | cons b file => exact Nat.le_succ_of_le (ih _ file)

theorem length_fread (size : ℕ) (file : List Byte) :
    (fread size file).2.length ≤ file.length := by
  rw [fread]
  split_ifs
  · exact Nat.le_refl _
  · rw [List.length_drop]
    exact Nat.sub_le _ _
  · exact Nat.zero_le _

theorem length_of_fread {size : ℕ} {file item rest : List Byte}
    (h : fread size file = (some item, rest)) : item.length = size := by
  rw [fread] at h
  split_ifs at h with hzero hsize
  · cases h
  · cases h
    rw [List.length_take, Nat.min_eq_left hsize]
  · cases h

theorem length_readField (field : Field) (self : Bitfile) (file : List Byte) :
    (readField heap field self file).2.1.length ≤ file.length := by
  have hint := length_readInt 2 0 file
  rw [readField, bitfile_read_string]
  dsimp only
  split_ifs
  · exact hint
  · exact Nat.le_trans (length_fread _ _) hint
  · exact hint

theorem length_handle_hdr_field (type : Byte) (self : Bitfile) (file : List Byte) :
    (bitfile_handle_hdr_field heap type self file).2.1.length ≤ file.length := by
  rw [bitfile_handle_hdr_field]
  split_ifs
  · exact length_readField heap _ self file
  · exact length_readField heap _ self file
  · exact length_readField heap _ self file
  · exact length_readField heap _ self file
  · exact length_readInt 4 0 file
  · exact Nat.le_refl _

theorem exists_headerLoop {fuel : ℕ} {file : List Byte} (hfuel : file.length < fuel)
    (n : BitVec 32) (self : Bitfile) : ∃ r, headerLoop heap fuel n self file = some r := by
  induction fuel generalizing n self file with
  | zero => omega
  | succ fuel ih =>
    cases file with
    | nil => exact ⟨_, rfl⟩
    | cons code file =>
      have hrest := length_handle_hdr_field heap code self file
      rw [headerLoop]
      dsimp only
      split_ifs
      · exact ⟨_, rfl⟩
      · exact ih (Nat.lt_of_le_of_lt hrest (Nat.lt_of_succ_lt_succ hfuel)) _ _

theorem exists_new_from_file (file : List Byte) :
    ∃ bf, bitfile_new_from_file heap file = some bf := by
  rw [bitfile_new_from_file]
  split_ifs
  · rw [bitfile_read_header]
    obtain ⟨r, hloop⟩ := exists_headerLoop heap
      (Nat.lt_succ_self (fread ref_magic.length file).2.length) 0#32 zeroed
    rcases hread : fread ref_magic.length file with ⟨_ | file_magic, rest⟩
    · exact ⟨_, rfl⟩
    · rw [hread] at hloop
      dsimp only at hloop ⊢
      split_ifs
      · exact ⟨_, rfl⟩
      · rw [hloop]
        exact ⟨_, rfl⟩
  · exact ⟨none, rfl⟩

theorem readInt_lt (k : ℕ) (word : BitVec 32) (file : List Byte) :
    (readInt k word file).1 < 2 ^ 31 := by
  induction k generalizing word file with
  | zero => exact BitVec.toInt_lt
  | succ k ih =>
    cases file with
    | nil => exact (by decide : (-1 : ℤ) < 2 ^ 31)
    | cons b file => exact ih _ file

theorem handle_hdr_field_length_lt (type : Byte) {self : Bitfile} (h : self.length < 2 ^ 31)
    (file : List Byte) : (bitfile_handle_hdr_field heap type self file).1.length < 2 ^ 31 := by
  rw [bitfile_handle_hdr_field]
  split_ifs
  · exact h
  · exact h
  · exact h
  · exact h
  · exact readInt_lt 4 0 file
  · exact h

theorem headerLoop_length_lt {fuel : ℕ} {n n' : BitVec 32} {self self' : Bitfile}
    {file file' : List Byte} (h : self.length < 2 ^ 31)
    (hloop : headerLoop heap fuel n self file = some (n', self', file')) :
    self'.length < 2 ^ 31 := by
  induction fuel generalizing n self file with
  | zero => cases hloop
  | succ fuel ih =>
    cases file with
    | nil =>
      cases hloop
      exact h
    | cons code file =>
      have hhandle := handle_hdr_field_length_lt heap code h file
      rw [headerLoop] at hloop
      dsimp only at hloop
      split_ifs at hloop
      · cases hloop
        exact hhandle
      · exact ih hhandle hloop

theorem new_from_file_length_lt {file : List Byte} {bf : Bitfile}
    (h : bitfile_new_from_file heap file = some (some bf)) : bf.length < 2 ^ 31 := by
  rw [bitfile_new_from_file] at h
  split_ifs at h
  · rw [bitfile_read_header] at h
    rcases hread : fread ref_magic.length file with ⟨_ | file_magic, rest⟩ <;> rw [hread] at h
    · cases h
    dsimp only at h
    split_ifs at h
    · cases h
    · obtain ⟨⟨n, self, rest'⟩, hloop⟩ := exists_headerLoop heap (Nat.lt_succ_self rest.length)
        0#32 zeroed
      rw [hloop] at h
      simp only [Option.bind_eq_bind, Option.bind_some, Option.pure_def, Option.some.injEq] at h
      split_ifs at h
      have hlt := headerLoop_length_lt heap (by decide : zeroed.length < 2 ^ 31) hloop
      cases h
      exact hlt
  · cases h

end Totality

section Content

variable {heap : Heap} {source : BitSource} {n : ℕ}

theorem BitSource.length_order (source : BitSource) : source.order.length ≤ 4 := by
  have hsubset : source.order ⊆ [.ncd_filename, .part_number, .date, .time] := by
    intro field _
    cases field <;> decide
  exact (List.subperm_of_subset source.nodup hsubset).length_le

theorem BitSource.length_encode (source : BitSource) : source.encode.length =
    13 + ((source.order.flatMap source.field).length + 5 + source.content.length) := by
  rw [BitSource.encode, List.length_append, List.length_append, source.length_tail, Nat.add_assoc]
  rfl

theorem new_from_file_of_lt (hheap : heap.Ample) (source : BitSource) (hn : n < 13) :
    bitfile_new_from_file heap (source.encode.take n) = some none := by
  have hshort : (source.encode.take n).length < ref_magic.length := by
    rw [List.length_take]
    exact Nat.lt_of_le_of_lt (Nat.min_le_left _ _) hn
  rw [bitfile_new_from_file, if_pos (hheap 56 (by decide) (by decide)), bitfile_read_header,
    fread_short hshort]
  rfl

theorem new_from_file_of_le (hheap : heap.Ample) (source : BitSource) (hn : 13 ≤ n) :
    ∃ self file, bitfile_new_from_file heap (source.encode.take n) =
      some (some { self with file := some file }) ∧
        CutHeader source source.order (n - 13) zeroed self file := by
  have hlength : ref_magic.length = 13 := rfl
  have htake : source.encode.take n = ref_magic ++
      (source.order.flatMap source.field ++ source.tail).take (n - 13) := by
    rw [BitSource.encode, List.take_append, List.take_of_length_le (by omega), hlength]
  obtain ⟨k, self, file, hk, hloop, hheader⟩ := headerLoop_cut (n := 0#32) hheap source.nodup
    (fun _ _ => rfl : ∀ field ∈ source.order, zeroed.string field = none) (Nat.lt_succ_self _)
  refine ⟨self, file, ?_, hheader⟩
  have horder := source.length_order
  rw [BitVec.zero_add] at hloop
  have hcount : ¬(BitVec.ofNat 32 k).toInt < 0 := by
    have hk32 : (BitVec.ofNat 32 k).toNat = k := by
      rw [BitVec.toNat_ofNat]
      omega
    rw [BitVec.toInt_eq_toNat_of_lt (by omega)]
    omega
  rw [bitfile_new_from_file, if_pos (hheap 56 (by decide) (by decide)), bitfile_read_header, htake,
    fread_append (by decide)]
  dsimp only
  rw [if_neg (not_not.mpr rfl), hloop]
  simp only [Option.bind_eq_bind, Option.bind_some, Option.pure_def, if_neg hcount]

theorem size_t_natCast {length : ℕ} (h : length < 2 ^ 31) : size_t length = length := by
  rw [size_t]
  omega

theorem read_content_ok {self after : Bitfile} {retval : ℤ} (hlt : self.length < 2 ^ 31)
    (h : bitfile_read_content heap self = (after, retval)) (hretval : ¬retval < 0) :
    ∃ data, after.data = some data ∧ after.length = data.length ∧ data.length < 2 ^ 31 := by
  have hfail : retval ≠ -1 := by omega
  rw [bitfile_read_content] at h
  rcases hfile : self.file with _ | file <;> rw [hfile] at h <;> dsimp only at h
  · split_ifs at h
    · exact absurd (congrArg Prod.snd h).symm hfail
    · exact absurd (congrArg Prod.snd h).symm hfail
  split_ifs at h
  · exact absurd (congrArg Prod.snd h).symm hfail
  · rcases hread : fread (size_t self.length) file with ⟨_ | data, rest⟩ <;> rw [hread] at h
    · exact absurd (congrArg Prod.snd h).symm hfail
    · have hlength := length_of_fread hread
      rw [size_t] at hlength
      obtain ⟨rfl, rfl⟩ := Prod.mk.inj h
      exact ⟨data, rfl, by dsimp only; omega, by omega⟩
  · exact absurd (congrArg Prod.snd h).symm hfail

theorem read_content_whole (hheap : heap.Ample) {self : Bitfile} {file : List Byte}
    (h : CutHeader source source.order (source.encode.length - 13) zeroed self file) :
    bitfile_read_content heap { self with file := some file } =
      ({ self with data := some source.content, file := none }, (source.content.length : ℤ)) := by
  have hpos := source.content_pos
  have hlt := source.content_lt
  have hencode := source.length_encode
  obtain ⟨hlength, hfile⟩ := h.whole (by omega)
  have hdata : self.data = none := h.data
  rw [List.take_of_length_le (by omega)] at hfile
  rw [bitfile_read_content, hdata, hfile, hlength, size_t_natCast hlt]
  dsimp only
  have hread := fread_append (List.ne_nil_of_length_pos hpos) []
  rw [List.append_nil] at hread
  rw [if_neg (by decide), if_pos (hheap _ hpos hlt), hread]

theorem read_content_cut {self : Bitfile} {file : List Byte} (hn : n < source.encode.length)
    (h : CutHeader source source.order (n - 13) zeroed self file) :
    (bitfile_read_content heap { self with file := some file }).2 = -1 := by
  have hencode := source.length_encode
  have hlt := source.content_lt
  have hshort : fread (size_t self.length) file = (none, []) := by
    rcases Nat.lt_or_ge (n - 13) ((source.order.flatMap source.field).length + 5) with hcut | hwhole
    · obtain ⟨hzero | hminus, rfl⟩ := h.cut hcut
      · rw [hzero]
        rfl
      · rw [hminus]
        exact fread_short (by decide)
    · obtain ⟨hlength, rfl⟩ := h.whole hwhole
      rw [hlength, size_t_natCast hlt]
      apply fread_short
      rw [List.length_take]
      omega
  have hdata : self.data = none := h.data
  rw [bitfile_read_content, hdata]
  dsimp only
  rw [if_neg (by decide), hshort]
  split_ifs <;> rfl

end Content

end NaviMisc.Wasabi.Unicone
