import NaviMisc.Lib.Memory

/-!
Partitions of a NAND image as files (nandmount.c). The image and the pad are regular files. A
buffer of the stack has what was there before.
-/

namespace NaviMisc.Nandmount

open NaviMisc.Lib.RandomAccess

abbrev Byte := BitVec 8

abbrev Buffer := ℕ → Byte

def BLOCK_SIZE : ℕ := 512

abbrev NUM_PARTITIONS : ℕ := 4

def BUFFER_SIZE : BitVec 64 := 128 * 1024

structure Partition where
  type : Byte
  lbaFirst : BitVec 32
  lbaSize : BitVec 32

abbrev MBR := Fin NUM_PARTITIONS → Partition

/-- The unsigned comparison that a size takes part in. -/
def minSize (a b : BitVec 64) : BitVec 64 := if a > b then b else a

def pread (file : List Byte) (buf : Buffer) (size offset : BitVec 64) : Option ℕ × Buffer :=
  if offset.msb then (none, buf)
  else
    let bytes := readAt file offset.toNat size.toNat
    (some bytes.length, fun k => bytes[k]?.getD (buf k))

/-- The system takes the bytes that it has room for, or fails. -/
def pwrite (room : Option ℕ) (file : List Byte) (buf : Buffer) (size offset : BitVec 64) :
    Option ℕ × List Byte :=
  if offset.msb then (none, file)
  else
    match room with
    | none => (none, file)
    | some n =>
      let bytes := (List.range (min n size.toNat)).map buf
      (some bytes.length, writeAt 0 file offset.toNat bytes)

/-- The result of a call: `-1` when it fails. -/
def resultOf (result : Option ℕ) : ℤ := (result.map Int.ofNat).getD (-1)

def blockXor (in1 in2 out : Buffer) (size : ℕ) : Buffer := fun k =>
  if k < size then in1 k ^^^ in2 k else out k

structure System where
  xorFile : List Byte
  nandFile : List Byte
  bufXor : Buffer
  bufNand : Buffer

def xorRead (buffer : Buffer) (size offset : BitVec 64) (s : System) : ℤ × Buffer :=
  let size := minSize size BUFFER_SIZE
  let (result, bufNand) := pread s.nandFile s.bufNand size offset
  let (_, bufXor) := pread s.xorFile s.bufXor size offset
  (resultOf result,
    if resultOf result > 0 then blockXor bufXor bufNand buffer size.toNat else buffer)

def xorWrite (room : Option ℕ) (buffer : Buffer) (size offset : BitVec 64) (s : System) :
    ℤ × List Byte :=
  let size := minSize size BUFFER_SIZE
  let (_, bufXor) := pread s.xorFile s.bufXor size offset
  let bufNand := blockXor bufXor buffer s.bufNand size.toNat
  let (result, nandFile) := pwrite room s.nandFile bufNand size offset
  (resultOf result, nandFile)

def hexByte (b : Byte) : String :=
  String.ofList [Nat.digitChar (b.toNat / 16), Nat.digitChar (b.toNat % 16)]

def formatPartitionPath (mbr : MBR) (index : Fin NUM_PARTITIONS) (absolute : Bool) :
    String × Bool :=
  ((if absolute then "/" else "") ++ "part" ++ toString index.val ++ "_type" ++
    hexByte (mbr index).type, (mbr index).lbaSize != 0)

def findPartition (mbr : MBR) (path : String) : Option (Fin NUM_PARTITIONS) :=
  (List.finRange NUM_PARTITIONS).find? fun i =>
    (formatPartitionPath mbr i true).2 && path == (formatPartitionPath mbr i true).1

def ENOENT : ℤ := 2

def partsize (p : Partition) : BitVec 32 := p.lbaSize * BitVec.ofNat 32 BLOCK_SIZE

def clampedSize (p : Partition) (size offset : BitVec 64) : BitVec 64 :=
  minSize size ((partsize p).setWidth 64 - offset)

def imageOffset (p : Partition) (offset : BitVec 64) : BitVec 64 :=
  offset + (p.lbaFirst * BitVec.ofNat 32 BLOCK_SIZE).setWidth 64

def fsRead (mbr : MBR) (path : String) (buf : Buffer) (size offset : BitVec 64) (s : System) :
    ℤ × Buffer :=
  match findPartition mbr path with
  | some i => xorRead buf (clampedSize (mbr i) size offset) (imageOffset (mbr i) offset) s
  | none => (-ENOENT, buf)

def fsWrite (mbr : MBR) (path : String) (room : Option ℕ) (buf : Buffer) (size offset : BitVec 64)
    (s : System) : ℤ × List Byte :=
  match findPartition mbr path with
  | some i =>
    xorWrite room buf (clampedSize (mbr i) size offset) (imageOffset (mbr i) offset) s
  | none => (-ENOENT, s.nandFile)

end NaviMisc.Nandmount

/-!
Which calls of `fs_read` and `fs_write` keep to their partition, and that what was written is read
back.
-/

namespace NaviMisc.Nandmount

open NaviMisc.Lib.RandomAccess

theorem toList_index :
    ∀ i : Fin NUM_PARTITIONS, (toString i.val).toList = [Nat.digitChar i.val] := by
  decide

theorem digitChar_index : ∀ i j : Fin NUM_PARTITIONS,
    Nat.digitChar i.val = Nat.digitChar j.val → i = j := by
  decide

variable {mbr : MBR} {i : Fin NUM_PARTITIONS} {p : Partition} {a b size offset : BitVec 64}
  {file : List Byte} {buf : Buffer} {room : Option ℕ} {s : System} {k : ℕ}

theorem formatPartitionPath_injective {j : Fin NUM_PARTITIONS}
    (h : (formatPartitionPath mbr i true).1 = (formatPartitionPath mbr j true).1) : i = j := by
  have hchar := congrArg (fun s : String => s.toList[5]?) h
  simp only [formatPartitionPath, if_true, String.toList_append, toList_index] at hchar
  exact digitChar_index i j (by simpa using hchar)

def path (mbr : MBR) (i : Fin NUM_PARTITIONS) : String := (formatPartitionPath mbr i true).1

theorem findPartition_path (h : (mbr i).lbaSize ≠ 0) : findPartition mbr (path mbr i) = some i := by
  have hfind : ∀ i : Fin NUM_PARTITIONS,
      (List.finRange NUM_PARTITIONS).find? (fun j => decide (j = i)) = some i := by
    decide
  rw [findPartition, ← hfind i]
  congr 1
  funext j
  by_cases hj : j = i
  · subst hj
    have hsize : ((mbr j).lbaSize != 0) = true := bne_iff_ne.mpr h
    rw [path, formatPartitionPath, hsize]
    simp
  · have hpath : path mbr i ≠ (formatPartitionPath mbr j true).1 := fun heq =>
      hj (formatPartitionPath_injective heq).symm
    rw [beq_eq_false_iff_ne.mpr hpath, Bool.and_false, decide_eq_false hj]

theorem toNat_minSize (a b : BitVec 64) : (minSize a b).toNat = min a.toNat b.toNat := by
  rw [minSize]
  split_ifs with h
  · rw [gt_iff_lt, BitVec.lt_def] at h
    omega
  · rw [gt_iff_lt, BitVec.lt_def] at h
    omega

/-- The position in the image, before 64 bits overflow, and the bytes that are asked of it. -/
def position (p : Partition) (offset : ℕ) : ℕ := offset + BLOCK_SIZE * p.lbaFirst.toNat % 2 ^ 32

def size32 (p : Partition) : ℕ := BLOCK_SIZE * p.lbaSize.toNat % 2 ^ 32

def count (p : Partition) (size offset : ℕ) : ℕ :=
  min (if offset ≤ size32 p then min size (size32 p - offset) else size) 131072

theorem toNat_count (hoffset : offset.msb = false) :
    (minSize (clampedSize p size offset) BUFFER_SIZE).toNat =
      count p size.toNat offset.toNat := by
  have hlt : offset.toNat < 2 ^ 63 := by
    rw [BitVec.msb_eq_decide, decide_eq_false_iff_not] at hoffset
    omega
  have hpart : (partsize p).toNat = size32 p := by
    rw [partsize, BitVec.toNat_mul, Nat.mul_comm, size32]
    rfl
  have hsmall : size32 p < 2 ^ 32 := Nat.mod_lt _ (by decide)
  have hbuffer : BUFFER_SIZE.toNat = 131072 := rfl
  have hsize := size.isLt
  rw [toNat_minSize, clampedSize, toNat_minSize, BitVec.toNat_sub, BitVec.toNat_setWidth, hpart,
    hbuffer, count]
  split_ifs with h <;> omega

theorem toNat_imageOffset (hoffset : offset.msb = false) :
    (imageOffset p offset).toNat = position p offset.toNat := by
  have hlt : offset.toNat < 2 ^ 63 := by
    rw [BitVec.msb_eq_decide, decide_eq_false_iff_not] at hoffset
    omega
  have hfirst : (p.lbaFirst * BitVec.ofNat 32 BLOCK_SIZE).toNat =
      BLOCK_SIZE * p.lbaFirst.toNat % 2 ^ 32 := by
    rw [BitVec.toNat_mul, Nat.mul_comm]
    rfl
  have hsmall : BLOCK_SIZE * p.lbaFirst.toNat % 2 ^ 32 < 2 ^ 32 := Nat.mod_lt _ (by decide)
  rw [imageOffset, BitVec.toNat_add, BitVec.toNat_setWidth, hfirst, position]
  omega

theorem msb_imageOffset (hoffset : offset.msb = false) :
    (imageOffset p offset).msb = decide (2 ^ 63 ≤ position p offset.toNat) := by
  rw [BitVec.msb_eq_decide, toNat_imageOffset hoffset]

theorem pread_result (h : offset.msb = false) (file : List Byte) (buf : Buffer)
    (size : BitVec 64) : (pread file buf size offset).1 =
      some (min size.toNat (file.length - offset.toNat)) := by
  rw [pread, h]
  simp [readAt]

theorem pread_apply (h : offset.msb = false) (hk : k < size.toNat) :
    (pread file buf size offset).2 k = file[offset.toNat + k]?.getD (buf k) := by
  rw [pread, h]
  simp only [Bool.false_eq_true, if_false]
  rw [getElem?_readAt, if_pos hk]

def Inside (p : Partition) (j : ℕ) : Prop :=
  BLOCK_SIZE * p.lbaFirst.toNat ≤ j ∧ j < BLOCK_SIZE * (p.lbaFirst.toNat + p.lbaSize.toNat)

def WriteIsolated (mbr : MBR) (i : Fin NUM_PARTITIONS) (size offset : BitVec 64) : Prop :=
  ∀ room buf s, ∀ j < s.nandFile.length, ¬Inside (mbr i) j →
    (fsWrite mbr (path mbr i) room buf size offset s).2[j]? = s.nandFile[j]?

def returned (r : ℤ × Buffer) : ℤ × List Byte := (r.1, (List.range r.1.toNat).map r.2)

def ReadIsolated (mbr : MBR) (i : Fin NUM_PARTITIONS) (size offset : BitVec 64) : Prop :=
  ∀ buf s image, image.length = s.nandFile.length →
    (∀ j, Inside (mbr i) j → image[j]? = s.nandFile[j]?) →
      returned (fsRead mbr (path mbr i) buf size offset { s with nandFile := image }) =
        returned (fsRead mbr (path mbr i) buf size offset s)

def ReadBack (mbr : MBR) (i : Fin NUM_PARTITIONS) (size offset : BitVec 64) : Prop :=
  ∀ room buf s buf' bufXor bufNand,
    let w := fsWrite mbr (path mbr i) room buf size offset s
    0 ≤ w.1 → w.2.length ≤ s.xorFile.length →
      let r := fsRead mbr (path mbr i) buf' (BitVec.ofInt 64 w.1) offset
        ⟨s.xorFile, w.2, bufXor, bufNand⟩
      r.1 = w.1 ∧ ∀ k < w.1.toNat, r.2 k = buf k

/-- When a call keeps to its partition. The products are of 32 bits, and an offset past the size
is not clamped. -/
def Keeps (p : Partition) (size offset : ℕ) : Prop :=
  size = 0 ∨ offset = size32 p ∨
    (offset < size32 p ∧ p.lbaFirst.toNat < 2 ^ 23) ∨
      (size32 p < offset ∧ (2 ^ 63 ≤ position p offset ∨
        let lost := 2 ^ 32 * (p.lbaFirst.toNat / 2 ^ 23)
        lost ≤ offset ∧ offset + min size 131072 ≤ BLOCK_SIZE * p.lbaSize.toNat + lost))

theorem forall_inside_iff {pos n : ℕ} (hn : 0 < n) :
    (∀ k < n, Inside p (pos + k)) ↔ BLOCK_SIZE * p.lbaFirst.toNat ≤ pos ∧
      pos + n ≤ BLOCK_SIZE * (p.lbaFirst.toNat + p.lbaSize.toNat) := by
  constructor
  · intro h
    have hfirst := (h 0 hn).1
    have hlast := (h (n - 1) (by omega)).2
    exact ⟨hfirst, by omega⟩
  · intro h k hk
    exact ⟨by omega, by omega⟩

theorem keeps_iff (p : Partition) (size offset : ℕ) :
    Keeps p size offset ↔ count p size offset = 0 ∨ 2 ^ 63 ≤ position p offset ∨
      ∀ k < count p size offset, Inside p (position p offset + k) := by
  have hfirst := p.lbaFirst.isLt
  have hsize := p.lbaSize.isLt
  rcases Nat.eq_zero_or_pos (count p size offset) with hcount | hcount
  · refine iff_of_true ?_ (Or.inl hcount)
    rw [count] at hcount
    rw [Keeps]
    split_ifs at hcount with hle
    · omega
    · omega
  · rw [forall_inside_iff hcount]
    by_cases hle : offset ≤ size32 p
    · have hmin : count p size offset = min (min size (size32 p - offset)) 131072 := by
        rw [count, if_pos hle]
      rw [hmin] at hcount ⊢
      simp only [Keeps, position, size32, BLOCK_SIZE] at *
      omega
    · have hmin : count p size offset = min size 131072 := by rw [count, if_neg hle]
      rw [hmin] at hcount ⊢
      simp only [Keeps, position, size32, BLOCK_SIZE] at *
      omega

theorem pwrite_of_neg (h : offset.msb = true) :
    pwrite room file buf size offset = (none, file) := by
  unfold pwrite
  exact if_pos h

theorem pwrite_of_nonneg (h : offset.msb = false) (n : ℕ) :
    pwrite (some n) file buf size offset = (some (min n size.toNat),
      writeAt 0 file offset.toNat ((List.range (min n size.toNat)).map buf)) := by
  rw [pwrite, h]
  simp

theorem pwrite_of_none : pwrite none file buf size offset = (none, file) := by
  unfold pwrite
  exact ite_self _

theorem fsWrite_path (h : (mbr i).lbaSize ≠ 0) : fsWrite mbr (path mbr i) room buf size offset s =
    xorWrite room buf (clampedSize (mbr i) size offset) (imageOffset (mbr i) offset) s := by
  rw [fsWrite, findPartition_path h]

theorem fsRead_path (h : (mbr i).lbaSize ≠ 0) : fsRead mbr (path mbr i) buf size offset s =
    xorRead buf (clampedSize (mbr i) size offset) (imageOffset (mbr i) offset) s := by
  rw [fsRead, findPartition_path h]

def encrypted (s : System) (buf : Buffer) (size offset : BitVec 64) : Buffer :=
  blockXor (pread s.xorFile s.bufXor size offset).2 buf s.bufNand size.toNat

theorem xorWrite_of_some (h : offset.msb = false) (n : ℕ) :
    xorWrite (some n) buf size offset s =
      let m := min n (minSize size BUFFER_SIZE).toNat
      ((m : ℤ), writeAt 0 s.nandFile offset.toNat
        ((List.range m).map (encrypted s buf (minSize size BUFFER_SIZE) offset))) := by
  rw [xorWrite]
  simp only [pwrite_of_nonneg h, encrypted]
  rfl

theorem writeIsolated_of_keeps (h : (mbr i).lbaSize ≠ 0) (hoffset : offset.msb = false)
    (hkeeps : Keeps (mbr i) size.toNat offset.toNat) : WriteIsolated mbr i size offset := by
  intro room buf s j hj houtside
  rw [fsWrite_path h]
  cases hneg : (imageOffset (mbr i) offset).msb with
  | true =>
    simp only [xorWrite, pwrite_of_neg hneg]
  | false =>
    cases room with
    | none => simp only [xorWrite, pwrite_of_none]
    | some n =>
      rw [xorWrite_of_some hneg, toNat_count hoffset, toNat_imageOffset hoffset]
      apply getElem?_writeAt_outside hj
      rw [List.length_map, List.length_range]
      rw [msb_imageOffset hoffset, decide_eq_false_iff_not] at hneg
      by_contra hnot
      rcases (keeps_iff _ _ _).mp hkeeps with hzero | hbig | hinside
      · omega
      · exact hneg hbig
      · have hk := hinside (j - position (mbr i) offset.toNat) (by omega)
        rw [Nat.add_sub_cancel' (by omega)] at hk
        exact houtside hk

theorem keeps_of_writeIsolated (h : (mbr i).lbaSize ≠ 0) (hoffset : offset.msb = false)
    (hisolated : WriteIsolated mbr i size offset) : Keeps (mbr i) size.toNat offset.toNat := by
  rw [keeps_iff]
  by_contra hnot
  rw [not_or, not_or, Classical.not_forall] at hnot
  obtain ⟨-, hpos, k, hk⟩ := hnot
  rw [Classical.not_imp] at hk
  obtain ⟨hk, houtside⟩ := hk
  have hneg : (imageOffset (mbr i) offset).msb = false := by
    rw [msb_imageOffset hoffset, decide_eq_false hpos]
  -- An image of zeros is written with ones.
  let zeros : List Byte :=
    List.replicate (position (mbr i) offset.toNat + count (mbr i) size.toNat offset.toNat) 0
  let s : System := ⟨zeros, zeros, fun _ => 0, fun _ => 0⟩
  have hstay := hisolated (some (count (mbr i) size.toNat offset.toNat)) (fun _ => 1) s _
    (by rw [List.length_replicate]; omega) houtside
  have hlength : (imageOffset (mbr i) offset).toNat + k < zeros.length := by
    rw [List.length_replicate, toNat_imageOffset hoffset]
    omega
  have hsize : k < (minSize (clampedSize (mbr i) size offset) BUFFER_SIZE).toNat := by
    rwa [toNat_count hoffset]
  rw [fsWrite_path h, xorWrite_of_some hneg, toNat_count hoffset, Nat.min_self,
    ← toNat_imageOffset hoffset, getElem?_writeAt_inside (by rwa [List.length_map, List.length_range])] at hstay
  rw [List.getElem?_map, List.getElem?_range hk, Option.map_some, encrypted, blockXor,
    if_pos hsize, pread_apply hneg hsize] at hstay
  simp only [s, List.getElem?_eq_getElem hlength] at hstay
  simp [zeros] at hstay

theorem xorRead_result (h : offset.msb = false) :
    (xorRead buf size offset s).1 =
      (min (minSize size BUFFER_SIZE).toNat (s.nandFile.length - offset.toNat) : ℕ) := by
  simp only [xorRead, pread_result h]
  rfl

theorem xorRead_apply (h : offset.msb = false)
    (hk : k < min (minSize size BUFFER_SIZE).toNat (s.nandFile.length - offset.toNat)) :
    (xorRead buf size offset s).2 k =
      s.xorFile[offset.toNat + k]?.getD (s.bufXor k) ^^^
        s.nandFile[offset.toNat + k]?.getD (s.bufNand k) := by
  have hsize : k < (minSize size BUFFER_SIZE).toNat := by omega
  have hpos : resultOf (pread s.nandFile s.bufNand (minSize size BUFFER_SIZE) offset).1 > 0 := by
    rw [pread_result h, resultOf]
    simp
    omega
  simp only [xorRead]
  rw [if_pos hpos, blockXor, if_pos hsize, pread_apply h hsize, pread_apply h hsize]

theorem readIsolated_of_keeps (h : (mbr i).lbaSize ≠ 0) (hoffset : offset.msb = false)
    (hkeeps : Keeps (mbr i) size.toNat offset.toNat) : ReadIsolated mbr i size offset := by
  intro buf s image hlength hinside
  rw [fsRead_path h, fsRead_path h]
  cases hneg : (imageOffset (mbr i) offset).msb with
  | true => simp [xorRead, pread, hneg, returned, resultOf]
  | false =>
    rw [returned, returned, xorRead_result hneg, xorRead_result hneg, hlength]
    congr 1
    apply List.map_congr_left
    intro k hk
    rw [List.mem_range, Int.toNat_natCast] at hk
    rw [xorRead_apply hneg (by rwa [hlength]), xorRead_apply hneg hk]
    have hk' : k < count (mbr i) size.toNat offset.toNat := by
      rw [← toNat_count hoffset]
      omega
    rw [msb_imageOffset hoffset, decide_eq_false_iff_not] at hneg
    have hk'' : Inside (mbr i) ((imageOffset (mbr i) offset).toNat + k) := by
      rw [toNat_imageOffset hoffset]
      rcases (keeps_iff _ _ _).mp hkeeps with hzero | hbig | hinside
      · omega
      · exact absurd hbig hneg
      · exact hinside k hk'
    rw [hinside _ hk'']

theorem readBack (h : (mbr i).lbaSize ≠ 0) (hoffset : offset.msb = false) :
    ReadBack mbr i size offset := by
  intro room buf s buf' bufXor bufNand w hsuccess hpad
  have hw : w = xorWrite room buf (clampedSize (mbr i) size offset)
      (imageOffset (mbr i) offset) s := fsWrite_path h
  cases hneg : (imageOffset (mbr i) offset).msb with
  | true =>
    simp only [xorWrite, pwrite_of_neg hneg] at hw
    rw [hw] at hsuccess
    cases hsuccess
  | false =>
    cases room with
    | none =>
      simp only [xorWrite, pwrite_of_none] at hw
      rw [hw] at hsuccess
      cases hsuccess
    | some n =>
      rw [xorWrite_of_some hneg, toNat_count hoffset] at hw
      let m := min n (count (mbr i) size.toNat offset.toNat)
      have hm : m ≤ count (mbr i) size.toNat offset.toNat := Nat.min_le_right _ _
      have hresult : w.1 = (m : ℤ) := congrArg Prod.fst hw
      have hwritten : ∀ k < m, w.2[(imageOffset (mbr i) offset).toNat + k]? =
          some (encrypted s buf (minSize (clampedSize (mbr i) size offset) BUFFER_SIZE)
            (imageOffset (mbr i) offset) k) := by
        intro k hk
        rw [hw, getElem?_writeAt_inside (by rwa [List.length_map, List.length_range]), List.getElem?_map,
          List.getElem?_range hk, Option.map_some]
      have hlength : ∀ k < m, (imageOffset (mbr i) offset).toNat + k < w.2.length := by
        intro k hk
        exact (List.getElem?_eq_some_iff.mp (hwritten k hk)).1
      have hsize : (BitVec.ofInt 64 w.1).toNat = m := by
        rw [hresult, BitVec.ofInt_natCast, BitVec.toNat_ofNat]
        have hbound : count (mbr i) size.toNat offset.toNat ≤ 131072 := Nat.min_le_right _ _
        exact Nat.mod_eq_of_lt (by omega)
      have hagain : (minSize (clampedSize (mbr i) (BitVec.ofInt 64 w.1) offset) BUFFER_SIZE).toNat =
          m := by
        rw [toNat_count hoffset, hsize]
        rw [count] at hm ⊢
        split_ifs at hm ⊢ with hle
        · omega
        · omega
      have hread : min m (w.2.length - (imageOffset (mbr i) offset).toNat) = m := by
        rcases Nat.eq_zero_or_pos m with hzero | hpos
        · rw [hzero, Nat.zero_min]
        · have hlast := hlength (m - 1) (by omega)
          omega
      intro r
      have hr : r = xorRead buf' (clampedSize (mbr i) (BitVec.ofInt 64 w.1) offset)
          (imageOffset (mbr i) offset) ⟨s.xorFile, w.2, bufXor, bufNand⟩ := fsRead_path h
      constructor
      · rw [hr, xorRead_result hneg, hagain, hread, hresult]
      · intro k hk
        rw [hresult, Int.toNat_natCast] at hk
        have hcount : k < (minSize (clampedSize (mbr i) size offset) BUFFER_SIZE).toNat := by
          rw [toNat_count hoffset]
          omega
        have hcover : (imageOffset (mbr i) offset).toNat + k < s.xorFile.length :=
          Nat.lt_of_lt_of_le (hlength k hk) hpad
        rw [hr, xorRead_apply hneg (by rwa [hagain, hread]), hwritten k hk, encrypted, blockXor,
          if_pos hcount, pread_apply hneg hcount, List.getElem?_eq_getElem hcover]
        simp only [Option.getD_some]
        rw [← BitVec.xor_assoc, BitVec.xor_self, BitVec.zero_xor]

/-- A call of every size and offset keeps to its partition exactly under this condition. What a
write has taken is always read back. -/
theorem partition_isolated_iff (h : (mbr i).lbaSize ≠ 0) (hoffset : offset.msb = false) :
    (WriteIsolated mbr i size offset ∧ ReadIsolated mbr i size offset ∧
      ReadBack mbr i size offset) ↔ Keeps (mbr i) size.toNat offset.toNat := by
  constructor
  · exact fun hall => keeps_of_writeIsolated h hoffset hall.1
  · exact fun hkeeps => ⟨writeIsolated_of_keeps h hoffset hkeeps,
      readIsolated_of_keeps h hoffset hkeeps, readBack h hoffset⟩

/-- A write one byte past the end of a partition of one block. -/
theorem partition_past_end :
    let mbr : MBR := fun _ => ⟨0x0b, 1, 1⟩
    ¬WriteIsolated mbr 0 1 513 := by
  intro mbr h
  have hstay := h (some 1) (fun _ => 1)
    ⟨List.replicate 1026 0, List.replicate 1026 0, fun _ => 0, fun _ => 0⟩ 1025
    (by rw [List.length_replicate]; decide)
    (by rw [Inside]; decide)
  revert hstay
  decide +kernel

theorem partition_isolated_block :
    let mbr : MBR := fun _ => ⟨0x0b, 1, 1⟩
    WriteIsolated mbr 0 512 0 ∧ ReadIsolated mbr 0 512 0 ∧ ReadBack mbr 0 512 0 :=
  (partition_isolated_iff (by decide) (by decide)).mpr (Or.inr (Or.inr (Or.inl (by decide))))

end NaviMisc.Nandmount
