import Mathlib.Data.List.SplitLengths
import NaviMisc.RioKarma.Aligned

/-!
Blocks of a known size in `RioKarma/Pearl.py`, padded to whole words.
-/

namespace NaviMisc.RioKarma.Pearl

open Property (Str Fault NUL)

def padding (size : ℕ) : ℕ := (4 - (size &&& 0x03)) &&& 0x03

structure AlignedBlockReader where
  size : ℕ
  bufferSize : ℕ
  bufferSize_pos : 0 < bufferSize
  transferred : ℕ

namespace AlignedBlockReader

def paddedSize (r : AlignedBlockReader) : ℕ := r.size + padding r.size

def init (size bufferSize : ℕ) (h : 0 < bufferSize) : AlignedBlockReader := ⟨size, bufferSize, h, 0⟩

def want (r : AlignedBlockReader) : ℕ :=
  if r.transferred < r.paddedSize then min r.bufferSize (r.paddedSize - r.transferred) else 0

def advance (r : AlignedBlockReader) (block : Str) : AlignedBlockReader :=
  { r with transferred := r.transferred + block.length }

def part (r : AlignedBlockReader) (block : Str) : Option Str :=
  let transferred := r.transferred + block.length
  if transferred ≥ r.bufferSize then none else some (block.take (r.bufferSize - transferred))

def next {δ : Type} (write : δ → Str → Except Fault δ) (t : Transfer AlignedBlockReader δ) :
    Transfer AlignedBlockReader δ × Except Fault Bool :=
  pump want advance part write t

end AlignedBlockReader

/-- `none` is the end of the file, which raises an error. -/
def AlignedBlockWriter.next (size : ℕ) (source : Str) : Option Str :=
  let block := source.take size
  if block.length ≠ size then none
  else some (block ++ List.replicate ((4 - (block.length &&& 0x03)) &&& 0x03) NUL)

section block

variable {size bufferSize p : ℕ} {stream data rest d : Str} {r : AlignedBlockReader}

theorem padding_eq (size : ℕ) : padding size = (4 - size % 4) % 4 := by
  rw [padding, and_three, and_three]

namespace AlignedBlockReader

@[simp] theorem init_paddedSize (h : 0 < bufferSize) :
    (init size bufferSize h).paddedSize = size + padding size := rfl

theorem want_le (r : AlignedBlockReader) : r.want ≤ r.paddedSize - r.transferred := by
  rw [want]
  split
  · exact Nat.min_le_right _ _
  · exact Nat.zero_le _

theorem want_eq_zero : r.want = 0 ↔ r.paddedSize ≤ r.transferred := by
  have hpos := r.bufferSize_pos
  rw [want]
  split <;> omega

theorem want_eq_min (h : r.want ≠ 0) : r.want = min r.bufferSize (r.paddedSize - r.transferred) := by
  rw [want] at h ⊢
  split at h
  · exact if_pos ‹_›
  · exact absurd rfl h

theorem deliver_eq (r : AlignedBlockReader) (block d : Str) :
    deliver part append r block d =
      .ok (d ++ block.take (r.bufferSize - (r.transferred + block.length))) := by
  rw [deliver, part]
  by_cases h : r.transferred + block.length ≥ r.bufferSize
  · rw [if_pos h, Nat.sub_eq_zero_of_le h, List.take_zero, List.append_nil]
  · rw [if_neg h]
    rfl

structure At (r₀ : AlignedBlockReader) (p : ℕ) (r : AlignedBlockReader) (_ : Str) : Prop where
  le : p ≤ r₀.paddedSize
  reader : r = { r₀ with transferred := p }

theorem reads {r₀ : AlignedBlockReader} (hlength : stream.length = r₀.paddedSize) :
    Reads want advance part append stream (At r₀) where
  bound := by
    rintro p r d ⟨hle, rfl⟩
    have hwant := want_le { r₀ with transferred := p }
    rw [hlength]
    change _ ≤ r₀.paddedSize - p at hwant
    omega
  done := by
    rintro p r d ⟨hle, rfl⟩
    rw [want_eq_zero, hlength]
    change r₀.paddedSize ≤ p ↔ _
    omega
  step := by
    rintro p r d block ⟨hle, rfl⟩ hne hwant hstarts
    refine ⟨_, deliver_eq _ block d, ?_, rfl⟩
    have hbound := hstarts.length_le
    rw [List.length_drop, hlength] at hbound
    omega

structure Exact (r₀ : AlignedBlockReader) (data : Str) (p : ℕ) (r : AlignedBlockReader) (d : Str) :
    Prop where
  at_ : At r₀ p r d
  written : d = data.take p

theorem reads_exact {r₀ : AlignedBlockReader} (hlength : data.length = r₀.paddedSize)
    (hroom : data.length = 0 ∨ 2 * data.length ≤ r₀.bufferSize) :
    Reads want advance part append data (Exact r₀ data) where
  bound h := (reads hlength).bound h.at_
  done h := (reads hlength).done h.at_
  step := by
    intro p r d block h hne hwant hstarts
    obtain ⟨d', hd', hat⟩ := (reads hlength).step h.at_ hne hwant hstarts
    refine ⟨d', hd', hat, ?_⟩
    have hbound := hstarts.length_le
    have hpos := List.length_pos_of_ne_nil hne
    rw [List.length_drop] at hbound
    have hall : block.take (r.bufferSize - (r.transferred + block.length)) = block := by
      rw [h.at_.reader]
      apply List.take_of_length_le
      change _ ≤ r₀.bufferSize - (p + block.length)
      omega
    rw [deliver_eq, hall, h.written] at hd'
    rw [← Except.ok.inj hd', List.take_add, ← List.prefix_iff_eq_take.mp hstarts]

def written (bufferSize : ℕ) : ℕ → List Str → Str
  | _, [] => []
  | p, block :: blocks =>
    block.take (bufferSize - (p + block.length)) ++ written bufferSize (p + block.length) blocks

theorem written_of_empty {blocks : List Str} (h : blocks.flatten = []) (p : ℕ) :
    written bufferSize p blocks = [] := by
  induction blocks generalizing p with
  | nil => rfl
  | cons block blocks ih =>
    rw [List.flatten_cons, List.append_eq_nil_iff] at h
    rw [written, h.1, ih h.2, List.take_nil]
    rfl

theorem ends_written {r₀ : AlignedBlockReader} {blocks : List Str} (tail : Source) (d : Str)
    (hfit : ∀ block ∈ blocks, block.length ≤ r₀.bufferSize)
    (htotal : p + blocks.flatten.length = r₀.paddedSize) :
    ∃ t, Ends (next append) ⟨{ r₀ with transferred := p }, blocks ++ tail, d⟩ t ∧
      t.destination = d ++ written r₀.bufferSize p blocks ∧ t.source.flatten = tail.flatten := by
  induction blocks generalizing p d with
  | nil =>
    refine ⟨⟨{ r₀ with transferred := p }, tail, d⟩, .last ?_, (List.append_nil d).symm, rfl⟩
    have hwant : want { r₀ with transferred := p } = 0 := want_eq_zero.mpr htotal.ge
    rw [next, pump, if_pos hwant]
    rfl
  | cons block blocks ih =>
    rw [List.flatten_cons, List.length_append] at htotal
    have hblock := hfit block List.mem_cons_self
    have hblocks := fun b hb => hfit b (List.mem_cons_of_mem block hb)
    by_cases hwant : want { r₀ with transferred := p } = 0
    · have hp : r₀.paddedSize ≤ p := want_eq_zero.mp hwant
      have hnil : (block :: blocks).flatten = [] := by
        rw [← List.length_eq_zero_iff, List.flatten_cons, List.length_append]
        omega
      refine ⟨⟨{ r₀ with transferred := p }, block :: blocks ++ tail, d⟩, .last ?_, ?_, ?_⟩
      · rw [next, pump, if_pos hwant]
      · rw [written_of_empty hnil, List.append_nil]
      · rw [List.flatten_append, hnil, List.nil_append]
    · have hp : p < r₀.paddedSize := not_le.mp fun hle => hwant (want_eq_zero.mpr hle)
      have hle : block.length ≤ want { r₀ with transferred := p } := by
        rw [want_eq_min hwant]
        change _ ≤ min r₀.bufferSize (r₀.paddedSize - p)
        omega
      have hread : Source.read (want { r₀ with transferred := p }) (block :: blocks ++ tail) =
          (block, blocks ++ tail) := if_pos hle
      by_cases hnil : block = []
      · subst hnil
        obtain ⟨t, hends, hwritten, hsource⟩ := ih d hblocks (by simpa using htotal)
        refine ⟨t, .more ?_ hends, ?_, hsource⟩
        · rw [Asks, next, pump, if_neg hwant]
          simp only [hread, dite_true]
        · rw [hwritten, written, List.take_nil]
          rfl
      · have hstep : next append ⟨{ r₀ with transferred := p }, block :: blocks ++ tail, d⟩ =
            next append ⟨{ r₀ with transferred := p + block.length }, blocks ++ tail,
              d ++ block.take (r₀.bufferSize - (p + block.length))⟩ := by
          rw [next, next, pump, if_neg hwant]
          simp only [hread, dif_neg hnil, deliver_eq]
          rfl
        obtain ⟨t, hends, hwritten, hsource⟩ := ih (p := p + block.length) _ hblocks (by omega)
        refine ⟨t, hends.congr hstep, ?_, hsource⟩
        rw [hwritten, written, List.append_assoc]

/-- Of each block, from byte `p` on, as much is written as there is data in it. -/
def Complete (size bufferSize : ℕ) : ℕ → List ℕ → Prop
  | _, [] => True
  | p, n :: cuts =>
    min n (bufferSize - (p + n)) = min n (size - p) ∧ Complete size bufferSize (p + n) cuts

theorem Complete.written_eq {blocks : List Str}
    (h : Complete size bufferSize p (blocks.map List.length)) :
    written bufferSize p blocks = blocks.flatten.take (size - p) := by
  induction blocks generalizing p with
  | nil => exact List.take_nil.symm
  | cons block blocks ih =>
    obtain ⟨hblock, hblocks⟩ := h
    have htake : block.take (bufferSize - (p + block.length)) = block.take (size - p) :=
      List.take_eq_take_iff.mpr (by omega)
    rw [written, ih hblocks, List.flatten_cons, List.take_append, Nat.sub_sub, htake]

theorem length_le_of_marks {l : Str} {a z : ℕ} (h : l <+: List.replicate a 1 ++ List.replicate z 0)
    (hmarks : ∀ c ∈ l, c = 1) : l.length ≤ a := by
  by_contra hlt
  obtain ⟨tail, rfl⟩ : List.replicate a 1 <+: l :=
    List.prefix_of_prefix_length_le (List.prefix_append _ _) h (by simp; omega)
  rw [List.prefix_append_right_inj] at h
  cases tail with
  | nil => simp at hlt
  | cons c tail =>
    have hzero : c = 0 := List.eq_of_mem_replicate (h.subset List.mem_cons_self)
    have hone : c = 1 := hmarks c (by simp)
    rw [hzero] at hone
    exact absurd hone (by decide)

theorem drop_marks (a z n : ℕ) : ((List.replicate a 1 ++ List.replicate z 0 : Str)).drop n =
    List.replicate (a - n) 1 ++ List.replicate (z - (n - a)) 0 := by
  rw [List.drop_append, List.drop_replicate, List.drop_replicate, List.length_replicate]

theorem complete_of_marks {blocks : List Str} {z : ℕ}
    (hblocks : blocks.flatten = List.replicate (size - p) 1 ++ List.replicate z 0)
    (hmarks : ∀ c ∈ written bufferSize p blocks, c = 1) :
    (written bufferSize p blocks).length ≤ size - p ∧
      (size - p ≤ (written bufferSize p blocks).length →
        Complete size bufferSize p (blocks.map List.length)) := by
  induction blocks generalizing p z with
  | nil => exact ⟨Nat.zero_le _, fun _ => trivial⟩
  | cons block blocks ih =>
    rw [List.flatten_cons] at hblocks
    have hstarts : block <+: List.replicate (size - p) 1 ++ List.replicate z 0 :=
      hblocks ▸ List.prefix_append _ _
    have hrest : blocks.flatten = List.replicate (size - (p + block.length)) 1 ++
        List.replicate (z - (block.length - (size - p))) 0 := by
      have hdrop := congrArg (List.drop block.length) hblocks
      rwa [List.drop_left, drop_marks, Nat.sub_sub] at hdrop
    rw [written] at hmarks ⊢
    have hfirst := length_le_of_marks ((List.take_prefix _ _).trans hstarts)
      (fun c hc => hmarks c (List.mem_append_left _ hc))
    obtain ⟨hle, hcomplete⟩ := ih hrest (fun c hc => hmarks c (List.mem_append_right _ hc))
    rw [List.length_take] at hfirst
    rw [List.length_append, List.length_take]
    exact ⟨by omega, fun hall => ⟨by omega, hcomplete (by omega)⟩⟩

theorem room_of_complete (hpos : 0 < bufferSize)
    (h : ∀ cuts, (∀ n ∈ cuts, n ≤ bufferSize) → cuts.sum = size + padding size →
      Complete size bufferSize 0 cuts) :
    size = 0 ∨ (4 ∣ size ∧ 2 * size ≤ bufferSize) := by
  have hpadding := padding_eq size
  by_cases hsize : size = 0
  · exact .inl hsize
  right
  by_cases hbuffer : size + padding size ≤ bufferSize
  · obtain ⟨hone, -⟩ := h [size + padding size] (by simpa using hbuffer) (by simp)
    by_cases hpad : padding size = 0
    · omega
    · obtain ⟨-, hsecond, -⟩ := h [1, size + padding size - 1] (by simp; omega) (by simp; omega)
      omega
  · obtain ⟨hfirst, -⟩ := h (bufferSize :: List.replicate (size + padding size - bufferSize) 1)
      (by
        intro n hn
        rcases List.mem_cons.mp hn with rfl | hn
        · exact le_rfl
        · rw [List.eq_of_mem_replicate hn]
          exact hpos)
      (by simp; omega)
    omega

theorem destination_eq {hpos : 0 < bufferSize} {blocks : List Str} {tail : Source}
    {t : Transfer AlignedBlockReader Str} (hfit : ∀ n ∈ blocks.map List.length, n ≤ bufferSize)
    (htotal : blocks.flatten.length = size + padding size)
    (hends : Ends (next append) (start (init size bufferSize hpos) (blocks ++ tail)) t) :
    t.destination = written bufferSize 0 blocks := by
  obtain ⟨t', hends', hwritten, -⟩ := @ends_written 0 (init size bufferSize hpos) blocks tail []
    (fun block hblock => hfit _ (List.mem_map_of_mem hblock)) ((Nat.zero_add _).trans htotal)
  rw [hends.unique hends', hwritten]
  rfl

theorem start_ends (hpos : 0 < bufferSize) {source : Source} {pad : Str} (hdata : data.length = size)
    (hpad : pad.length = padding size) (hsource : source.flatten = data ++ pad ++ rest) :
    ∃ t, Ends (next append) (start (init size bufferSize hpos) source) t ∧ t.source.flatten = rest := by
  have hlength : (data ++ pad).length = (init size bufferSize hpos).paddedSize := by
    rw [List.length_append, hdata, hpad, init_paddedSize]
  obtain ⟨t, hends, -, hrest⟩ := exists_ends (reads hlength)
    (t := start (init size bufferSize hpos) source) (p := 0) ⟨Nat.zero_le _, rfl⟩ hsource
  exact ⟨t, hends, hrest⟩

theorem writes_data {hpos : 0 < bufferSize} {source : Source} {pad : Str}
    {t : Transfer AlignedBlockReader Str} (hroom : size = 0 ∨ (4 ∣ size ∧ 2 * size ≤ bufferSize))
    (hdata : data.length = size) (hpad : pad.length = padding size)
    (hsource : source.flatten = data ++ pad ++ rest)
    (hends : Ends (next append) (start (init size bufferSize hpos) source) t) :
    t.destination = data := by
  have hzero : padding size = 0 := by
    rw [padding_eq]
    omega
  have hlength : data.length = (init size bufferSize hpos).paddedSize := by
    rw [init_paddedSize, hzero, hdata, Nat.add_zero]
  rw [hzero, List.length_eq_zero_iff] at hpad
  rw [hpad, List.append_nil] at hsource
  obtain ⟨t', hends', hexact, -⟩ := exists_ends (reads_exact hlength (by rw [hdata]; exact hroom.imp_right And.right))
    (t := start (init size bufferSize hpos) source) (p := 0) ⟨⟨Nat.zero_le _, rfl⟩, rfl⟩ hsource
  rw [hends.unique hends', hexact.written, List.take_length]

theorem complete_iff (hpos : 0 < bufferSize) {cuts : List ℕ} (hfit : ∀ n ∈ cuts, n ≤ bufferSize)
    (htotal : cuts.sum = size + padding size) :
    (∀ (blocks : List Str) (data pad : Str) (tail : Source) t, data.length = size →
      blocks.map List.length = cuts → blocks.flatten = data ++ pad →
      Ends (next append) (start (init size bufferSize hpos) (blocks ++ tail)) t →
      t.destination = data) ↔ Complete size bufferSize 0 cuts := by
  constructor
  · intro h
    let marks : Str := List.replicate size 1 ++ List.replicate (padding size) 0
    have hmarks : marks.length = cuts.sum := by
      rw [htotal, List.length_append, List.length_replicate, List.length_replicate]
    let blocks := cuts.splitLengths marks
    have hcuts : blocks.map List.length = cuts := List.map_splitLengths_length marks cuts hmarks.ge
    have hflatten : blocks.flatten = marks := List.flatten_splitLengths marks cuts hmarks.le
    have hsource : (blocks ++ []).flatten =
        List.replicate size 1 ++ List.replicate (padding size) 0 ++ [] := by
      rw [List.append_nil, List.append_nil, hflatten]
    obtain ⟨t, hends, -⟩ :=
      start_ends hpos List.length_replicate List.length_replicate hsource
    have hdestination := h blocks _ _ [] t List.length_replicate hcuts hflatten hends
    rw [destination_eq (by rwa [hcuts]) (by rw [hflatten, hmarks, htotal]) hends] at hdestination
    rw [← hcuts]
    apply (complete_of_marks (z := padding size) hflatten _).2
    · rw [hdestination, List.length_replicate]
      exact Nat.sub_le _ _
    · intro c hc
      rw [hdestination] at hc
      exact List.eq_of_mem_replicate hc
  · rintro hcomplete blocks data pad tail t hdata rfl hflatten hends
    have hlength : blocks.flatten.length = size + padding size := by
      rw [List.length_flatten, htotal]
    rw [destination_eq hfit hlength hends, hcomplete.written_eq, hflatten, ← hdata, Nat.sub_zero,
      List.take_left]

end AlignedBlockReader

open AlignedBlockReader (Complete)

theorem writer_next (h : data.length = size) :
    AlignedBlockWriter.next size data = some (data ++ List.replicate (padding size) NUL) := by
  rw [AlignedBlockWriter.next, List.take_of_length_le h.le, if_neg (not_not.mpr h), h]
  rfl

/-- The reader always takes the padded block off its source. What it writes is the data exactly if
each block that is read is complete, which they are in every fragmentation only if the data has no
padding and fits into the buffer twice. -/
theorem aligned_block (size bufferSize : ℕ) (hpos : 0 < bufferSize) :
    (∀ data : Str, data.length = size →
      AlignedBlockWriter.next size data = some (data ++ List.replicate (padding size) NUL)) ∧
    (∀ (source : Source) (data pad rest : Str), data.length = size → pad.length = padding size →
      source.flatten = data ++ pad ++ rest →
      ∃ t, Ends (AlignedBlockReader.next append) (start (.init size bufferSize hpos) source) t ∧
        t.source.flatten = rest) ∧
    (∀ cuts, (∀ n ∈ cuts, n ≤ bufferSize) → cuts.sum = size + padding size →
      ((∀ (blocks : List Str) (data pad : Str) (tail : Source) t, data.length = size →
          blocks.map List.length = cuts → blocks.flatten = data ++ pad →
          Ends (AlignedBlockReader.next append) (start (.init size bufferSize hpos) (blocks ++ tail)) t →
          t.destination = data) ↔ Complete size bufferSize 0 cuts)) ∧
    ((∀ (source : Source) (data pad rest : Str) t, data.length = size → pad.length = padding size →
        source.flatten = data ++ pad ++ rest →
        Ends (AlignedBlockReader.next append) (start (.init size bufferSize hpos) source) t →
        t.destination = data) ↔ size = 0 ∨ (4 ∣ size ∧ 2 * size ≤ bufferSize)) := by
  refine ⟨fun data => writer_next, fun source data pad rest => AlignedBlockReader.start_ends hpos,
    fun cuts => AlignedBlockReader.complete_iff hpos, ?_, ?_⟩
  · intro h
    apply AlignedBlockReader.room_of_complete hpos
    intro cuts hfit htotal
    apply (AlignedBlockReader.complete_iff hpos hfit htotal).mp
    rintro blocks data pad tail t hdata rfl hflatten hends
    apply h (blocks ++ tail) data pad tail.flatten t hdata _ _ hends
    · have hlength := congrArg List.length hflatten
      rw [List.length_flatten, htotal, List.length_append, hdata] at hlength
      omega
    · rw [List.flatten_append, hflatten]
  · intro hroom source data pad rest t hdata hpad hsource hends
    exact AlignedBlockReader.writes_data hroom hdata hpad hsource hends

theorem aligned_block_pieces : ∃ t, Ends (AlignedBlockReader.next append)
    (start (.init 4 16384 (by decide)) [[1, 2], [], [3, 4, 0x52]]) t ∧ t.source.flatten = [0x52] :=
  (aligned_block 4 16384 (by decide)).2.1 _ [1, 2, 3, 4] [] [0x52] rfl rfl rfl

/-- Five bytes are written with their padding. -/
theorem padding_written : ∃ t, Ends (AlignedBlockReader.next append)
    (start (.init 5 16384 (by decide)) [[1, 2, 3, 4, 5, 0, 0, 0]]) t ∧ t.destination ≠ [1, 2, 3, 4, 5] := by
  obtain ⟨t, hends, hwritten, -⟩ := @AlignedBlockReader.ends_written 0 (.init 5 16384 (by decide))
    [[1, 2, 3, 4, 5, 0, 0, 0]] [] [] (by decide) rfl
  refine ⟨t, hends, ?_⟩
  rw [hwritten]
  decide

end block

end NaviMisc.RioKarma.Pearl
