import NaviMisc.RioKarma.Escape

/-!
Aligned transfers of `RioKarma/Pearl.py`: strings and blocks that are padded to
whole words.
-/

namespace NaviMisc.RioKarma.Pearl

open Property (Str Fault NUL)

abbrev Source := List Str

def Source.read (size : ℕ) : Source → Str × Source
  | [] => ([], [])
  | piece :: pieces =>
    if piece.length ≤ size then (piece, pieces) else (piece.take size, piece.drop size :: pieces)

theorem Source.read_append (size : ℕ) (source : Source) :
    (source.read size).1 ++ (source.read size).2.flatten = source.flatten := by
  cases source with
  | nil => rfl
  | cons piece pieces =>
    rw [Source.read]
    split
    · rfl
    · rw [List.flatten_cons, List.flatten_cons, ← List.append_assoc, List.take_append_drop]

theorem Source.flatten_read_lt {size : ℕ} {source : Source} (h : (source.read size).1 ≠ []) :
    (source.read size).2.flatten.length < source.flatten.length := by
  have happend := congrArg List.length (source.read_append size)
  rw [List.length_append] at happend
  have hpos := List.length_pos_of_ne_nil h
  omega

theorem Source.length_read_le (size : ℕ) (source : Source) : (source.read size).1.length ≤ size := by
  cases source with
  | nil => exact Nat.zero_le size
  | cons piece pieces =>
    rw [Source.read]
    split
    · assumption
    · exact List.length_take_le _ _

theorem Source.read_length_le (size : ℕ) (source : Source) :
    (source.read size).2.length ≤ source.length := by
  cases source with
  | nil => exact le_rfl
  | cons piece pieces =>
    rw [Source.read]
    split
    · exact Nat.le_succ _
    · exact le_rfl

theorem Source.read_empty {size : ℕ} {source : Source} (hsize : size ≠ 0)
    (h : (source.read size).1 = []) :
    (source.read size).2 = [] ∨ (source.read size).2.length < source.length := by
  cases source with
  | nil => exact .inl rfl
  | cons piece pieces =>
    rw [Source.read] at h ⊢
    split at h
    · rename_i hle
      rw [if_pos hle]
      exact .inr (Nat.lt_succ_self _)
    · rename_i hlong
      rw [List.take_eq_nil_iff] at h
      rcases h with rfl | rfl
      · exact absurd rfl hsize
      · exact absurd (Nat.zero_le size) hlong

/-- A reader of type `ρ` between its source and its destination. -/
structure Transfer (ρ δ : Type) where
  reader : ρ
  source : Source
  destination : δ

section pump

variable {ρ δ : Type} (want : ρ → ℕ) (advance : ρ → Str → ρ) (part : ρ → Str → Option Str)
  (write : δ → Str → Except Fault δ)

/-- `none` is a block of which nothing is written. -/
def deliver (reader : ρ) (block : Str) (destination : δ) : Except Fault δ :=
  match part reader block with
  | none => .ok destination
  | some data => write destination data

/-- The loop of both readers: read up to `want` bytes until there are none to be had, or none
wanted any more. A reader whose destination raised is not used again. -/
def pump (t : Transfer ρ δ) : Transfer ρ δ × Except Fault Bool :=
  if want t.reader = 0 then (t, .ok false)
  else
    let block := (t.source.read (want t.reader)).1
    let source := (t.source.read (want t.reader)).2
    if _ : block = [] then ({ t with source }, .ok true)
    else match deliver part write t.reader block t.destination with
      | .ok destination => pump ⟨advance t.reader block, source, destination⟩
      | .error fault => (⟨advance t.reader block, source, t.destination⟩, .error fault)
termination_by t.source.flatten.length
decreasing_by exact Source.flatten_read_lt ‹_›

structure Reads (stream : Str) (At : ℕ → ρ → δ → Prop) : Prop where
  bound : ∀ {p r d}, At p r d → p + want r ≤ stream.length
  done : ∀ {p r d}, At p r d → (want r = 0 ↔ p = stream.length)
  step : ∀ {p r d block}, At p r d → block ≠ [] → block.length ≤ want r → block <+: stream.drop p →
    ∃ d', deliver part write r block d = .ok d' ∧ At (p + block.length) (advance r block) d'

variable {want advance part write} {stream rest future : Str} {At : ℕ → ρ → δ → Prop}

theorem pump_spec (hreads : Reads want advance part write stream At) {p : ℕ} {t : Transfer ρ δ}
    (h : At p t.reader t.destination) (hsource : t.source.flatten ++ future = stream.drop p ++ rest) :
    ∃ p' t' more, pump want advance part write t = (t', .ok more) ∧ At p' t'.reader t'.destination ∧
      t'.source.flatten ++ future = stream.drop p' ++ rest ∧ p ≤ p' ∧
      (more = false ↔ p' = stream.length) ∧
      (more = true → t'.source = [] ∨ t'.source.length < t.source.length) := by
  induction hlength : t.source.flatten.length using Nat.strong_induction_on generalizing t p with
  | h length ih =>
    rw [pump]
    by_cases hwant : want t.reader = 0
    · rw [if_pos hwant]
      exact ⟨p, t, false, rfl, h, hsource, le_rfl, iff_of_true rfl ((hreads.done h).mp hwant),
        fun hmore => by cases hmore⟩
    rw [if_neg hwant]
    have hread := t.source.read_append (want t.reader)
    have hle := t.source.length_read_le (want t.reader)
    have hshorter := t.source.read_length_le (want t.reader)
    set block := (t.source.read (want t.reader)).1
    set source := (t.source.read (want t.reader)).2
    by_cases hblock : block = []
    · rw [dif_pos hblock]
      rw [hblock, List.nil_append] at hread
      have hp : p ≠ stream.length := fun hp => hwant ((hreads.done h).mpr hp)
      refine ⟨p, { t with source }, true, rfl, h, by rw [hread, hsource], le_rfl,
        iff_of_false (by decide) hp, fun _ => Source.read_empty hwant hblock⟩
    · rw [dif_neg hblock]
      have hbound := hreads.bound h
      have hcut : block ++ (source.flatten ++ future) = stream.drop p ++ rest := by
        rw [← hsource, ← hread, List.append_assoc]
      have hfits : block.length ≤ (stream.drop p).length := by
        rw [List.length_drop]
        omega
      obtain ⟨htake, hdrop⟩ := Lib.Lists.take_drop_of_append_eq hcut.symm hfits
      obtain ⟨d', hd', hat⟩ := hreads.step h hblock hle (htake ▸ List.take_prefix _ _)
      rw [List.drop_drop] at hdrop
      have hlt : source.flatten.length < length := hlength ▸ Source.flatten_read_lt hblock
      obtain ⟨p', t', more, hpump, hat', hsource', hp', hmore, hshort⟩ :=
        ih _ hlt (t := ⟨advance t.reader block, source, d'⟩) hat hdrop.symm rfl
      rw [hd']
      refine ⟨p', t', more, hpump, hat', hsource', by omega, hmore, fun htrue => ?_⟩
      rcases hshort htrue with hnil | hlt'
      · exact .inl hnil
      · exact .inr (hlt'.trans_le hshorter)

def Asks (next : Transfer ρ δ → Transfer ρ δ × Except Fault Bool) (t t' : Transfer ρ δ) : Prop :=
  next t = (t', .ok true)

inductive Ends (next : Transfer ρ δ → Transfer ρ δ × Except Fault Bool) :
    Transfer ρ δ → Transfer ρ δ → Prop
  | last {t t' : Transfer ρ δ} : next t = (t', .ok false) → Ends next t t'
  | more {t t' t'' : Transfer ρ δ} : Asks next t t' → Ends next t' t'' → Ends next t t''

theorem Ends.unique {next : Transfer ρ δ → Transfer ρ δ × Except Fault Bool} {t t₁ t₂ : Transfer ρ δ}
    (h₁ : Ends next t t₁) (h₂ : Ends next t t₂) : t₁ = t₂ := by
  induction h₁ with
  | last hlast =>
    cases h₂ with
    | last hlast' =>
      rw [hlast] at hlast'
      cases hlast'
      rfl
    | more hasks _ =>
      rw [Asks, hlast] at hasks
      cases hasks
  | more hasks _ ih =>
    rw [Asks] at hasks
    cases h₂ with
    | last hlast =>
      rw [hasks] at hlast
      cases hlast
    | more hasks' hends =>
      rw [Asks, hasks] at hasks'
      cases hasks'
      exact ih hends

theorem Ends.congr {next : Transfer ρ δ → Transfer ρ δ × Except Fault Bool} {t t₁ t₂ : Transfer ρ δ}
    (h : next t = next t₁) (hends : Ends next t₁ t₂) : Ends next t t₂ := by
  cases hends with
  | last hlast => exact .last (h.trans hlast)
  | more hasks hends => exact .more (h.trans hasks) hends

theorem reached_spec (hreads : Reads want advance part write stream At) {p : ℕ} {t t' : Transfer ρ δ}
    (h : At p t.reader t.destination) (hsource : t.source.flatten = stream.drop p ++ rest)
    (hreached : Relation.ReflTransGen (Asks (pump want advance part write)) t t') :
    ∃ p', At p' t'.reader t'.destination ∧ t'.source.flatten = stream.drop p' ++ rest := by
  induction hreached with
  | refl => exact ⟨p, h, hsource⟩
  | tail _ hasks ih =>
    obtain ⟨p₁, hat₁, hsource₁⟩ := ih
    obtain ⟨p₂, t₂, more, hpump, hat₂, hsource₂, -⟩ :=
      pump_spec hreads hat₁ (by rw [hsource₁, List.append_nil])
    rw [Asks, hpump] at hasks
    cases hasks
    rw [List.append_nil] at hsource₂
    exact ⟨p₂, hat₂, hsource₂⟩

theorem exists_ends (hreads : Reads want advance part write stream At) {p : ℕ} {t : Transfer ρ δ}
    (h : At p t.reader t.destination) (hsource : t.source.flatten = stream.drop p ++ rest) :
    ∃ t', Ends (pump want advance part write) t t' ∧ At stream.length t'.reader t'.destination ∧
      t'.source.flatten = rest := by
  induction hlength : t.source.length using Nat.strong_induction_on generalizing t p with
  | h length ih =>
    obtain ⟨p', t', more, hpump, hat, hsource', -, hmore, hshort⟩ :=
      pump_spec hreads h (by rw [hsource, List.append_nil])
    rw [List.append_nil] at hsource'
    cases more with
    | false =>
      obtain rfl := hmore.mp rfl
      rw [List.drop_length, List.nil_append] at hsource'
      exact ⟨t', .last hpump, hat, hsource'⟩
    | true =>
      have hlt : t'.source.length < length := by
        rcases hshort rfl with hnil | hlt
        · rw [hnil, List.flatten_nil, List.nil_eq, List.append_eq_nil_iff, List.drop_eq_nil_iff] at hsource'
          have hbound := hreads.bound hat
          exact absurd (hmore.mpr (by omega)) (by decide)
        · rwa [hlength] at hlt
      obtain ⟨t'', hends, hend⟩ := ih _ hlt hat hsource' rfl
      exact ⟨t'', .more hpump hends, hend⟩

end pump

section string

variable {δ : Type} (write : δ → Str → Except Fault δ)

structure AlignedStringReader where
  totalLength : ℕ
  foundNull : Bool

def AlignedStringReader.init : AlignedStringReader := ⟨0, false⟩

def AlignedStringReader.want (r : AlignedStringReader) : ℕ :=
  if r.totalLength &&& 0x03 ≠ 0 ∨ ¬r.foundNull then 4 - (r.totalLength &&& 0x03) else 0

def AlignedStringReader.advance (r : AlignedStringReader) (block : Str) : AlignedStringReader :=
  ⟨r.totalLength + block.length, r.foundNull || decide (NUL ∈ block)⟩

def AlignedStringReader.part (r : AlignedStringReader) (block : Str) : Option Str :=
  if r.foundNull then none else some (block.take (block.idxOf NUL))

def AlignedStringReader.next (t : Transfer AlignedStringReader δ) :
    Transfer AlignedStringReader δ × Except Fault Bool :=
  pump AlignedStringReader.want AlignedStringReader.advance AlignedStringReader.part write t

def AlignedStringWriter.copy (bufferSize totalLength : ℕ) (source destination : Str) : Str :=
  let block := source.take bufferSize
  let totalLength := totalLength + block.length
  if _ : block.length = bufferSize ∧ 0 < bufferSize then
    copy bufferSize totalLength (source.drop bufferSize) (destination ++ block)
  else destination ++ (block ++ List.replicate (4 - (totalLength &&& 0x03)) NUL)
termination_by source.length
decreasing_by
  rename_i hblock
  rw [List.length_take] at hblock
  rw [List.length_drop]
  omega

def AlignedStringWriter.next (source : Str) : Str := AlignedStringWriter.copy 4096 0 source []

def aligned (s : Str) : Str := s ++ List.replicate (4 - s.length % 4) NUL

theorem and_three (n : ℕ) : n &&& 0x03 = n % 4 := Nat.and_two_pow_sub_one_eq_mod n 2

theorem copy_eq (n : ℕ) (source destination : Str) :
    AlignedStringWriter.copy 4096 n source destination =
      destination ++ (source ++ List.replicate (4 - (n + source.length) % 4) NUL) := by
  induction hlength : source.length using Nat.strong_induction_on generalizing source n destination with
  | h length ih =>
    rw [AlignedStringWriter.copy]
    by_cases hblock : (source.take 4096).length = 4096
    · rw [dif_pos ⟨hblock, by decide⟩]
      rw [List.length_take] at hblock
      have hlt : (source.drop 4096).length < length := by
        rw [List.length_drop]
        omega
      have hmod : (n + (source.take 4096).length + (source.drop 4096).length) % 4 = (n + length) % 4 := by
        rw [List.length_take, List.length_drop]
        omega
      rw [ih _ hlt _ _ _ rfl, hmod, List.append_assoc, ← List.append_assoc (source.take 4096),
        List.take_append_drop]
    · rw [dif_neg fun h => hblock h.1, and_three]
      rw [List.length_take] at hblock
      have hall : source.take 4096 = source := List.take_of_length_le (by omega)
      rw [hall, hlength]

theorem next_eq_aligned (s : Str) : AlignedStringWriter.next s = aligned s := by
  rw [AlignedStringWriter.next, copy_eq, Nat.zero_add]
  rfl

theorem length_aligned (s : Str) : (aligned s).length = s.length + (4 - s.length % 4) := by
  rw [aligned, List.length_append, List.length_replicate]

structure AlignedStringReader.At (write : δ → Str → Except Fault δ) (d₀ : δ) (s : Str) (p : ℕ)
    (r : AlignedStringReader) (d : δ) : Prop where
  le : p ≤ (aligned s).length
  totalLength : r.totalLength = p
  foundNull : r.foundNull = decide (s.length < p)
  written : write d₀ (s.take p) = .ok d

variable {write : δ → Str → Except Fault δ} {d₀ d : δ} {s block : Str} {p : ℕ} {r : AlignedStringReader}

theorem AlignedStringReader.At.want_eq (h : At write d₀ s p r d) :
    r.want = if p % 4 ≠ 0 ∨ p ≤ s.length then 4 - p % 4 else 0 := by
  rw [AlignedStringReader.want, h.totalLength, h.foundNull, and_three]
  apply if_congr _ rfl rfl
  apply or_congr_right
  rw [decide_eq_true_eq, not_lt]

theorem take_idxOf (hs : NUL ∉ s) {k : ℕ} (h : block <+: s ++ List.replicate k NUL) :
    block.take (block.idxOf NUL) = s.take block.length ∧ (NUL ∈ block ↔ s.length < block.length) := by
  rcases le_or_gt block.length s.length with hle | hlt
  · have hstarts : block <+: s := List.prefix_of_prefix_length_le h (List.prefix_append _ _) hle
    have hnul : NUL ∉ block := fun hmem => hs (hstarts.subset hmem)
    rw [List.idxOf_of_notMem hnul, List.take_length, ← List.prefix_iff_eq_take]
    exact ⟨hstarts, iff_of_false hnul (not_lt.mpr hle)⟩
  · obtain ⟨tail, rfl⟩ : s <+: block :=
      List.prefix_of_prefix_length_le (List.prefix_append _ _) h hlt.le
    rw [List.length_append, Nat.lt_add_right_iff_pos] at hlt
    rw [List.prefix_append_right_inj] at h
    have hmem : ∀ c ∈ tail, c = NUL := fun c hc => List.eq_of_mem_replicate (h.subset hc)
    obtain ⟨c, tail, rfl⟩ := List.exists_cons_of_length_pos hlt
    obtain rfl := hmem c List.mem_cons_self
    rw [List.idxOf_append_of_notMem hs, List.idxOf_cons_self, Nat.add_zero, List.take_left,
      List.take_of_length_le (by simp)]
    exact ⟨rfl, iff_of_true (by simp) (by simp)⟩

theorem AlignedStringReader.reads (hs : NUL ∉ s)
    (hwrite : ∀ d a b, write d (a ++ b) = write d a >>= fun d => write d b)
    (hok : ∃ d, write d₀ s = .ok d) :
    Reads AlignedStringReader.want AlignedStringReader.advance AlignedStringReader.part write
      (aligned s) (At write d₀ s) where
  bound := by
    intro p r d h
    have hle := h.le
    rw [length_aligned] at hle ⊢
    rw [h.want_eq]
    split <;> omega
  done := by
    intro p r d h
    have hle := h.le
    rw [length_aligned] at hle ⊢
    rw [h.want_eq]
    split <;> omega
  step := by
    intro p r d block h hne hwant hstarts
    have hle := h.le
    have hpos := List.length_pos_of_ne_nil hne
    have hbound := hstarts.length_le
    rw [List.length_drop] at hbound
    by_cases hp : s.length < p
    · refine ⟨d, ?_, by omega, ?_, ?_, ?_⟩
      · rw [deliver, AlignedStringReader.part, h.foundNull, decide_eq_true hp]
        rfl
      · rw [AlignedStringReader.advance, h.totalLength]
      · rw [AlignedStringReader.advance, h.foundNull, decide_eq_true hp,
          decide_eq_true (by omega : s.length < p + block.length), Bool.true_or]
      · have hwritten := h.written
        rwa [List.take_of_length_le (by omega)] at hwritten ⊢
    · rw [not_lt] at hp
      have hdrop : (aligned s).drop p = s.drop p ++ List.replicate (4 - s.length % 4) NUL :=
        List.drop_append_of_le_length hp
      rw [hdrop] at hstarts
      obtain ⟨htake, hmem⟩ := take_idxOf (fun hmem => hs (List.drop_subset p s hmem)) hstarts
      rw [List.length_drop] at hmem
      have hstep : write d₀ (s.take (p + block.length)) =
          write d (block.take (block.idxOf NUL)) := by
        rw [List.take_add, hwrite, h.written, htake]
        rfl
      obtain ⟨d', hd'⟩ : ∃ d', write d₀ (s.take (p + block.length)) = .ok d' := by
        obtain ⟨final, hfinal⟩ := hok
        rw [← List.take_append_drop (p + block.length) s, hwrite] at hfinal
        obtain ⟨d', hd', -⟩ := Lib.Lists.bind_eq_ok hfinal
        exact ⟨d', hd'⟩
      refine ⟨d', ?_, by omega, ?_, ?_, hd'⟩
      · rw [deliver, AlignedStringReader.part, h.foundNull, decide_eq_false (not_lt.mpr hp), ← hd', hstep]
        rfl
      · rw [AlignedStringReader.advance, h.totalLength]
      · rw [AlignedStringReader.advance, h.foundNull, decide_eq_false (not_lt.mpr hp), Bool.false_or]
        apply decide_eq_decide.mpr
        rw [hmem]
        omega

def append (d data : Str) : Except Fault Str := .ok (d ++ data)

theorem append_append (d a b : Str) : append d (a ++ b) = append d a >>= fun d => append d b := by
  rw [append, ← List.append_assoc]
  rfl

def start {ρ : Type} (reader : ρ) (source : Source) : Transfer ρ Str := ⟨reader, source, []⟩

/-- However the padded string is delivered, it is taken off the source to its last byte, and no
further, and the string is written. -/
theorem aligned_string {s : Str} (hs : NUL ∉ s) :
    (∃ k, 1 ≤ k ∧ k ≤ 4 ∧ AlignedStringWriter.next s = s ++ List.replicate k NUL ∧
      4 ∣ (AlignedStringWriter.next s).length) ∧
    ∀ (source : Source) (rest : Str), source.flatten = AlignedStringWriter.next s ++ rest →
      (∃ t, Ends (AlignedStringReader.next append) (start .init source) t) ∧
      ∀ t, Relation.ReflTransGen (Asks (AlignedStringReader.next append)) (start .init source) t →
        ∃ t' more, AlignedStringReader.next append t = (t', .ok more) ∧
          ∃ p ≤ (AlignedStringWriter.next s).length, t'.destination = s.take p ∧
            t'.source.flatten = (AlignedStringWriter.next s).drop p ++ rest ∧
            (more = true → p < (AlignedStringWriter.next s).length) ∧
            (more = false → t'.destination = s ∧ t'.source.flatten = rest) := by
  rw [next_eq_aligned]
  constructor
  · refine ⟨4 - s.length % 4, by omega, by omega, rfl, ?_⟩
    rw [length_aligned]
    omega
  intro source rest hsource
  have hok : ∃ d, append [] s = .ok d := ⟨s, rfl⟩
  have hreads := AlignedStringReader.reads hs append_append hok
  have hstart : AlignedStringReader.At append [] s 0 .init [] :=
    ⟨Nat.zero_le _, rfl, rfl, rfl⟩
  constructor
  · obtain ⟨t, hends, -⟩ := exists_ends hreads (t := start .init source) hstart hsource
    exact ⟨t, hends⟩
  · intro t hreached
    obtain ⟨p, hat, hsource⟩ := reached_spec hreads (t := start .init source) hstart hsource hreached
    obtain ⟨p', t', more, hnext, hat', hsource', -, hmore, -⟩ :=
      pump_spec hreads hat (by rw [hsource, List.append_nil])
    rw [List.append_nil] at hsource'
    have hwritten : s.take p' = t'.destination := Except.ok.inj hat'.written
    refine ⟨t', more, hnext, p', hat'.le, hwritten.symm, hsource', ?_, ?_⟩
    · rintro rfl
      apply lt_of_le_of_ne hat'.le
      intro hp'
      exact absurd (hmore.mpr hp') (by decide)
    · rintro rfl
      obtain rfl := hmore.mp rfl
      rw [List.drop_length, List.nil_append] at hsource'
      rw [← hwritten, length_aligned, List.take_of_length_le (Nat.le_add_right _ _)]
      exact ⟨rfl, hsource'⟩

theorem aligned_string_pieces : ∃ t, Ends (AlignedStringReader.next append)
    (start .init [[0x61], [], [0x62, 0x00], [0x00, 0x52]]) t :=
  ((aligned_string (s := [0x61, 0x62]) (by decide)).2 _ [0x52] (by
    rw [next_eq_aligned]
    rfl)).1

end string

end NaviMisc.RioKarma.Pearl
