import NaviMisc.Metalkit.PuffBlocks

/-!
`puff` of metalkit/lib/puff.c against the deflate format: just the streams of the format are
inflated, to their data, and no buffer is left whatever the input is.
-/

namespace NaviMisc.Metalkit.Puff

open Lib.ByteOrder (Byte bytes)
open Lib.PrefixCode (left)
open Deflate

variable {dest : Option (List Byte)} {source o : List Byte} {l : List Bool} {s : State}

section Stored

structure Aligned (dest : Option (List Byte)) (source o rest : List Byte) (s : State) : Prop where
  reading : Reading dest source o (byteBits rest) s
  bitcnt_eq : s.bitcnt = 0
  rest_eq : source.drop s.incnt = rest

variable {rest : List Byte}

theorem Aligned.next_eq {b : Byte} (h : Aligned dest source o (b :: rest) s) :
    ∃ s', s.next = .ok (b, s') ∧ Aligned dest source o rest s' := by
  have hdrop := h.rest_eq
  rw [← h.reading.in_eq] at hdrop
  obtain ⟨hnext, hdrop', hlt⟩ := State.next_eq hdrop
  have hin := h.reading.in_eq
  refine ⟨_, hnext, ⟨⟨h.reading.sound.bitcnt_lt, h.reading.sound.bitbuf_lt, hlt⟩,
    hin, ?_, h.reading.outcnt_eq, h.reading.out_eq, h.reading.length_le⟩, h.bitcnt_eq, ?_⟩
  · rw [State.pending, h.bitcnt_eq, lowBits_zero, hdrop', List.nil_append]
  · rw [← hin, hdrop']

theorem Aligned.length_eq (h : Aligned dest source o rest s) :
    s.incnt + rest.length = source.length := by
  have hle := h.reading.bounded.incnt_le
  rw [← h.rest_eq, List.length_drop]
  omega

theorem Aligned.put_eq (h : Aligned dest source o rest s) (hsmall : Small dest source)
    (hroom : ∀ d ∈ dest, o.length < d.length) (b : Byte) :
    ∃ s', s.put b = .ok s' ∧ Aligned dest source (o ++ [b]) rest s' := by
  obtain ⟨s', hput, h'⟩ := h.reading.put_eq hsmall hroom b
  have hsame : s'.bitcnt = s.bitcnt ∧ s'.incnt = s.incnt := by
    rw [State.put] at hput
    split at hput
    · split_ifs at hput
      cases hput
      exact ⟨rfl, rfl⟩
    · cases hput
      exact ⟨rfl, rfl⟩
  exact ⟨s', hput, h', hsame.1.trans h.bitcnt_eq, by rw [hsame.2, h.rest_eq]⟩

theorem Aligned.storedCopy_eq {data : List Byte} (h : Aligned dest source o (data ++ rest) s)
    (hsmall : Small dest source) (hroom : ∀ d ∈ dest, o.length + data.length ≤ d.length) :
    ∃ s', storedCopy data.length s = .ok s' ∧ Aligned dest source (o ++ data) rest s' := by
  induction data generalizing o s with
  | nil => exact ⟨s, rfl, by rwa [List.append_nil]⟩
  | cons b data ih =>
    rw [List.length_cons] at hroom
    obtain ⟨s₁, hnext, h₁⟩ := h.next_eq
    obtain ⟨s₂, hput, h₂⟩ := h₁.put_eq hsmall
      (fun d hd => by have hle := hroom d hd; omega) b
    obtain ⟨s₃, hcopy, h₃⟩ := ih h₂ fun d hd => by
      have hle := hroom d hd
      rw [List.length_append, List.length_singleton]
      omega
    refine ⟨s₃, ?_, by rwa [List.append_assoc] at h₃⟩
    rw [List.length_cons, storedCopy, hnext, ok_bind]
    simp only [hput, ok_bind, hcopy]

theorem Reading.aligned (h : Reading dest source o l s) :
    l = lowBits s.bitbuf s.bitcnt ++ byteBits (source.drop s.incnt) ∧
      Aligned dest source o (source.drop s.incnt) { s with bitbuf := 0, bitcnt := 0 } := by
  have hpending := h.pending_eq
  rw [State.pending, h.in_eq] at hpending
  refine ⟨hpending.symm, ⟨⟨Nat.succ_pos 7, Nat.one_pos, h.sound.incnt_le⟩, h.in_eq, ?_, h.outcnt_eq,
    h.out_eq, h.length_le⟩, rfl, rfl⟩
  rw [State.pending, h.in_eq]
  rfl

theorem toNat_or_shiftLeft (b₀ b₁ : Byte) :
    b₀.toNat ||| b₁.toNat <<< 8 = b₁.toNat * 256 + b₀.toNat := by
  rw [Nat.or_comm, ← Nat.shiftLeft_add_eq_or_of_lt b₀.isLt, Nat.shiftLeft_eq]

theorem bytes_two (b₀ b₁ : Byte) : bytes 2 (b₁.toNat * 256 + b₀.toNat) = [b₀, b₁] := by
  have hlt := b₀.isLt
  have hdiv : (b₁.toNat * 256 + b₀.toNat) / 256 = b₁.toNat := by omega
  rw [bytes, bytes, bytes, hdiv, BitVec.ofNat_toNat, BitVec.setWidth_eq]
  congr 1
  apply BitVec.eq_of_toNat_eq
  rw [BitVec.toNat_ofNat]
  omega

theorem Aligned.overflow_iff (h : Aligned dest source o rest s) (hsmall : Small dest source)
    {len : ℕ} (hlen : len < 2 ^ 16) : s.inlen < ulong (s.incnt + len) ↔ rest.length < len := by
  have hlength := h.length_eq
  have hmax := hsmall.source_le
  rw [State.inlen, h.reading.in_eq, ulong_of_lt (by omega)]
  omega

theorem Aligned.storedBytes_eq {data : List Byte} (h : Aligned dest source o (data ++ rest) s)
    (hsmall : Small dest source) (hdata : data.length < 2 ^ 16)
    (hroom : ∀ d ∈ dest, o.length + data.length ≤ d.length) :
    ∃ s', storedBytes s data.length = .ok (0, s') ∧
      Reading dest source (o ++ data) (byteBits rest) s' := by
  have hlength := h.length_eq
  have hinside : ¬ s.inlen < ulong (s.incnt + data.length) := by
    rw [h.overflow_iff hsmall hdata, List.length_append]
    omega
  rw [storedBytes, if_neg hinside]
  cases hdest : dest with
  | none =>
    subst hdest
    have hout : s.out = none := h.reading.out_eq
    have hmax := hsmall.source_le
    rw [List.length_append] at hlength
    have hincnt : ulong (s.incnt + data.length) = s.incnt + data.length :=
      ulong_of_lt (by omega)
    have hdrop : source.drop (s.incnt + data.length) = rest := by
      rw [← List.drop_drop, h.rest_eq, List.drop_left]
    rw [hout]
    refine ⟨_, rfl, ⟨⟨h.reading.sound.bitcnt_lt, h.reading.sound.bitbuf_lt, ?_⟩, h.reading.in_eq,
      ?_, ?_, rfl, nofun⟩⟩
    · have hle : s.incnt + data.length ≤ source.length := by omega
      rw [State.inlen, h.reading.in_eq, hincnt]
      exact hle
    · rw [State.pending, h.bitcnt_eq, lowBits_zero, hincnt, h.reading.in_eq, hdrop,
        List.nil_append]
    · rw [h.reading.outcnt_eq, List.length_append]
      exact Nat.mod_add_mod _ _ _
  | some d =>
    subst hdest
    have hle := hroom d rfl
    have hmax := hsmall.dest_le d rfl
    have hout : s.out = some (o ++ d.drop o.length) := h.reading.out_eq
    have hfits : ¬ s.outlen < ulong (s.outcnt + data.length) := by
      rw [h.reading.overflow_iff hsmall rfl (by omega)]
      exact hle.not_gt
    obtain ⟨s', hcopy, h'⟩ := h.storedCopy_eq hsmall hroom
    rw [hout]
    simp only [if_neg hfits, hcopy, ok_bind]
    exact ⟨s', rfl, h'.reading⟩

theorem Aligned.storedBytes_outcome {bad : Prop} (h : Aligned dest source o rest s)
    (hsmall : Small dest source) {len : ℕ} (hlen : len < 2 ^ 16) :
    Outcome dest bad (Ended dest source fun o' l' => ∃ data rest', rest = data ++ rest' ∧
      data.length = len ∧ o' = o ++ data ∧ l' = byteBits rest') (storedBytes s len) := by
  by_cases hshort : rest.length < len
  · rw [storedBytes, if_pos ((h.overflow_iff hsmall hlen).mpr hshort)]
    exact .ok (.inr ⟨two_ne_zero, h.reading.bounded⟩)
  · have htake : (rest.take len).length = len := by
      rw [List.length_take]
      omega
    by_cases hroom : ∀ d ∈ dest, o.length + len ≤ d.length
    · rw [← List.take_append_drop len rest] at h
      obtain ⟨s', hstored, h'⟩ := h.storedBytes_eq hsmall (by rwa [htake]) (by rwa [htake])
      rw [htake] at hstored
      rw [hstored]
      exact .ok (.inl ⟨rfl, _, _, ⟨_, _, (List.take_append_drop len rest).symm, htake, rfl, rfl⟩,
        h'⟩)
    · simp only [not_forall, Nat.not_le] at hroom
      obtain ⟨d, hd, hlt⟩ := hroom
      have hle := h.reading.length_le d hd
      have hmax := hsmall.dest_le d hd
      have hout : s.out = some (o ++ d.drop o.length) := by
        rw [h.reading.out_eq, hd, Option.map_some]
      have hfull := (h.reading.overflow_iff hsmall hd (by omega)).mpr hlt
      rw [storedBytes, if_neg ((h.overflow_iff hsmall hlen).not.mpr hshort), hout]
      simp only [if_pos hfull]
      exact .ok (.inr ⟨one_ne_zero, h.reading.bounded⟩)

theorem exists_four {rest : List Byte} (h : ¬ rest.length < 4) :
    ∃ b₀ b₁ b₂ b₃ rest', rest = b₀ :: b₁ :: b₂ :: b₃ :: rest' := by
  rcases rest with - | ⟨b₀, - | ⟨b₁, - | ⟨b₂, - | ⟨b₃, rest'⟩⟩⟩⟩
  · exact absurd (Nat.succ_pos 3) h
  · exact absurd (Nat.lt_of_sub_eq_succ rfl) h
  · exact absurd (Nat.lt_of_sub_eq_succ rfl) h
  · exact absurd (Nat.lt_of_sub_eq_succ rfl) h
  · exact ⟨b₀, b₁, b₂, b₃, rest', rfl⟩

theorem Reading.stored_outcome {bad : Prop} (hsmall : Small dest source)
    (h : Reading dest source o l s) :
    Outcome dest bad (Ended dest source (Block o 0 l)) (stored s) := by
  obtain ⟨hl, haligned⟩ := h.aligned
  have hcnt := h.sound.bitcnt_lt
  generalize source.drop s.incnt = rest at hl haligned
  have hoverflow := haligned.overflow_iff hsmall (show 4 < 2 ^ 16 by decide)
  rw [stored]
  by_cases hshort : rest.length < 4
  · rw [if_pos (hoverflow.mpr hshort)]
    exact .ok (.inr ⟨two_ne_zero, haligned.reading.bounded⟩)
  · obtain ⟨b₀, b₁, b₂, b₃, rest, rfl⟩ := exists_four hshort
    obtain ⟨s₁, hnext₁, h₁⟩ := haligned.next_eq
    obtain ⟨s₂, hnext₂, h₂⟩ := h₁.next_eq
    obtain ⟨s₃, hnext₃, h₃⟩ := h₂.next_eq
    obtain ⟨s₄, hnext₄, h₄⟩ := h₃.next_eq
    rw [if_neg (hoverflow.not.mpr hshort), hnext₁, ok_bind]
    simp only [hnext₂, hnext₃, ok_bind]
    by_cases hfirst : b₂ = ~~~b₀
    · simp only [hfirst, ne_eq, not_true_eq_false, if_false, hnext₄, ok_bind]
      by_cases hsecond : b₃ = ~~~b₁
      · simp only [hsecond, not_true_eq_false, if_false]
        have hlt₀ := b₀.isLt
        have hlt₁ := b₁.isLt
        have hlen : b₁.toNat * 256 + b₀.toNat < 2 ^ 16 := by omega
        rw [toNat_or_shiftLeft]
        refine (h₄.storedBytes_outcome hsmall hlen).mono id ?_
        rintro err s' (⟨rfl, o', l', ⟨data, rest', rfl, hdata, rfl, rfl⟩, h'⟩ | herr)
        · refine .inl ⟨rfl, _, _, ?_, h'⟩
          have hbytes := bytes_two b₀ b₁
          have hsplit : b₀ :: b₁ :: b₂ :: b₃ :: (data ++ rest') =
              bytes 2 data.length ++ (bytes 2 data.length).map (~~~ ·) ++ data ++ rest' := by
            rw [hdata, hbytes, hfirst, hsecond]
            rfl
          rw [hl, hsplit, byteBits_append]
          exact .stored (by rwa [length_lowBits]) (by rw [length_byteBits]; omega) (by omega)
        · exact .inr herr
      · simp only [hsecond, not_false_eq_true, if_true]
        exact .ok (.inr ⟨by decide, h₄.reading.bounded⟩)
    · simp only [ne_eq, hfirst, not_false_eq_true, if_true]
      exact .ok (.inr ⟨by decide, h₃.reading.bounded⟩)

theorem byteBits_inj {l l' : List Byte} (h : byteBits l = byteBits l') : l = l' := by
  induction l generalizing l' with
  | nil =>
    have hlen := congrArg List.length h
    rw [length_byteBits, length_byteBits] at hlen
    exact (List.length_eq_zero_iff.mp (Nat.eq_of_mul_eq_mul_left (by decide) hlen.symm)).symm
  | cons b l ih =>
    cases l' with
    | nil =>
      have hlen := congrArg List.length h
      rw [length_byteBits, length_byteBits, List.length_cons, List.length_nil] at hlen
      omega
    | cons b' l' =>
      rw [byteBits_cons, byteBits_cons] at h
      obtain ⟨hbyte, hrest⟩ := List.append_inj h (by rw [length_lowBits, length_lowBits])
      rw [ih hrest, BitVec.eq_of_toNat_eq (lowBits_inj b.isLt b'.isLt hbyte)]

theorem byteBits_take (l : List Byte) (n : ℕ) :
    (byteBits l).take (8 * n) = byteBits (l.take n) := by
  by_cases hn : n ≤ l.length
  · have hlen : (byteBits (l.take n)).length = 8 * n := by
      rw [length_byteBits, List.length_take, Nat.min_eq_left hn]
    rw [← List.take_append_drop n l, byteBits_append, List.take_append_drop, ← hlen,
      List.take_left]
  · rw [List.take_of_length_le (by rw [length_byteBits]; omega),
      List.take_of_length_le (by omega)]

theorem eq_append_of_byteBits {rest data : List Byte} {l : List Bool}
    (h : byteBits rest = byteBits data ++ l) :
    ∃ rest', rest = data ++ rest' ∧ l = byteBits rest' := by
  have htake : byteBits (rest.take data.length) = byteBits data := by
    rw [← byteBits_take, h, ← length_byteBits, List.take_left]
  have hrest : rest = data ++ rest.drop data.length := by
    conv_lhs => rw [← List.take_append_drop data.length rest, byteBits_inj htake]
  refine ⟨rest.drop data.length, hrest, ?_⟩
  rw [hrest, byteBits_append] at h
  exact (List.append_cancel_left h).symm

theorem Reading.stored_eq (hsmall : Small dest source) {data : List Byte} {pad l' : List Bool}
    (hpad : pad.length < 8) (hl' : l'.length % 8 = 0) (hdata : data.length < 2 ^ 16)
    (hfits : Fits dest (o ++ data).length)
    (h : Reading dest source o (pad ++ (byteBits (bytes 2 data.length ++
      (bytes 2 data.length).map (~~~ ·) ++ data) ++ l')) s) :
    ∃ s', stored s = .ok (0, s') ∧ Reading dest source (o ++ data) l' s' := by
  obtain ⟨hl, haligned⟩ := h.aligned
  have hcnt := h.sound.bitcnt_lt
  generalize source.drop s.incnt = rest at hl haligned
  have hlen := congrArg List.length hl
  simp only [List.length_append, length_byteBits, length_lowBits] at hlen
  obtain ⟨-, hrest⟩ := List.append_inj hl (by rw [length_lowBits]; omega)
  obtain ⟨rest', rfl, rfl⟩ := eq_append_of_byteBits hrest.symm
  have hoverflow := haligned.overflow_iff hsmall (show 4 < 2 ^ 16 by decide)
  let b₀ := BitVec.ofNat 8 data.length
  let b₁ := BitVec.ofNat 8 (data.length / 256)
  have hsplit : bytes 2 data.length ++ (bytes 2 data.length).map (~~~ ·) ++ data ++ rest' =
      b₀ :: b₁ :: ~~~b₀ :: ~~~b₁ :: (data ++ rest') := rfl
  have hvalue : b₁.toNat * 256 + b₀.toNat = data.length := by
    simp only [b₀, b₁, BitVec.toNat_ofNat]
    omega
  rw [hsplit] at haligned hoverflow
  have hlong : ¬ (b₀ :: b₁ :: ~~~b₀ :: ~~~b₁ :: (data ++ rest')).length < 4 := by
    simp only [List.length_cons]
    omega
  obtain ⟨s₁, hnext₁, h₁⟩ := haligned.next_eq
  obtain ⟨s₂, hnext₂, h₂⟩ := h₁.next_eq
  obtain ⟨s₃, hnext₃, h₃⟩ := h₂.next_eq
  obtain ⟨s₄, hnext₄, h₄⟩ := h₃.next_eq
  rw [List.length_append] at hfits
  obtain ⟨s₅, hstored, h₅⟩ := h₄.storedBytes_eq hsmall hdata hfits.length_le
  refine ⟨s₅, ?_, h₅⟩
  rw [stored, if_neg (hoverflow.not.mpr hlong), hnext₁, ok_bind]
  simp only [hnext₂, hnext₃, hnext₄, ok_bind, ne_eq, not_true_eq_false, if_false]
  rw [toNat_or_shiftLeft, hvalue, hstored]

end Stored

section Blocks

theorem Reading.block_outcome (hsmall : Small dest source) (h : Reading dest source o l s)
    (type : ℕ) :
    Outcome dest (type = 2 ∧ NoCode l) (Ended dest source (Block o type l)) (block type s) := by
  match type with
  | 0 => exact h.stored_outcome hsmall
  | 1 => exact h.fixed_outcome hsmall
  | 2 => exact (h.dynamic_outcome hsmall).mono (fun hbad => ⟨rfl, hbad⟩) fun _ _ => id
  | _ + 3 => exact .ok (.inr ⟨by decide, h.bounded⟩)

theorem Reading.block_eq (hsmall : Small dest source) {type : ℕ} {o' : List Byte} {l' : List Bool}
    (hblock : Block o type l o' l') (hfits : Fits dest o'.length) (h : Reading dest source o l s) :
    ∃ s', block type s = .ok (0, s') ∧ Reading dest source o' l' s' := by
  cases hblock with
  | stored hpad hl' hdata => exact h.stored_eq hsmall hpad hl' hdata hfits
  | fixed htokens => exact h.fixed_eq hsmall htokens hfits
  | dynamic hheader hleft hls husable husable' htokens =>
    exact h.dynamic_eq hsmall hheader hleft hls husable husable' htokens hfits

theorem tokens_length_le {lencodes distcodes : List ℕ} {o' : List Byte} {l' : List Bool}
    (h : Tokens lencodes distcodes o l o' l') :
    l'.length ≤ l.length ∧ o'.length + 258 * l'.length ≤ o.length + 258 * l.length := by
  induction h with
  | done hw =>
    rw [List.length_append]
    omega
  | literal hw _ ih =>
    have hpos := hw.length_pos
    rw [List.length_append, List.length_singleton] at ih
    rw [List.length_append]
    omega
  | string hw hbits hdist _ ih =>
    have hpos := hw.length_pos
    obtain ⟨hlen, hpos'⟩ := bounds_of_copyBits hbits
    rw [length_repeated hpos' hdist] at ih
    rw [List.length_append, List.length_append]
    omega

theorem block_length_le {type : ℕ} {o' : List Byte} {l' : List Bool} (h : Block o type l o' l') :
    l'.length ≤ l.length ∧ o.length ≤ o'.length ∧
      o'.length + 258 * l'.length ≤ o.length + 258 * l.length := by
  cases h with
  | stored hpad hl' hdata =>
    simp only [List.length_append, length_byteBits]
    omega
  | fixed htokens =>
    have hlen := tokens_length_le htokens
    exact ⟨hlen.1, length_le_of_tokens htokens, hlen.2⟩
  | dynamic hheader _ hls _ _ htokens =>
    have hlen := tokens_length_le htokens
    obtain ⟨-, hle, -⟩ := facts_of_lengths hls nofun
    obtain @⟨x, y, z, vs, l, -⟩ := hheader
    simp only [List.length_append]
    exact ⟨by omega, length_le_of_tokens htokens, by omega⟩

theorem lowBits_one (v : ℕ) : lowBits v 1 = [v.testBit 0] := rfl

theorem Reading.blocks_outcome (hsmall : Small dest source) {fuel : ℕ} (hfuel : l.length < fuel)
    (h : Reading dest source o l s) :
    Outcome dest (Broken o l) (Ended dest source (Stream o l)) (blocks fuel s) := by
  induction fuel generalizing o l s with
  | zero => exact absurd hfuel (Nat.not_lt_zero _)
  | succ fuel ih =>
    rw [blocks]
    refine (h.bits_outcome 1).bind ?_
    rintro last s₁ ⟨hlast, l₁, rfl, h₁⟩
    refine (h₁.bits_outcome 2).bind ?_
    rintro type s₂ ⟨htype, l₂, rfl, h₂⟩
    simp only [lowBits_one, List.singleton_append] at *
    have hbroken : type = 2 ∧ NoCode l₂ →
        Broken o (last.testBit 0 :: (lowBits type 2 ++ l₂)) := by
      rintro ⟨rfl, hcode⟩
      exact ⟨o, _, l₂, .none, hcode⟩
    refine ((h₂.block_outcome hsmall type).mono hbroken fun _ _ => id).bind ?_
    rintro err s₃ (⟨rfl, o₃, l₃, hblock, h₃⟩ | ⟨herr, hbounded⟩)
    · by_cases hend : last = 0
      · have hbit : last.testBit 0 = false := by rw [hend, Nat.zero_testBit]
        have hle := (block_length_le hblock).1
        simp only [List.length_cons, List.length_append] at hfuel
        simp only [hend, ne_eq, not_true_eq_false, or_self, if_false]
        refine (ih (by omega) h₃).mono ?_ ?_
        · rintro ⟨o₁, b, l₁, hblocks, hcode⟩
          rw [Nat.zero_testBit]
          exact ⟨o₁, b, l₁, .more htype hblock hblocks, hcode⟩
        · rintro err s' (⟨rfl, o', l', ⟨o₁, type', l₁, htype', hblocks, hlast'⟩, h'⟩ | herr)
          · rw [Nat.zero_testBit]
            exact .inl ⟨rfl, o', l',
              ⟨o₁, type', l₁, htype', .more htype hblock hblocks, hlast'⟩, h'⟩
          · exact .inr herr
      · have hone : last = 1 := by omega
        have hbit : last.testBit 0 = true := by rw [hone, Nat.testBit_zero]; rfl
        simp only [hend, ne_eq, not_false_eq_true, or_true, if_true]
        rw [hbit]
        exact .ok (.inl ⟨rfl, o₃, l₃, ⟨o, type, l₂, htype, .none, hblock⟩, h₃⟩)
    · simp only [herr, ne_eq, not_false_eq_true, true_or, if_true]
      exact .ok (.inr ⟨herr, hbounded⟩)

theorem blocks_length_le {o' : List Byte} {l' : List Bool} (h : Blocks o l o' l') :
    l'.length ≤ l.length ∧ o.length ≤ o'.length ∧
      o'.length + 258 * l'.length ≤ o.length + 258 * l.length := by
  induction h with
  | none => exact ⟨Nat.le_refl _, Nat.le_refl _, Nat.le_refl _⟩
  | more _ hblock _ ih =>
    have hlen := block_length_le hblock
    simp only [List.length_cons, List.length_append]
    omega

theorem stream_length_le {data : List Byte} {l' : List Bool} (h : Stream o l data l') :
    o.length ≤ data.length ∧ data.length + 258 * l'.length ≤ o.length + 258 * l.length := by
  obtain ⟨o₁, type, l₁, -, hblocks, hblock⟩ := h
  have hlen := blocks_length_le hblocks
  have hlen' := block_length_le hblock
  simp only [List.length_cons, List.length_append] at hlen
  omega

theorem Reading.head_eq {b : Bool} {type : ℕ} (htype : type < 2 ^ 2)
    (h : Reading dest source o (b :: (lowBits type 2 ++ l)) s) :
    ∃ s₁ s₂, bits s 1 = .ok (b.toNat, s₁) ∧ bits s₁ 2 = .ok (type, s₂) ∧
      Reading dest source o l s₂ := by
  have hbit : lowBits b.toNat 1 = [b] := by cases b <;> rfl
  have h' : Reading dest source o (lowBits b.toNat 1 ++ (lowBits type 2 ++ l)) s := by
    rwa [hbit]
  obtain ⟨s₁, hlast, h₁⟩ := h'.bits_eq b.toNat_lt
  obtain ⟨s₂, htype', h₂⟩ := h₁.bits_eq htype
  exact ⟨s₁, s₂, hlast, htype', h₂⟩

theorem Reading.blocks_eq (hsmall : Small dest source) {fuel : ℕ} (hfuel : l.length < fuel)
    {data : List Byte} {l' : List Bool} (hstream : Stream o l data l')
    (hfits : Fits dest data.length) (h : Reading dest source o l s) :
    ∃ s', blocks fuel s = .ok (0, s') ∧ Reading dest source data l' s' := by
  obtain ⟨o₁, type, l₁, htype, hblocks, hlast⟩ := hstream
  generalize hl₀ : true :: (lowBits type 2 ++ l₁) = l₀ at hblocks
  induction hblocks generalizing s fuel with
  | none =>
    subst hl₀
    obtain ⟨fuel, rfl⟩ : ∃ k, fuel = k + 1 := ⟨fuel - 1, by omega⟩
    obtain ⟨s₁, s₂, hbits, htype', h₂⟩ := h.head_eq htype
    obtain ⟨s₃, hblock, h₃⟩ := h₂.block_eq hsmall hlast hfits
    refine ⟨s₃, ?_, h₃⟩
    rw [blocks, hbits, ok_bind]
    simp only [htype', hblock, ok_bind]
    rfl
  | @more o o' o'' l l' l'' type' htype' hblock hblocks ih =>
    obtain ⟨fuel, rfl⟩ : ∃ k, fuel = k + 1 := ⟨fuel - 1, by omega⟩
    have hlen := block_length_le hblock
    have hlen' := blocks_length_le hblocks
    have hlen'' := block_length_le hlast
    simp only [List.length_cons, List.length_append, length_lowBits] at hfuel
    obtain ⟨s₁, s₂, hbits, htype'', h₂⟩ := h.head_eq htype'
    obtain ⟨s₃, hblock', h₃⟩ :=
      h₂.block_eq hsmall hblock (hfits.mono (hlen'.2.1.trans hlen''.2.1))
    obtain ⟨s₄, hrest, h₄⟩ := @ih s₃ fuel (by omega) h₃ hlast hl₀
    refine ⟨s₄, ?_, h₄⟩
    rw [blocks, hbits, ok_bind]
    simp only [htype'', hblock', ok_bind]
    exact hrest

end Blocks

section Puff

variable {data : List Byte} {l' : List Bool}

theorem Reading.start (dest : Option (List Byte)) (source : List Byte) :
    Reading dest source [] (byteBits source) ⟨dest, 0, source, 0, 0, 0⟩ where
  sound := ⟨Nat.succ_pos 7, Nat.one_pos, Nat.zero_le _⟩
  in_eq := rfl
  pending_eq := rfl
  outcnt_eq := rfl
  out_eq := by cases dest <;> rfl
  length_le _ _ := Nat.zero_le _

theorem Reading.incnt_eq (h : Reading dest source o l s) :
    s.incnt = source.length - l.length / 8 := by
  have hlen := State.length_pending h.sound.incnt_le
  have hle := h.bounded.incnt_le
  have hcnt := h.sound.bitcnt_lt
  rw [State.inlen, h.in_eq, h.pending_eq] at hlen
  omega

/-- Each stream of the format is inflated to its data if there is room. What is behind the data in
the buffer stays, and the input is used up to the byte with the end of the stream. -/
theorem puff_of_stream (hsmall : Small dest source) (hstream : Stream [] (byteBits source) data l')
    (hfits : Fits dest data.length) :
    puff dest source = .ok ⟨0, dest.map fun d => data ++ d.drop data.length, data.length,
      source.length - l'.length / 8⟩ := by
  have hstart := Reading.start dest source
  obtain ⟨s', hblocks, h'⟩ := hstart.blocks_eq hsmall hstart.length_lt_fuel hstream hfits
  simp only [puff, hblocks, Int.le_refl, if_true]
  rw [h'.out_eq, h'.outcnt_eq, h'.incnt_eq, ulong_of_lt hfits.lt]

theorem puff_of_stream_stored :
    puff (some [0, 9]) [1, 1, 0, 254, 255, 7] = .ok ⟨0, some [7, 9], 1, 6⟩ := by
  have hstream : Stream [] (byteBits [1, 1, 0, 254, 255, 7]) [7] [] :=
    ⟨[], 0, _, by decide, .none,
      @Block.stored [] [7] (List.replicate 5 false) [] (by decide) rfl (by decide)⟩
  exact puff_of_stream ⟨by rintro d ⟨⟩; decide, by decide⟩ hstream
    ⟨by rintro d ⟨⟩; decide, by decide⟩

/-- What is inflated without an error is a stream of the format. -/
theorem stream_of_puff (hsmall : Small dest source) {r : Result} (hpuff : puff dest source = .ok r)
    (herr : r.err = 0) :
    ∃ data l', Stream [] (byteBits source) data l' ∧ (∀ d ∈ dest, data.length ≤ d.length) ∧
      r = ⟨0, dest.map fun d => data ++ d.drop data.length, ulong data.length,
        source.length - l'.length / 8⟩ := by
  have hstart := Reading.start dest source
  have houtcome := hstart.blocks_outcome hsmall hstart.length_lt_fuel
  generalize hr : blocks _ _ = result at houtcome
  rw [puff, hr] at hpuff
  cases houtcome with
  | @ok err s h =>
    obtain ⟨rfl, data, l', hstream, h'⟩ | ⟨hne, -⟩ := h
    · simp only [Int.le_refl, if_true, Except.ok.injEq] at hpuff
      refine ⟨data, l', hstream, h'.length_le, ?_⟩
      rw [← hpuff, h'.out_eq, h'.outcnt_eq, h'.incnt_eq]
    · simp only at hpuff
      split_ifs at hpuff <;> cases hpuff <;> exact absurd herr hne
  | longjmp h =>
    cases hpuff
    exact absurd herr two_ne_zero
  | fault h => cases hpuff

theorem stream_of_puff_stored : ∃ data l', Stream [] (byteBits [1, 1, 0, 254, 255, 7]) data l' ∧
    (∀ d ∈ some ([0, 9] : List Byte), data.length ≤ d.length) ∧ (⟨0, some [7, 9], 1, 6⟩ : Result) =
      ⟨0, (some [0, 9]).map fun d => data ++ d.drop data.length, ulong data.length,
        6 - l'.length / 8⟩ :=
  @stream_of_puff (some [0, 9]) [1, 1, 0, 254, 255, 7] ⟨by rintro d ⟨⟩; decide, by decide⟩
    ⟨0, some [7, 9], 1, 6⟩ rfl rfl

theorem DataFile_Decompress_eq {f : List Byte} {buffer : Option (List Byte)} {r : Result}
    (h : puff buffer f = .ok r) :
    DataFile_Decompress f buffer = .ok ⟨decide (r.err ≠ 0), r.dest, r.destlen⟩ := by
  rw [DataFile_Decompress, h]
  rfl

theorem stream_of_decompress {f : List Byte} {buffer : Option (List Byte)} {i : Inflated}
    (hsmall : Small buffer f) (h : DataFile_Decompress f buffer = .ok i) (hint3 : i.int3 = false) :
    ∃ data l', Stream [] (byteBits f) data l' ∧ (∀ d ∈ buffer, data.length ≤ d.length) ∧
      i = ⟨false, buffer.map fun d => data ++ d.drop data.length, ulong data.length⟩ := by
  cases hpuff : puff buffer f with
  | error stop =>
    rw [DataFile_Decompress, hpuff] at h
    cases h
  | ok r =>
    rw [DataFile_Decompress_eq hpuff] at h
    cases h
    obtain ⟨data, l', hstream, hle, rfl⟩ := stream_of_puff hsmall hpuff (by simpa using hint3)
    exact ⟨data, l', hstream, hle, rfl⟩

end Puff

end NaviMisc.Metalkit.Puff
