import NaviMisc.Metalkit.Deflate

/-!
The functions of metalkit/lib/puff.c that read the symbols of a block, against the format: each
reads what the format has there, and nothing else.
-/

namespace NaviMisc.Metalkit.Puff

open Lib.ByteOrder (Byte bytes)
open Lib.PrefixCode (Codeword left)
open Deflate

section Reading

variable (dest : Option (List Byte)) (source : List Byte)

structure Reading (o : List Byte) (l : List Bool) (s : State) : Prop where
  sound : s.Sound
  in_eq : s.in_ = source
  pending_eq : s.pending = l
  outcnt_eq : s.outcnt = ulong o.length
  out_eq : s.out = dest.map fun d => o ++ d.drop o.length
  length_le : ∀ d ∈ dest, o.length ≤ d.length

structure Bounded (s : State) : Prop where
  in_eq : s.in_ = source
  incnt_le : s.incnt ≤ source.length
  length_eq : s.out.map List.length = dest.map List.length
  outcnt_le : ∀ d ∈ dest, s.outcnt ≤ d.length

inductive Outcome {α : Type} (bad : Prop) (post : α → State → Prop) : Except Stop (α × State) → Prop
  | ok {a : α} {s : State} : post a s → Outcome bad post (.ok (a, s))
  | longjmp {out : Option (List Byte)} : out.map List.length = dest.map List.length →
    Outcome bad post (.error (.longjmp out))
  | fault : bad → Outcome bad post (.error .fault)

variable {dest source} {o : List Byte} {l : List Bool} {s : State}

theorem Outcome.bind {α β : Type} {bad : Prop} {post : α → State → Prop}
    {post' : β → State → Prop} {r : Except Stop (α × State)}
    {f : α × State → Except Stop (β × State)} (h : Outcome dest bad post r)
    (hf : ∀ a s, post a s → Outcome dest bad post' (f (a, s))) :
    Outcome dest bad post' (r >>= f) := by
  cases h with
  | ok h => exact hf _ _ h
  | longjmp h => exact .longjmp h
  | fault h => exact .fault h

theorem Outcome.mono {α : Type} {bad bad' : Prop} {post post' : α → State → Prop}
    {r : Except Stop (α × State)} (h : Outcome dest bad post r) (hbad : bad → bad')
    (hpost : ∀ a s, post a s → post' a s) : Outcome dest bad' post' r := by
  cases h with
  | ok h => exact .ok (hpost _ _ h)
  | longjmp h => exact .longjmp h
  | fault h => exact .fault (hbad h)

theorem length_fill {d : List Byte} (h : o.length ≤ d.length) :
    (o ++ d.drop o.length).length = d.length := by
  rw [List.length_append, List.length_drop, Nat.add_sub_cancel' h]

theorem Reading.length_eq (h : Reading dest source o l s) :
    s.out.map List.length = dest.map List.length := by
  rw [h.out_eq]
  cases hdest : dest with
  | none => rfl
  | some d => exact congrArg some (length_fill (h.length_le d hdest))

theorem Reading.bounded (h : Reading dest source o l s) : Bounded dest source s where
  in_eq := h.in_eq
  incnt_le := by
    have hle := h.sound.incnt_le
    rwa [State.inlen, h.in_eq] at hle
  length_eq := h.length_eq
  outcnt_le d hd := by
    rw [h.outcnt_eq]
    exact (Nat.mod_le _ _).trans (h.length_le d hd)

theorem Reading.at_ {l' : List Bool} {s' : State} (h : Reading dest source o l s)
    (hat : s.At l' s') : Reading dest source o l' s' where
  sound := hat.sound
  in_eq := hat.in_eq.trans h.in_eq
  pending_eq := hat.pending_eq
  outcnt_eq := hat.outcnt_eq.trans h.outcnt_eq
  out_eq := hat.out_eq.trans h.out_eq
  length_le := h.length_le

theorem Bounded.same {s' : State} (h : Bounded dest source s) (hsame : s.Same s')
    (hs : s'.Sound) : Bounded dest source s' where
  in_eq := hsame.in_eq.trans h.in_eq
  incnt_le := by
    have hle := hs.incnt_le
    rwa [State.inlen, hsame.in_eq, h.in_eq] at hle
  length_eq := by rw [hsame.out_eq, h.length_eq]
  outcnt_le d hd := by
    rw [hsame.outcnt_eq]
    exact h.outcnt_le d hd

theorem Reading.bits_outcome {bad : Prop} (h : Reading dest source o l s) (need : ℕ) :
    Outcome dest bad (fun v s' => v < 2 ^ need ∧
      ∃ l', l = lowBits v need ++ l' ∧ Reading dest source o l' s') (bits s need) := by
  obtain ⟨v, s', l', hbits, hv, hat, hpending⟩ | ⟨hbits, -⟩ := bits_spec h.sound need
  · rw [hbits]
    exact .ok ⟨hv, l', h.pending_eq.symm.trans hpending, h.at_ hat⟩
  · rw [hbits]
    exact .longjmp h.length_eq

theorem Reading.bits_eq {v need : ℕ} (h : Reading dest source o (lowBits v need ++ l) s)
    (hv : v < 2 ^ need) : ∃ s', bits s need = .ok (v, s') ∧ Reading dest source o l s' := by
  obtain ⟨s', hbits, hat⟩ := bits_complete h.sound hv h.pending_eq
  exact ⟨s', hbits, h.at_ hat⟩

variable {lengths : List ℕ} {table : Huffman}

theorem Reading.decode_outcome {bad : Prop} (ht : Table lengths table)
    (h : Reading dest source o l s) :
    Outcome dest bad (fun (symbol : ℤ) s' =>
      (∃ n w l', symbol = (n : ℕ) ∧ Codeword lengths n w ∧ l = w ++ l' ∧
        Reading dest source o l' s') ∨
      symbol = -9 ∧ s'.Sound ∧ Bounded dest source s' ∧ left lengths.count MAXBITS ≠ 0)
      (decode s table) := by
  obtain ⟨n, w, l', s', hdecode, hw, hl, hat⟩ | ⟨s', hdecode, hsame, hs, hleft⟩ | hdecode :=
    decode_spec ht h.sound
  · rw [hdecode]
    exact .ok (.inl ⟨n, w, l', rfl, hw, h.pending_eq.symm.trans hl, h.at_ hat⟩)
  · rw [hdecode]
    exact .ok (.inr ⟨rfl, hs, h.bounded.same hsame hs, hleft⟩)
  · rw [hdecode]
    exact .longjmp h.length_eq

theorem Reading.decode_eq (hfit : Fitting lengths) (ht : Table lengths table) {symbol : ℕ}
    {w : List Bool} (hw : Codeword lengths symbol w) (h : Reading dest source o (w ++ l) s) :
    ∃ s', decode s table = .ok ((symbol : ℤ), s') ∧ Reading dest source o l s' := by
  obtain ⟨s', hdecode, hat⟩ := decode_codeword hfit ht h.sound hw h.pending_eq
  exact ⟨s', hdecode, h.at_ hat⟩

end Reading

section Output

structure Small (dest : Option (List Byte)) (source : List Byte) : Prop where
  dest_le : ∀ d ∈ dest, d.length + 2 ^ 16 ≤ 2 ^ 32
  source_le : source.length + 2 ^ 16 ≤ 2 ^ 32

/-- The output has room for `n` bytes, and they can be counted. -/
structure Fits (dest : Option (List Byte)) (n : ℕ) : Prop where
  length_le : ∀ d ∈ dest, n ≤ d.length
  lt : n < 2 ^ 32

variable {dest : Option (List Byte)} {source o : List Byte} {l : List Bool} {s : State}

theorem Fits.mono {n m : ℕ} (h : Fits dest n) (hle : m ≤ n) : Fits dest m :=
  ⟨fun d hd => hle.trans (h.length_le d hd), hle.trans_lt h.lt⟩

theorem ulong_of_lt {n : ℕ} (h : n < 2 ^ 32) : ulong n = n := Nat.mod_eq_of_lt h

theorem ulong_add_one (n : ℕ) : ulong (ulong n + 1) = ulong (n + 1) := Nat.mod_add_mod n _ 1

theorem Reading.outcnt_of_mem {d : List Byte} (h : Reading dest source o l s)
    (hsmall : Small dest source) (hd : d ∈ dest) : s.outcnt = o.length := by
  have hle := h.length_le d hd
  have hlt := hsmall.dest_le d hd
  rw [h.outcnt_eq, ulong_of_lt (by omega)]

theorem Reading.put_eq (h : Reading dest source o l s) (hsmall : Small dest source)
    (hroom : ∀ d ∈ dest, o.length < d.length) (b : Byte) :
    ∃ s', s.put b = .ok s' ∧ Reading dest source (o ++ [b]) l s' := by
  cases hdest : dest with
  | none =>
    subst hdest
    have hout : s.out = none := h.out_eq
    refine ⟨{ s with outcnt := ulong (s.outcnt + 1) }, by rw [State.put, hout],
      ⟨⟨h.sound.bitcnt_lt, h.sound.bitbuf_lt, h.sound.incnt_le⟩, h.in_eq, h.pending_eq, ?_,
        h.out_eq, nofun⟩⟩
    rw [h.outcnt_eq, ulong_add_one, List.length_append, List.length_singleton]
  | some d =>
    subst hdest
    have hcnt := h.outcnt_of_mem hsmall rfl
    have hlt := hroom d rfl
    have hd := hsmall.dest_le d rfl
    have hout : s.out = some (o ++ d.drop o.length) := h.out_eq
    have hset : (o ++ d.drop o.length).set o.length b = o ++ [b] ++ d.drop (o ++ [b]).length := by
      rw [List.set_append_right _ _ (Nat.le_refl _), Nat.sub_self, List.drop_eq_getElem_cons hlt,
        List.set_cons_zero, List.append_assoc, List.length_append, List.length_singleton]
      rfl
    refine ⟨{ s with
        out := some ((o ++ d.drop o.length).set s.outcnt b), outcnt := s.outcnt + 1 }, ?_,
      ⟨⟨h.sound.bitcnt_lt, h.sound.bitbuf_lt, h.sound.incnt_le⟩, h.in_eq, h.pending_eq, ?_, ?_, ?_⟩⟩
    · rw [State.put, hout]
      exact if_pos (by rw [length_fill (h.length_le d rfl), hcnt]; exact hlt)
    · rw [hcnt, List.length_append, List.length_singleton, ulong_of_lt (by omega)]
    · rw [hcnt, hset]
      rfl
    · rintro d' ⟨⟩
      rw [List.length_append, List.length_singleton]
      exact hlt

theorem Reading.overflow_iff {d : List Byte} (h : Reading dest source o l s)
    (hsmall : Small dest source) (hd : d ∈ dest) {len : ℕ} (hlen : o.length + len < 2 ^ 32) :
    s.outlen < ulong (s.outcnt + len) ↔ d.length < o.length + len := by
  have hout : s.out = some (o ++ d.drop o.length) := by rw [h.out_eq, hd, Option.map_some]
  rw [h.outcnt_of_mem hsmall hd, ulong_of_lt hlen, State.outlen, hout, Option.getD_some,
    length_fill (h.length_le d hd)]

theorem Reading.full_iff (h : Reading dest source o l s) (hsmall : Small dest source) :
    (s.out.isSome = true ∧ s.outcnt = s.outlen) ↔ ∃ d ∈ dest, o.length = d.length := by
  cases hdest : dest with
  | none =>
    have hout : s.out = none := by rw [h.out_eq, hdest, Option.map_none]
    rw [hout]
    exact ⟨nofun, nofun⟩
  | some d =>
    have hout : s.out = some (o ++ d.drop o.length) := by rw [h.out_eq, hdest, Option.map_some]
    rw [State.outlen, hout, Option.getD_some, length_fill (h.length_le d hdest),
      h.outcnt_of_mem hsmall hdest]
    exact ⟨fun hfull => ⟨d, rfl, hfull.2⟩, by rintro ⟨d', ⟨⟩, hfull⟩; exact ⟨rfl, hfull⟩⟩

theorem length_repeated {dist : ℕ} (hpos : 0 < dist) (hdist : dist ≤ o.length) (len : ℕ) :
    (repeated dist len o).length = o.length + len := by
  induction len generalizing o with
  | zero => rfl
  | succ len ih =>
    have hlt : o.length - dist < o.length := by omega
    rw [repeated, List.getElem?_eq_getElem hlt, Option.toList_some, ih]
    · rw [List.length_append, List.length_singleton]
      omega
    · rw [List.length_append, List.length_singleton]
      omega

theorem Reading.copy_eq {dist len : ℕ} {d : List Byte} (h : Reading (some d) source o l s)
    (hsmall : Small (some d) source) (hpos : 0 < dist) (hdist : dist ≤ o.length)
    (hroom : o.length + len ≤ d.length) :
    ∃ s', copy dist len s = .ok s' ∧ Reading (some d) source (repeated dist len o) l s' := by
  induction len generalizing o s with
  | zero => exact ⟨s, rfl, h⟩
  | succ len ih =>
    have hlt : o.length - dist < o.length := by omega
    have hcnt := h.outcnt_of_mem hsmall rfl
    have hget : s.out.bind (·[s.outcnt - dist]?) = some o[o.length - dist] := by
      rw [h.out_eq, hcnt, Option.map_some, Option.bind_some, List.getElem?_append_left hlt,
        List.getElem?_eq_getElem hlt]
    obtain ⟨s', hput, h'⟩ := h.put_eq hsmall
      (by rintro d' ⟨⟩; omega) o[o.length - dist]
    have hlen : (o ++ [o[o.length - dist]]).length = o.length + 1 := by
      rw [List.length_append, List.length_singleton]
    rw [copy, hget, repeated, List.getElem?_eq_getElem hlt]
    simp only [hput, ok_bind, Option.toList_some]
    exact ih h' (by omega) (by omega)

theorem Reading.copyBytes_eq {dist len : ℕ} (h : Reading dest source o l s)
    (hsmall : Small dest source) (hpos : 0 < dist) (hdist : dist ≤ o.length)
    (hroom : ∀ d ∈ dest, o.length + len ≤ d.length) :
    ∃ s', copyBytes s dist len = .ok (none, s') ∧
      Reading dest source (repeated dist len o) l s' := by
  cases hdest : dest with
  | none =>
    subst hdest
    have hout : s.out = none := h.out_eq
    refine ⟨{ s with outcnt := ulong (s.outcnt + len) }, by rw [copyBytes, hout]; rfl,
      ⟨⟨h.sound.bitcnt_lt, h.sound.bitbuf_lt, h.sound.incnt_le⟩, h.in_eq, h.pending_eq, ?_,
        h.out_eq, nofun⟩⟩
    rw [h.outcnt_eq, length_repeated hpos hdist]
    exact Nat.mod_add_mod _ _ _
  | some d =>
    subst hdest
    have hle := hroom d rfl
    have hlt := hsmall.dest_le d rfl
    obtain ⟨s', hcopy, h'⟩ := h.copy_eq hsmall hpos hdist hle
    have hout : s.out = some (o ++ d.drop o.length) := h.out_eq
    have hoverflow : ¬ s.outlen < ulong (s.outcnt + len) := by
      rw [h.overflow_iff hsmall rfl (by omega)]
      exact hle.not_gt
    refine ⟨s', ?_, h'⟩
    rw [copyBytes, hout]
    simp only [if_neg hoverflow, hcopy]
    rfl

theorem Reading.copyBytes_outcome {bad : Prop} {dist len : ℕ} (h : Reading dest source o l s)
    (hsmall : Small dest source) (hpos : 0 < dist) (hdist : dist ≤ o.length) (hlen : len < 2 ^ 16) :
    Outcome dest bad (fun err s' =>
      (err = none ∧ Reading dest source (repeated dist len o) l s') ∨
      ∃ e, err = some e ∧ e ≠ 0 ∧ Bounded dest source s') (copyBytes s dist len) := by
  by_cases hroom : ∀ d ∈ dest, o.length + len ≤ d.length
  · obtain ⟨s', hcopy, h'⟩ := h.copyBytes_eq hsmall hpos hdist hroom
    rw [hcopy]
    exact .ok (.inl ⟨rfl, h'⟩)
  · simp only [not_forall, Nat.not_le] at hroom
    obtain ⟨d, hd, hlt⟩ := hroom
    have hle := h.length_le d hd
    have hmax := hsmall.dest_le d hd
    have hout : s.out = some (o ++ d.drop o.length) := by rw [h.out_eq, hd, Option.map_some]
    have hfull := (h.overflow_iff hsmall hd (by omega)).mpr hlt
    rw [copyBytes, hout]
    simp only [if_pos hfull]
    exact .ok (.inr ⟨1, rfl, one_ne_zero, h.bounded⟩)

end Output

section Symbols

variable {dest : Option (List Byte)} {source o : List Byte} {l : List Bool} {s : State}
  {lencodes distcodes : List ℕ} {lencode distcode : Huffman}

theorem entry_of_getElem? {table : List ℕ} {i n : ℕ} (h : table[i]? = some n) :
    entry table i = .ok n := by rw [entry, h]

theorem exists_entry (table : List ℕ) {i : ℕ} (h : i < table.length) :
    ∃ n, table[i]? = some n ∧ entry table i = .ok n :=
  ⟨_, List.getElem?_eq_getElem h, entry_of_getElem? (List.getElem?_eq_getElem h)⟩

theorem dists_pos {j d : ℕ} (h : dists[j]? = some d) : 0 < d := by
  have hall : ∀ d ∈ dists, 0 < d := by decide
  exact hall d (List.mem_of_getElem? h)

theorem len_add_extra_le {i len e x : ℕ} (hlen : lens[i]? = some len) (hext : lext[i]? = some e)
    (hx : x < 2 ^ e) : len + x ≤ 258 := by
  have hall : ∀ p ∈ lens.zip lext, p.1 + 2 ^ p.2 ≤ 259 := by decide
  have hmem : len + 2 ^ e ≤ 259 :=
    hall (len, e) (List.mem_of_getElem? (List.getElem?_zip_eq_some.mpr ⟨hlen, hext⟩))
  omega

theorem bounds_of_copyBits {i len dist : ℕ} {w : List Bool} (h : CopyBits distcodes i len dist w) :
    len ≤ 258 ∧ 0 < dist := by
  obtain ⟨hlen, hext, hx, -, hdist, -, -⟩ := h
  exact ⟨len_add_extra_le hlen hext hx, Nat.add_pos_left (dists_pos hdist) _⟩

theorem Reading.copyString_outcome {bad : Prop} (ht : Table distcodes distcode)
    (hcodes : distcodes.length ≤ MAXDCODES) (h : Reading dest source o l s)
    (hsmall : Small dest source) (i : ℕ) :
    Outcome dest bad (fun err s' =>
      (err = none ∧ ∃ len dist w l', CopyBits distcodes i len dist w ∧ dist ≤ o.length ∧
        l = w ++ l' ∧ Reading dest source (repeated dist len o) l' s') ∨
      ∃ e, err = some e ∧ e ≠ 0 ∧ Bounded dest source s') (copyString s i distcode) := by
  rw [copyString]
  by_cases hi : 29 ≤ i
  · rw [if_pos hi]
    exact .ok (.inr ⟨-9, rfl, by decide, h.bounded⟩)
  · obtain ⟨e, hext, hentry⟩ := exists_entry lext (Nat.lt_of_not_le hi)
    obtain ⟨len, hlen, hentry'⟩ := exists_entry lens (Nat.lt_of_not_le hi)
    rw [if_neg hi, hentry, ok_bind]
    refine (h.bits_outcome e).bind ?_
    rintro x s₁ ⟨hx, l₁, rfl, h₁⟩
    simp only [hentry', ok_bind]
    refine (h₁.decode_outcome ht).bind ?_
    rintro symbol s₂ (⟨j, w, l₂, rfl, hw, rfl, h₂⟩ | ⟨rfl, -, hbounded, -⟩)
    · have hj : j < MAXDCODES := (symbol_lt hw).trans_le hcodes
      obtain ⟨e', hext', hentry⟩ := exists_entry dext hj
      obtain ⟨d, hdist, hentry'⟩ := exists_entry dists hj
      simp only [if_neg (Int.natCast_nonneg j).not_gt, Int.toNat_natCast, hentry, ok_bind]
      refine (h₂.bits_outcome e').bind ?_
      rintro x' s₃ ⟨hx', l₃, rfl, h₃⟩
      simp only [hentry', ok_bind]
      by_cases hfar : s₃.outcnt < d + x'
      · rw [if_pos hfar]
        exact .ok (.inr ⟨-10, rfl, by decide, h₃.bounded⟩)
      · rw [if_neg hfar]
        have hback : d + x' ≤ o.length := by
          rw [h₃.outcnt_eq] at hfar
          exact (Nat.le_of_not_lt hfar).trans (Nat.mod_le _ _)
        have hbits := CopyBits.mk hlen hext hx hw hdist hext' hx'
        have hle := len_add_extra_le hlen hext hx
        refine (h₃.copyBytes_outcome hsmall (bounds_of_copyBits hbits).2 hback
          (by omega)).mono id ?_
        rintro err s' (⟨rfl, h'⟩ | herr)
        · refine .inl ⟨rfl, _, _, _, l₃, hbits, hback, ?_, h'⟩
          rw [List.append_assoc, List.append_assoc]
        · exact .inr herr
    · exact .ok (.inr ⟨-9, rfl, by decide, hbounded⟩)

theorem Reading.copyString_eq (hfit : Fitting distcodes) (ht : Table distcodes distcode)
    {i len dist : ℕ} {w : List Bool} (hbits : CopyBits distcodes i len dist w)
    (h : Reading dest source o (w ++ l) s) (hsmall : Small dest source) (hdist : dist ≤ o.length)
    (hfits : Fits dest (o.length + len)) :
    ∃ s', copyString s i distcode = .ok (none, s') ∧
      Reading dest source (repeated dist len o) l s' := by
  have hbounds := bounds_of_copyBits hbits
  obtain @⟨len, e, x, j, d, e', x', w', hlen, hext, hx, hw, hd, hext', hx'⟩ := hbits
  have hi : i < 29 := (List.getElem?_eq_some_iff.mp hlen).1
  rw [List.append_assoc, List.append_assoc] at h
  obtain ⟨s₁, hbits₁, h₁⟩ := h.bits_eq hx
  obtain ⟨s₂, hdecode, h₂⟩ := h₁.decode_eq hfit ht hw
  obtain ⟨s₃, hbits₃, h₃⟩ := h₂.bits_eq hx'
  obtain ⟨s₄, hcopy, h₄⟩ := h₃.copyBytes_eq hsmall hbounds.2 hdist hfits.length_le
  have hlt := hfits.lt
  have hnear : ¬ s₃.outcnt < d + x' := by
    rw [h₃.outcnt_eq, ulong_of_lt (by omega)]
    exact hdist.not_gt
  refine ⟨s₄, ?_, h₄⟩
  rw [copyString, if_neg (Nat.not_le.mpr hi), entry_of_getElem? hext, ok_bind, hbits₁]
  simp only [ok_bind, entry_of_getElem? hlen, hdecode, if_neg (Int.natCast_nonneg _).not_gt,
    Int.toNat_natCast, entry_of_getElem? hext', hbits₃, entry_of_getElem? hd, if_neg hnear, hcopy]

def Ended (dest : Option (List Byte)) (source : List Byte) (part : List Byte → List Bool → Prop)
    (err : ℤ) (s : State) : Prop :=
  (err = 0 ∧ ∃ o l, part o l ∧ Reading dest source o l s) ∨ err ≠ 0 ∧ Bounded dest source s

theorem Reading.codes_outcome {bad : Prop} (ht : Table lencodes lencode)
    (ht' : Table distcodes distcode) (hcodes : distcodes.length ≤ MAXDCODES)
    (hsmall : Small dest source) {fuel : ℕ} (hfuel : l.length < fuel)
    (h : Reading dest source o l s) :
    Outcome dest bad (Ended dest source (Tokens lencodes distcodes o l))
      (codes lencode distcode fuel s) := by
  induction fuel generalizing o l s with
  | zero => exact absurd hfuel (Nat.not_lt_zero _)
  | succ fuel ih =>
    rw [codes]
    refine (h.decode_outcome ht).bind ?_
    rintro symbol s₁ (⟨n, w, l₁, rfl, hw, rfl, h₁⟩ | ⟨rfl, -, hbounded, -⟩)
    · have hpos := hw.length_pos
      rw [List.length_append] at hfuel
      simp only [if_neg (Int.natCast_nonneg n).not_gt]
      by_cases hlt : (n : ℤ) < 256
      · rw [if_pos hlt]
        by_cases hfull : s₁.out.isSome = true ∧ s₁.outcnt = s₁.outlen
        · rw [if_pos hfull]
          exact .ok (.inr ⟨one_ne_zero, h₁.bounded⟩)
        · have hroom : ∀ d ∈ dest, o.length < d.length := by
            intro d hd
            have hne := mt (h₁.full_iff hsmall).mpr hfull
            exact (h₁.length_le d hd).lt_of_ne fun heq => hne ⟨d, hd, heq⟩
          obtain ⟨s₂, hput, h₂⟩ := h₁.put_eq hsmall hroom (BitVec.ofInt 8 n)
          have hbyte : (BitVec.ofInt 8 n).toNat = n := by
            rw [BitVec.ofInt_natCast, BitVec.toNat_ofNat]
            omega
          rw [if_neg hfull, hput, ok_bind]
          refine (ih (by omega) h₂).mono id ?_
          rintro err s' (⟨rfl, o', l', htokens, h'⟩ | herr)
          · rw [← hbyte] at hw
            exact .inl ⟨rfl, o', l', .literal hw htokens, h'⟩
          · exact .inr herr
      · rw [if_neg hlt]
        by_cases hgt : (256 : ℤ) < n
        · obtain ⟨i, rfl⟩ : ∃ i, n = 257 + i := ⟨n - 257, by omega⟩
          have hi : (((257 + i : ℕ) : ℤ) - 257).toNat = i := by omega
          rw [if_pos hgt, hi]
          refine (h₁.copyString_outcome ht' hcodes hsmall i).bind ?_
          rintro err s₂ (⟨rfl, len, dist, w', l₂, hbits, hdist, rfl, h₂⟩ | ⟨e, rfl, he, hbounded⟩)
          · rw [List.length_append] at hfuel
            refine (ih (by omega) h₂).mono id ?_
            rintro err s' (⟨rfl, o', l', htokens, h'⟩ | herr)
            · exact .inl ⟨rfl, o', l', .string hw hbits hdist htokens, h'⟩
            · exact .inr herr
          · exact .ok (.inr ⟨he, hbounded⟩)
        · have hend : n = 256 := by omega
          rw [if_neg hgt]
          rw [hend] at hw
          exact .ok (.inl ⟨rfl, o, l₁, .done hw, h₁⟩)
    · exact .ok (.inr ⟨by decide, hbounded⟩)

theorem length_le_of_tokens {o' : List Byte} {l' : List Bool}
    (h : Tokens lencodes distcodes o l o' l') : o.length ≤ o'.length := by
  induction h with
  | done _ => exact Nat.le_refl _
  | literal _ _ ih =>
    rw [List.length_append] at ih
    omega
  | string _ hbits hdist _ ih =>
    rw [length_repeated (bounds_of_copyBits hbits).2 hdist] at ih
    omega

theorem Reading.codes_eq (hfit : Fitting lencodes) (ht : Table lencodes lencode)
    (hfit' : Fitting distcodes) (ht' : Table distcodes distcode) (hsmall : Small dest source)
    {fuel : ℕ} (hfuel : l.length < fuel) {o' : List Byte} {l' : List Bool}
    (htokens : Tokens lencodes distcodes o l o' l') (hfits : Fits dest o'.length)
    (h : Reading dest source o l s) :
    ∃ s', codes lencode distcode fuel s = .ok (0, s') ∧ Reading dest source o' l' s' := by
  induction htokens generalizing s fuel with
  | done hw =>
    obtain ⟨fuel, rfl⟩ := Nat.exists_eq_add_one_of_ne_zero (Nat.ne_zero_of_lt hfuel)
    obtain ⟨s₁, hdecode, h₁⟩ := h.decode_eq hfit ht hw
    refine ⟨s₁, ?_, h₁⟩
    rw [codes, hdecode]
    rfl
  | @literal o o' w l l' b hw htokens ih =>
    obtain ⟨fuel, rfl⟩ := Nat.exists_eq_add_one_of_ne_zero (Nat.ne_zero_of_lt hfuel)
    obtain ⟨s₁, hdecode, h₁⟩ := h.decode_eq hfit ht hw
    have hb : (b.toNat : ℤ) < 256 := Int.ofNat_lt.mpr b.isLt
    have hlen := length_le_of_tokens htokens
    have hpos := hw.length_pos
    rw [List.length_append, List.length_singleton] at hlen
    rw [List.length_append] at hfuel
    have hroom : ∀ d ∈ dest, o.length < d.length := fun d hd =>
      hlen.trans (hfits.length_le d hd)
    have hfull : ¬ (s₁.out.isSome = true ∧ s₁.outcnt = s₁.outlen) := by
      rw [h₁.full_iff hsmall]
      rintro ⟨d, hd, heq⟩
      exact (hroom d hd).ne heq
    obtain ⟨s₂, hput, h₂⟩ := h₁.put_eq hsmall hroom b
    have hbyte : BitVec.ofInt 8 (b.toNat : ℤ) = b := by
      rw [BitVec.ofInt_natCast, BitVec.ofNat_toNat, BitVec.setWidth_eq]
    obtain ⟨s₃, hcodes, h₃⟩ := @ih s₂ fuel (by omega) hfits h₂
    refine ⟨s₃, ?_, h₃⟩
    rw [codes, hdecode, ok_bind]
    simp only [if_neg (Int.natCast_nonneg _).not_gt, if_pos hb]
    rw [if_neg hfull, hbyte, hput, ok_bind, hcodes]
  | @string o o' w w' l l' i len dist hw hbits hdist htokens ih =>
    obtain ⟨fuel, rfl⟩ := Nat.exists_eq_add_one_of_ne_zero (Nat.ne_zero_of_lt hfuel)
    obtain ⟨s₁, hdecode, h₁⟩ := h.decode_eq hfit ht hw
    have hlen := length_le_of_tokens htokens
    have hpos := hw.length_pos
    rw [length_repeated (bounds_of_copyBits hbits).2 hdist] at hlen
    rw [List.length_append, List.length_append] at hfuel
    obtain ⟨s₂, hcopy, h₂⟩ := h₁.copyString_eq hfit' ht' hbits hsmall hdist (hfits.mono hlen)
    obtain ⟨s₃, hcodes, h₃⟩ := @ih s₂ fuel (by omega) hfits h₂
    have hi : (((257 + i : ℕ) : ℤ) - 257).toNat = i := by omega
    have hge : ¬ ((257 + i : ℕ) : ℤ) < 256 := by omega
    have hgt : (256 : ℤ) < ((257 + i : ℕ) : ℤ) := by omega
    refine ⟨s₃, ?_, h₃⟩
    rw [codes, hdecode, ok_bind]
    simp only [if_neg (Int.natCast_nonneg _).not_gt, if_neg hge, if_pos hgt]
    rw [hi, hcopy, ok_bind]
    exact hcodes

end Symbols

end NaviMisc.Metalkit.Puff
