import NaviMisc.Therm.Frame

/-!
What the functions of the receiver do while the bits that they count are in the buffer.
-/

namespace NaviMisc.Therm.Receiver

open NaviMisc.Lib
open NaviMisc.Lib.Bits
open NaviMisc.Lib.BitLists
open NaviMisc.Lib.BitStuffing

def data (r : Receiver) : List Byte := r.buffer.drop 6

def stored (r : Receiver) (n : ℕ) : List Bool := firstBits r.data n

def headerWord (r : Receiver) (i : ℕ) : ℕ :=
  (r.buffer.getD (2 * i) 0).toNat + 256 * (r.buffer.getD (2 * i + 1) 0).toNat

variable {r : Receiver} {c n : ℕ}

section Access

theorem load_eq {i : ℕ} (hi : i < r.buffer.length) : r.load i = .ok (r.buffer.getD i 0) := by
  rw [load, bufferSize, if_pos (by omega), Int.toNat_natCast]

theorem store_eq {i : ℕ} (hi : i < r.buffer.length) (v : Byte) :
    r.store i v = .ok { r with buffer := r.buffer.set i v } := by
  rw [store, bufferSize, if_pos (by omega), Int.toNat_natCast]

theorem offset_eq (i : ℕ) : HEADER_SIZE + (i : ℤ) >>> (3 : ℕ) = ((6 + i / 8 : ℕ) : ℤ) := by
  rw [HEADER_SIZE, Int.shiftRight_eq_div_pow]
  push_cast
  rfl

theorem mask_eq (i : ℕ) : 1#8 <<< ((i : ℤ) % 8).toNat = 1#8 <<< (i % 8) := by
  have hmod : ((i : ℤ) % 8).toNat = i % 8 := by omega
  rw [hmod]

theorem getD_data (r : Receiver) (i : ℕ) : r.data.getD i 0 = r.buffer.getD (6 + i) 0 := by
  simp [data, Nat.add_comm]

end Access

theorem appendBit_of_full (hlen : r.buffer.length = 6 + c) (hn : r.bufferedBits = n)
    (hfull : 8 * c ≤ n) (b : Bool) : r.appendBit b = .ok r := by
  rw [appendBit, hn, offset_eq, bufferSize, hlen, if_pos]
  omega

theorem appendBit_of_lt (hlen : r.buffer.length = 6 + c) (hn : r.bufferedBits = n)
    (hroom : n < 8 * c) (b : Bool) :
    r.appendBit b = .ok { r with
      buffer := r.buffer.take 6 ++ putBit r.data n b, bufferedBits := int16 (n + 1) } := by
  have hlt : 6 + n / 8 < r.buffer.length := by omega
  have hset : r.buffer.set (6 + n / 8) (setBit (r.buffer.getD (6 + n / 8) 0) (n % 8) b) =
      r.buffer.take 6 ++ putBit r.data n b := by
    have hlength : (r.buffer.take 6).length = 6 := by simp [hlen]
    conv_lhs => rw [← List.take_append_drop 6 r.buffer]
    rw [List.set_append_right _ _ (by omega), hlength, Nat.add_sub_cancel_left, putBit, getD_data,
      List.take_append_drop]
    rfl
  rw [appendBit, hn, offset_eq, mask_eq, bufferSize, if_neg (by omega), load_eq hlt]
  dsimp only [bind, Except.bind]
  rw [store_eq hlt, ← hset, setBit]
  dsimp only
  rw [hn]

theorem getBit_eq (hlen : r.buffer.length = 6 + c) (hc : r.bufferedBits ≤ (8 * c : ℕ)) {i : ℕ}
    (hi : (i : ℤ) < r.bufferedBits) : r.getBit i = .ok (wordsBit r.data i) := by
  have hlt : 6 + i / 8 < r.buffer.length := by omega
  rw [getBit, if_neg (by omega), offset_eq, mask_eq, load_eq hlt, wordsBit, getD_data]
  change Except.ok (decide ((r.buffer.getD (6 + i / 8) 0 &&& 1#8 <<< (i % 8)) ≠ 0#8)) = _
  simp only [ne_eq, and_one_shiftLeft_eq_zero_iff _ (Nat.mod_lt i (by omega : 8 > 0)),
    Bool.not_eq_false, Bool.decide_eq_true]

theorem overBits_eq {σ : Type} (hlen : r.buffer.length = 6 + c)
    (hc : r.bufferedBits ≤ (8 * c : ℕ)) {a width : ℕ}
    (h : ((a + width : ℕ) : ℤ) ≤ r.bufferedBits) (f : σ → Bool → σ) (s : σ) :
    r.overBits a width f s = .ok (((r.stored (a + width)).drop a).foldl f s) := by
  rw [overBits, Int.toNat_natCast]
  induction width with
  | zero =>
    rw [List.drop_eq_nil_of_le (by simp [stored])]
    rfl
  | succ width ih =>
    rw [List.range_succ, List.foldlM_append, ih (by omega)]
    have hbit : r.getBit ((a : ℤ) + (width : ℕ)) = .ok (wordsBit r.data (a + width)) :=
      getBit_eq hlen hc (i := a + width) (by omega)
    have hstored : (r.stored (a + (width + 1))).drop a =
        (r.stored (a + width)).drop a ++ [wordsBit r.data (a + width)] := by
      rw [stored, ← Nat.add_assoc, firstBits_succ, List.drop_append_of_le_length (by simp)]
      rfl
    rw [hstored, List.foldl_append]
    change (do let s ← (do .ok (f _ (← r.getBit ((a : ℤ) + (width : ℕ)))) : Except Fault σ)
               .ok s) = _
    rw [hbit]
    rfl

theorem getCrc16_eq (hlen : r.buffer.length = 6 + c) (hc : r.bufferedBits ≤ (8 * c : ℕ))
    (h : (n : ℤ) ≤ r.bufferedBits) : r.getCrc16 0 n = .ok (crc16 (r.stored n)) := by
  have hbits : r.overBits 0 n crcStep 0 = .ok (((r.stored (0 + n)).drop 0).foldl crcStep 0) :=
    overBits_eq hlen hc (by rwa [Nat.zero_add]) crcStep 0
  rw [getCrc16, hbits, Nat.zero_add, List.drop_zero, crc16, List.foldl_append]
  rfl

theorem getInt_eq (hlen : r.buffer.length = 6 + c) (hc : r.bufferedBits ≤ (8 * c : ℕ))
    (h : ((n + 16 : ℕ) : ℤ) ≤ r.bufferedBits) :
    r.getInt n 16 = .ok (gather 16 ((r.stored (n + 16)).drop n)) := by
  have hbits : r.overBits n 16 collect (0#16, 1#16) = _ := overBits_eq hlen hc h collect _
  rw [getInt, hbits]
  exact congrArg (fun s => Except.ok s.1) (foldl_collect 16 _)

theorem validContent_stored (r : Receiver) (h : 22 ≤ n) :
    validContent (r.stored n) =
      if crc16 (r.stored (n - 22)) = gather 16 ((r.stored (n - 22 + 16)).drop (n - 22)) then
        some (r.stored (n - 22))
      else none := by
  have htake : (r.stored n).take (n - 22) = r.stored (n - 22) := take_firstBits _ (Nat.sub_le n 22)
  have hcheck : ((r.stored n).drop (n - 22)).take 16 =
      (r.stored (n - 22 + 16)).drop (n - 22) := by
    rw [List.take_drop, stored, take_firstBits _ (by omega), stored]
  have hlength : (r.stored n).length = n := length_firstBits _ n
  rw [validContent, hlength, htake, hcheck]
  simp only [h, true_and]

def putWord (i : ℕ) (v : BitVec 16) (buffer : List Byte) : List Byte :=
  (buffer.set (2 * i) (v.setWidth 8)).set (2 * i + 1) ((v >>> 8).setWidth 8)

@[simp] theorem length_putWord (i : ℕ) (v : BitVec 16) (buffer : List Byte) :
    (putWord i v buffer).length = buffer.length := by
  rw [putWord, List.length_set, List.length_set]

theorem getD_putWord (v : BitVec 16) (buffer : List Byte) {i j : ℕ} (h : j < 2 * i) :
    (putWord i v buffer).getD j 0 = buffer.getD j 0 := by
  have h₀ : 2 * i ≠ j := by omega
  have h₁ : 2 * i + 1 ≠ j := by omega
  simp [putWord, List.getElem?_set_ne h₀, List.getElem?_set_ne h₁]

theorem drop_putWord (v : BitVec 16) (buffer : List Byte) {i : ℕ} (h : i < 3) :
    (putWord i v buffer).drop 6 = buffer.drop 6 := by
  rw [putWord, List.drop_set_of_lt (by omega), List.drop_set_of_lt (by omega)]

def header (n noise total : BitVec 16) (buffer : List Byte) : List Byte :=
  putWord 2 total (putWord 1 noise (putWord 0 n buffer))

theorem storeWord_eq {i : ℕ} (hi : 2 * i + 1 < r.buffer.length) (v : BitVec 16) :
    r.storeWord i v = .ok { r with buffer := putWord i v r.buffer } := by
  have hlow : r.store (2 * (i : ℤ)) (v.setWidth 8) = _ := store_eq (i := 2 * i) (by omega) _
  rw [storeWord, hlow]
  exact store_eq (i := 2 * i + 1) (by rwa [List.length_set]) _

theorem storeHeader_eq (h : 6 ≤ r.buffer.length) (v : BitVec 16) :
    (do
      let r ← r.storeWord 0 v
      let r ← r.storeWord 1 r.totalNoise
      let r ← r.storeWord 2 r.totalBits
      .ok (HEADER_SIZE + (r.bufferedBits + 7 : ℤ) >>> (3 : ℕ), r) : Except Fault (ℤ × Receiver)) =
        .ok (HEADER_SIZE + (r.bufferedBits + 7 : ℤ) >>> (3 : ℕ),
          { r with buffer := header v r.totalNoise r.totalBits r.buffer }) := by
  have h₀ : r.storeWord 0 v = .ok { r with buffer := putWord 0 v r.buffer } :=
    storeWord_eq (i := 0) (by omega) v
  have h₁ (r : Receiver) (h : 6 ≤ r.buffer.length) (v : BitVec 16) :
      r.storeWord 1 v = .ok { r with buffer := putWord 1 v r.buffer } :=
    storeWord_eq (i := 1) (by omega) v
  have h₂ (r : Receiver) (h : 6 ≤ r.buffer.length) (v : BitVec 16) :
      r.storeWord 2 v = .ok { r with buffer := putWord 2 v r.buffer } :=
    storeWord_eq (i := 2) (by omega) v
  dsimp only [bind, Except.bind]
  rw [h₀]
  dsimp only
  rw [h₁ _ (by rwa [length_putWord])]
  dsimp only
  rw [h₂ _ (by rwa [length_putWord, length_putWord]), header]

theorem validateFrame_eq (hlen : r.buffer.length = 6 + c) (hn : r.bufferedBits = n)
    (hcap : n ≤ 8 * c) (h : 22 ≤ n) :
    r.validateFrame =
      if crc16 (r.stored (n - 22)) ≠ gather 16 ((r.stored (n - 22 + 16)).drop (n - 22)) then
        .ok (0, { r with bufferedBits := (n - 6 : ℕ) })
      else
        .ok (HEADER_SIZE + ((n - 22 + 7 : ℕ) : ℤ) >>> (3 : ℕ), { r with
          buffer := header (BitVec.ofNat 16 (n - 22)) r.totalNoise r.totalBits r.buffer
          bufferedBits := (n - 22 : ℕ) }) := by
  have hflag : r.bufferedBits - 6 = ((n - 6 : ℕ) : ℤ) := by omega
  have hcheck : ((n - 6 : ℕ) : ℤ) - 16 = ((n - 22 : ℕ) : ℤ) := by omega
  let r₁ : Receiver := { r with bufferedBits := ((n - 6 : ℕ) : ℤ) }
  have hc : r₁.bufferedBits ≤ (8 * c : ℕ) := by
    change ((n - 6 : ℕ) : ℤ) ≤ _
    omega
  have hcrc₁ : r₁.getCrc16 0 (n - 22 : ℕ) = .ok (crc16 (r.stored (n - 22))) :=
    getCrc16_eq (r := r₁) hlen hc (show ((n - 22 : ℕ) : ℤ) ≤ ((n - 6 : ℕ) : ℤ) by omega)
  have hint₁ : r₁.getInt (n - 22 : ℕ) 16 =
      .ok (gather 16 ((r.stored (n - 22 + 16)).drop (n - 22))) :=
    getInt_eq (r := r₁) hlen hc (show ((n - 22 + 16 : ℕ) : ℤ) ≤ ((n - 6 : ℕ) : ℤ) by omega)
  rw [validateFrame, if_neg (by omega)]
  dsimp only
  rw [hflag, hcheck, hcrc₁, hint₁]
  change (if _ then _ else _) = _
  split_ifs
  · rfl
  · rw [← BitVec.ofInt_natCast]
    exact storeHeader_eq (r := { r with bufferedBits := ((n - 22 : ℕ) : ℤ) })
      (show 6 ≤ r.buffer.length by omega) _

def Delivers (ret : ℤ) (r : Receiver) : Option (List Bool) → Prop
  | none => ret = 0
  | some content =>
    ret = HEADER_SIZE + ((content.length + 7) / 8 : ℕ) ∧ r.stored content.length = content ∧
      (content.length < 2 ^ 16 → r.headerWord 0 = content.length)

theorem Delivers.of_buffer {ret : ℤ} {r' : Receiver} {content : Option (List Bool)}
    (h : Delivers ret r content) (hbuffer : r'.buffer = r.buffer) : Delivers ret r' content := by
  cases content with
  | none => exact h
  | some content =>
    rw [Delivers, stored, data, headerWord, hbuffer]
    exact h

theorem headerWord_header (r : Receiver) (h : 6 ≤ r.buffer.length) (v noise total : BitVec 16) :
    headerWord { r with buffer := header v noise total r.buffer } 0 = v.toNat := by
  have hlow : (putWord 0 v r.buffer).getD 0 0 = v.setWidth 8 := by
    simp [putWord, show 0 < r.buffer.length by omega]
  have hhigh : (putWord 0 v r.buffer).getD 1 0 = (v >>> 8).setWidth 8 := by
    simp [putWord, show 1 < r.buffer.length by omega]
  have hkeeps (j : ℕ) (hj : j < 2) :
      (header v noise total r.buffer).getD j 0 = (putWord 0 v r.buffer).getD j 0 := by
    rw [header, getD_putWord _ _ (by omega), getD_putWord _ _ (by omega)]
  rw [headerWord]
  change ((header v noise total r.buffer).getD 0 0).toNat +
    256 * ((header v noise total r.buffer).getD 1 0).toNat = _
  rw [hkeeps 0 (by omega), hkeeps 1 (by omega), hlow, hhigh, BitVec.toNat_setWidth,
    BitVec.toNat_setWidth, BitVec.toNat_ushiftRight, Nat.shiftRight_eq_div_pow]
  omega

theorem stored_header (r : Receiver) (v noise total : BitVec 16) (n : ℕ) (z : ℤ) :
    stored { r with buffer := header v noise total r.buffer, bufferedBits := z } n =
      r.stored n := by
  rw [stored, stored, data, header, drop_putWord _ _ (by omega), drop_putWord _ _ (by omega),
    drop_putWord _ _ (by omega), data]

theorem validateFrame_spec (hlen : r.buffer.length = 6 + c) (hn : r.bufferedBits = n)
    (hcap : n ≤ 8 * c) :
    ∃ ret r', r.validateFrame = .ok (ret, r') ∧ r'.buffer.length = r.buffer.length ∧
      Delivers ret r' (validContent (r.stored n)) := by
  by_cases hshort : n < 22
  · have hnone : validContent (r.stored n) = none := by
      rw [validContent, if_neg]
      rw [show (r.stored n).length = n from length_firstBits _ n]
      omega
    refine ⟨0, r, ?_, rfl, ?_⟩
    · rw [validateFrame, hn, if_pos (by omega)]
    · rw [hnone]
      exact rfl
  · rw [validContent_stored r (by omega), validateFrame_eq hlen hn hcap (by omega)]
    have hlength : (r.stored (n - 22)).length = n - 22 := length_firstBits _ _
    by_cases hcrc : crc16 (r.stored (n - 22)) =
        gather 16 ((r.stored (n - 22 + 16)).drop (n - 22))
    · rw [if_pos hcrc, if_neg (not_not.mpr hcrc)]
      refine ⟨_, _, rfl, ?_, ?_, ?_, fun hlt => ?_⟩
      · simp [header]
      · rw [hlength, Int.shiftRight_eq_div_pow]
        push_cast
        rfl
      · rw [stored_header, hlength]
      · rw [hlength] at hlt ⊢
        refine (headerWord_header { r with bufferedBits := ((n - 22 : ℕ) : ℤ) }
          (show 6 ≤ r.buffer.length by omega) _ _ _).trans ?_
        rw [BitVec.toNat_ofNat, Nat.mod_eq_of_lt hlt]
    · rw [if_neg hcrc, if_pos hcrc]
      exact ⟨_, _, rfl, rfl, rfl⟩

section Push

open Deframer (keep)

theorem int16_of_lt {x : ℕ} (h : x < 2 ^ 15) : int16 x = x := by
  apply Int.bmod_eq_of_le_mul_two <;> omega

structure Holds (r : Receiver) (l : List Bool) : Prop where
  count : r.bufferedBits = l.length
  stored : r.stored l.length = l

theorem appendBit_spec {l : List Bool} (hlen : r.buffer.length = 6 + c) (h : r.Holds l)
    (hcap : l.length ≤ 8 * c) (hfit : l.length < 8 * c → l.length + 1 < 2 ^ 15) (b : Bool) :
    ∃ r', r.appendBit b = .ok r' ∧ r'.buffer.length = r.buffer.length ∧
      r'.consecutiveOnes = r.consecutiveOnes ∧ r'.Holds (keep (8 * c) l b) := by
  by_cases hroom : l.length < 8 * c
  · refine ⟨_, appendBit_of_lt hlen h.count hroom b, ?_, rfl, ?_, ?_⟩
    · simp [data, putBit, hlen]
    · have hcount := int16_of_lt (hfit hroom)
      rw [keep, if_pos hroom, List.length_append, List.length_singleton]
      push_cast at hcount ⊢
      exact hcount
    · have hdata : (r.buffer.take 6 ++ putBit r.data l.length b).drop 6 =
          putBit r.data l.length b := List.drop_left' (by simp [hlen])
      rw [keep, if_pos hroom, List.length_append, List.length_singleton, Receiver.stored, data,
        hdata, firstBits_putBit _ (by omega)]
      · exact congrArg (· ++ [b]) h.stored
      · simp only [data, List.length_drop, hlen]
        omega
  · have hfull : keep (8 * c) l b = l := if_neg hroom
    rw [hfull]
    exact ⟨r, appendBit_of_full hlen h.count (by omega) b, rfl, rfl, h⟩

structure Follows (r : Receiver) (d : Deframer) : Prop where
  ones : r.consecutiveOnes.toNat = d.ones
  holds : r.Holds d.stored

theorem holds_nil (hcount : r.bufferedBits = 0) : r.Holds [] := ⟨hcount, rfl⟩

theorem pushBit_spec {d : Deframer} (hlen : r.buffer.length = 6 + c) (h : r.Follows d)
    (hcap : d.stored.length ≤ 8 * c)
    (hfit : d.stored.length < 8 * c → d.stored.length + 1 < 2 ^ 15) (b : Bool) (noise : Byte) :
    ∃ ret r', r.pushBit b noise = .ok (ret, r') ∧ r'.buffer.length = r.buffer.length ∧
      r'.Follows (d.push RUN 256 (8 * c) b).2 ∧
        Delivers ret r' ((d.push RUN 256 (8 * c) b).1.bind validContent) := by
  obtain ⟨hones, hcount, hstored⟩ := h
  cases b with
  | true =>
    obtain ⟨r', hr', hlength, hsame, hholds⟩ := appendBit_spec (r := { r with
      totalBits := r.totalBits + 1, totalNoise := r.totalNoise + noise.setWidth 16
      consecutiveOnes := r.consecutiveOnes + 1 }) hlen ⟨hcount, hstored⟩ hcap hfit true
    refine ⟨0, r', ?_, hlength, ⟨?_, hholds⟩, rfl⟩
    · rw [pushBit, if_pos rfl]
      dsimp only
      rw [hr']
      rfl
    · rw [hsame, BitVec.toNat_add, hones]
      rfl
  | false =>
    have hof (n : Byte) : r.consecutiveOnes = n ↔ d.ones = n.toNat := by
      rw [← hones, BitVec.toNat_inj]
    obtain ⟨r', hr', hlength, -, hholds⟩ := appendBit_spec (r := { r with
      totalBits := r.totalBits + 1, totalNoise := r.totalNoise + noise.setWidth 16 })
      hlen ⟨hcount, hstored⟩ hcap hfit false
    rw [pushBit, if_neg Bool.false_ne_true, Deframer.push]
    dsimp only
    by_cases hthree : d.ones = RUN
    · rw [if_pos ((hof 3).mpr hthree), if_pos hthree]
      exact ⟨0, _, rfl, rfl, ⟨rfl, hcount, hstored⟩, rfl⟩
    rw [if_neg (mt (hof 3).mp hthree), if_neg hthree]
    by_cases hfour : d.ones = RUN + 1
    · rw [if_pos ((hof 4).mpr hfour), if_pos hfour, hr']
      obtain ⟨ret, r'', hr'', hlength'', hdelivers⟩ := validateFrame_spec (hlength.trans hlen)
        hholds.count (Deframer.length_keep_le hcap false)
      rw [hholds.stored] at hdelivers
      refine ⟨ret, { r'' with
        totalBits := 0, totalNoise := 0, bufferedBits := 0, consecutiveOnes := 0 }, ?_,
        hlength''.trans hlength, ⟨rfl, holds_nil rfl⟩, ?_⟩
      · dsimp only [bind, Except.bind]
        rw [hr'']
      · rw [Option.bind_some]
        exact hdelivers.of_buffer rfl
    · rw [if_neg (mt (hof 4).mp hfour), if_neg hfour, hr']
      exact ⟨0, _, rfl, hlength, ⟨rfl, hholds.count, hholds.stored⟩, rfl⟩

theorem receive_append (l : List (Bool × Byte)) (b : Bool × Byte) (r : Receiver) :
    r.receive (l ++ [b]) = (do let s ← r.receive l; s.2.pushBit b.1 b.2) := by
  rw [receive, List.foldlM_append]
  simp only [List.foldlM_cons, List.foldlM_nil, bind_pure]
  rfl

def Countable (c n : ℕ) : Prop := 8 * c < 2 ^ 15 ∨ n < 2 ^ 15

theorem receive_spec {d : Deframer} (hlen : r.buffer.length = 6 + c) (h : r.Follows d)
    (hcap : d.stored.length ≤ 8 * c) (l : List (Bool × Byte))
    (hcount : Countable c (d.stored.length + l.length)) :
    ∃ ret r', r.receive l = .ok (ret, r') ∧ r'.buffer.length = r.buffer.length ∧
      r'.Follows (d.feed RUN 256 (8 * c) (l.map Prod.fst)) ∧
        (d.feed RUN 256 (8 * c) (l.map Prod.fst)).stored.length ≤ d.stored.length + l.length := by
  induction l using List.reverseRec with
  | nil => exact ⟨0, r, rfl, rfl, h, Nat.le_refl _⟩
  | append_singleton l b ih =>
    rw [List.length_append, List.length_singleton] at hcount
    obtain ⟨ret, r₁, hr₁, hlength₁, hfollows, hstored⟩ := ih (hcount.imp_right (by omega))
    rw [List.map_append, List.map_singleton, Deframer.feed_append]
    generalize hd' : d.feed RUN 256 (8 * c) (l.map Prod.fst) = d' at *
    have hcap' : d'.stored.length ≤ 8 * c := hd' ▸ Deframer.feed_length hcap _
    obtain ⟨ret', r', hr', hlength', hfollows', -⟩ := pushBit_spec (hlength₁.trans hlen) hfollows
      hcap' (fun _ => hcount.elim (by omega) (by omega)) b.1 b.2
    refine ⟨ret', r', ?_, hlength'.trans hlength₁, hfollows', ?_⟩
    · rw [receive_append, hr₁]
      exact hr'
    · have hpush : (d'.push RUN 256 (8 * c) b.1).2.stored.length ≤ _ := d'.length_push_le b.1
      rw [List.length_append, List.length_singleton]
      exact hpush.trans (by omega)

end Push

end NaviMisc.Therm.Receiver
