import NaviMisc.Lib.PrefixCode
import NaviMisc.Metalkit.Puff

/-!
What `bits` and both variants of `decode` of metalkit/lib/puff.c take from the input, and the tables
that `construct` makes of the lengths of the codes.
-/

namespace NaviMisc.Metalkit.Puff

open Lib.ByteOrder (Byte)
open Lib.PrefixCode

/-- The bits of a number of `k` bits, the lowest one first. -/
def lowBits (n k : ℕ) : List Bool := (List.range k).map n.testBit

def byteBits (l : List Byte) : List Bool := l.flatMap fun b => lowBits b.toNat 8

@[simp] theorem length_lowBits (n k : ℕ) : (lowBits n k).length = k := by
  rw [lowBits, List.length_map, List.length_range]

@[simp] theorem lowBits_zero (n : ℕ) : lowBits n 0 = [] := rfl

theorem lowBits_add (n j k : ℕ) : lowBits n (j + k) = lowBits n j ++ lowBits (n >>> j) k := by
  rw [lowBits, List.range_add, List.map_append, List.map_map]
  congr 1
  apply List.map_congr_left
  intro i _
  rw [Function.comp_apply, Nat.testBit_shiftRight]

theorem lowBits_succ (n k : ℕ) : lowBits n (k + 1) = n.testBit 0 :: lowBits (n >>> 1) k := by
  rw [Nat.add_comm, lowBits_add]
  rfl

theorem lowBits_or {n j : ℕ} (h : n < 2 ^ j) (m k : ℕ) :
    lowBits (n ||| m <<< j) (j + k) = lowBits n j ++ lowBits m k := by
  rw [lowBits_add]
  congr 1
  · apply List.map_congr_left
    intro i hi
    have hlt := List.mem_range.mp hi
    simp [Nat.testBit_or, Nat.testBit_shiftLeft, hlt]
  · apply List.map_congr_left
    intro i _
    have hzero : n.testBit (j + i) = false :=
      Nat.testBit_lt_two_pow (h.trans_le (Nat.pow_le_pow_right Nat.two_pos (Nat.le_add_right _ _)))
    simp [Nat.testBit_or, Nat.testBit_shiftLeft, Nat.testBit_shiftRight, hzero]

theorem lowBits_mod (n k : ℕ) : lowBits (n % 2 ^ k) k = lowBits n k := by
  apply List.map_congr_left
  intro i hi
  simp [Nat.testBit_mod_two_pow, List.mem_range.mp hi]

theorem lowBits_inj {n m k : ℕ} (hn : n < 2 ^ k) (hm : m < 2 ^ k)
    (h : lowBits n k = lowBits m k) : n = m := by
  apply Nat.eq_of_testBit_eq
  intro i
  by_cases hi : i < k
  · exact List.map_inj_left.mp h i (List.mem_range.mpr hi)
  · have hle := Nat.pow_le_pow_right Nat.two_pos (Nat.le_of_not_lt hi)
    rw [Nat.testBit_lt_two_pow (hn.trans_le hle), Nat.testBit_lt_two_pow (hm.trans_le hle)]

@[simp] theorem byteBits_nil : byteBits [] = [] := rfl

@[simp] theorem byteBits_cons (b : Byte) (l : List Byte) :
    byteBits (b :: l) = lowBits b.toNat 8 ++ byteBits l := List.flatMap_cons

@[simp] theorem byteBits_append (l l' : List Byte) :
    byteBits (l ++ l') = byteBits l ++ byteBits l' := List.flatMap_append

@[simp] theorem length_byteBits (l : List Byte) : (byteBits l).length = 8 * l.length := by
  induction l with
  | nil => rfl
  | cons b l ih =>
    rw [byteBits_cons, List.length_append, length_lowBits, ih, List.length_cons]
    omega

namespace State

variable (s : State)

def pending : List Bool := lowBits s.bitbuf s.bitcnt ++ byteBits (s.in_.drop s.incnt)

structure Sound : Prop where
  bitcnt_lt : s.bitcnt < 8
  bitbuf_lt : s.bitbuf < 2 ^ s.bitcnt
  incnt_le : s.incnt ≤ s.inlen

structure Same (s' : State) : Prop where
  in_eq : s'.in_ = s.in_
  out_eq : s'.out = s.out
  outcnt_eq : s'.outcnt = s.outcnt

structure At (l : List Bool) (s' : State) : Prop extends Same s s' where
  sound : s'.Sound
  pending_eq : s'.pending = l

variable {s}

theorem Same.refl (s : State) : s.Same s := ⟨rfl, rfl, rfl⟩

theorem Same.trans {s' s'' : State} (h : s.Same s') (h' : s'.Same s'') : s.Same s'' :=
  ⟨h'.in_eq.trans h.in_eq, h'.out_eq.trans h.out_eq, h'.outcnt_eq.trans h.outcnt_eq⟩

theorem Same.at_ {s' s'' : State} {l : List Bool} (h : s.Same s') (h' : s'.At l s'') : s.At l s'' :=
  ⟨h.trans h'.toSame, h'.sound, h'.pending_eq⟩

theorem length_pending (h : s.incnt ≤ s.inlen) :
    s.pending.length + 8 * s.incnt = s.bitcnt + 8 * s.inlen := by
  rw [pending, List.length_append, length_lowBits, length_byteBits, List.length_drop]
  rw [inlen] at h ⊢
  omega

theorem At.unique {l : List Bool} {s' s'' : State} (h : s.At l s') (h' : s.At l s'') :
    s' = s'' := by
  have hlen := length_pending h.sound.incnt_le
  have hlen' := length_pending h'.sound.incnt_le
  have hcnt := h.sound.bitcnt_lt
  have hcnt' := h'.sound.bitcnt_lt
  have hpending := h.pending_eq.trans h'.pending_eq.symm
  rw [inlen, h.in_eq, h.pending_eq] at hlen
  rw [inlen, h'.in_eq, h'.pending_eq] at hlen'
  have hbitcnt : s'.bitcnt = s''.bitcnt := by omega
  have hincnt : s'.incnt = s''.incnt := by omega
  have hbitbuf : s'.bitbuf = s''.bitbuf := by
    rw [pending, pending] at hpending
    have hbits := List.append_inj_left hpending (by rw [length_lowBits, length_lowBits, hbitcnt])
    have hlt := h'.sound.bitbuf_lt
    rw [← hbitcnt] at hbits hlt
    exact lowBits_inj h.sound.bitbuf_lt hlt hbits
  have hin := h.in_eq.trans h'.in_eq.symm
  have hout := h.out_eq.trans h'.out_eq.symm
  have houtcnt := h.outcnt_eq.trans h'.outcnt_eq.symm
  cases s'
  cases s''
  simp only at hbitcnt hincnt hbitbuf hin hout houtcnt
  rw [hbitcnt, hincnt, hbitbuf, hin, hout, houtcnt]

theorem next_eq {b : Byte} {l : List Byte} (h : s.in_.drop s.incnt = b :: l) :
    s.next = .ok (b, { s with incnt := s.incnt + 1 }) ∧ s.in_.drop (s.incnt + 1) = l ∧
      s.incnt < s.inlen := by
  have hget : s.in_[s.incnt]? = some b := by
    rw [← List.head?_drop, h, List.head?_cons]
  obtain ⟨hlt, -⟩ := List.getElem?_eq_some_iff.mp hget
  refine ⟨by rw [next, hget], ?_, hlt⟩
  rw [← List.drop_drop, h, List.drop_one, List.tail_cons]

theorem drop_eq_nil_iff (h : s.incnt ≤ s.inlen) : s.in_.drop s.incnt = [] ↔ s.incnt = s.inlen := by
  rw [List.drop_eq_nil_iff]
  exact ⟨fun hle => Nat.le_antisymm h hle, fun heq => Nat.le_of_eq heq.symm⟩

end State

open State

variable {s : State}

theorem load_spec {need fuel : ℕ} (hbuf : s.bitbuf < 2 ^ s.bitcnt) (hin : s.incnt ≤ s.inlen)
    (hcnt : s.bitcnt < need + 8) (hfuel : need ≤ s.bitcnt + fuel) :
    (∃ s', load need fuel s = .ok s' ∧ s.Same s' ∧ s'.bitbuf < 2 ^ s'.bitcnt ∧
      s'.incnt ≤ s'.inlen ∧ need ≤ s'.bitcnt ∧ s'.bitcnt < need + 8 ∧ s'.pending = s.pending) ∨
    (load need fuel s = .error (.longjmp s.out) ∧ s.pending.length < need) := by
  induction fuel generalizing s with
  | zero => exact .inl ⟨s, rfl, .refl s, hbuf, hin, hfuel, hcnt, rfl⟩
  | succ fuel ih =>
    rw [load]
    by_cases hneed : s.bitcnt < need
    · rw [if_pos hneed]
      cases hrest : s.in_.drop s.incnt with
      | nil =>
        rw [if_pos ((drop_eq_nil_iff hin).mp hrest), State.pending, hrest, byteBits_nil,
          List.append_nil, length_lowBits]
        exact .inr ⟨rfl, hneed⟩
      | cons b l =>
        obtain ⟨hnext, hdrop, hlt⟩ := next_eq hrest
        rw [if_neg hlt.ne, hnext]
        let t : State := { s with
          incnt := s.incnt + 1
          bitbuf := s.bitbuf ||| b.toNat <<< s.bitcnt
          bitcnt := s.bitcnt + 8 }
        have hpending : t.pending = s.pending := by
          rw [State.pending, State.pending, hrest, hdrop, byteBits_cons, ← List.append_assoc]
          congr 1
          exact lowBits_or hbuf _ _
        have hpow : s.bitbuf ||| b.toNat <<< s.bitcnt < 2 ^ (s.bitcnt + 8) := by
          apply Nat.or_lt_two_pow
          · exact hbuf.trans_le (Nat.pow_le_pow_right Nat.two_pos (Nat.le_add_right _ _))
          · rw [Nat.shiftLeft_eq, Nat.add_comm, Nat.pow_add]
            exact Nat.mul_lt_mul_of_pos_right b.isLt (Nat.two_pow_pos _)
        have hstep := @ih t hpow hlt (by simp only [t]; omega) (by simp only [t]; omega)
        rw [hpending] at hstep
        obtain ⟨s', hload, hsame, hrest⟩ | hend := hstep
        · exact .inl ⟨s', hload, ⟨hsame.in_eq, hsame.out_eq, hsame.outcnt_eq⟩, hrest⟩
        · exact .inr hend
    · rw [if_neg hneed]
      exact .inl ⟨s, rfl, .refl s, hbuf, hin, Nat.le_of_not_lt hneed, hcnt, rfl⟩

theorem bits_spec (hs : s.Sound) (need : ℕ) :
    (∃ v s' l, bits s need = .ok (v, s') ∧ v < 2 ^ need ∧ s.At l s' ∧
      s.pending = lowBits v need ++ l) ∨
    (bits s need = .error (.longjmp s.out) ∧ s.pending.length < need) := by
  have hcnt := hs.bitcnt_lt
  obtain ⟨t, hload, hsame, hbuf, hin, hle, hlt, hpending⟩ | ⟨hload, hend⟩ :=
    load_spec hs.bitbuf_lt hs.incnt_le (Nat.lt_add_left need hcnt) (Nat.le_add_left _ _)
  · left
    have hvalue : t.bitbuf &&& (1 <<< need - 1) = t.bitbuf % 2 ^ need := by
      rw [Nat.one_shiftLeft, Nat.and_two_pow_sub_one_eq_mod]
    have hsplit : need + (t.bitcnt - need) = t.bitcnt := by omega
    refine ⟨t.bitbuf % 2 ^ need, { t with bitbuf := t.bitbuf >>> need, bitcnt := t.bitcnt - need },
      _, ?_, Nat.mod_lt _ (Nat.two_pow_pos _),
      ⟨⟨hsame.in_eq, hsame.out_eq, hsame.outcnt_eq⟩, ⟨?_, ?_, hin⟩, rfl⟩, ?_⟩
    · rw [bits, hload, ← hvalue]
      rfl
    · exact Nat.sub_lt_left_of_lt_add hle hlt
    · rw [Nat.shiftRight_eq_div_pow]
      apply Nat.div_lt_of_lt_mul
      rw [← Nat.pow_add, hsplit]
      exact hbuf
    · rw [← hpending, State.pending, State.pending, lowBits_mod, ← List.append_assoc, ← lowBits_add,
        hsplit]
  · right
    refine ⟨?_, hend⟩
    rw [bits, hload]
    rfl

theorem bits_complete (hs : s.Sound) {v need : ℕ} {l : List Bool} (hv : v < 2 ^ need)
    (hl : s.pending = lowBits v need ++ l) : ∃ s', bits s need = .ok (v, s') ∧ s.At l s' := by
  obtain ⟨v', s', l', hbits, hv', hat, hpending⟩ | ⟨-, hend⟩ := bits_spec hs need
  · obtain ⟨hlow, rfl⟩ := List.append_inj (hpending.symm.trans hl)
      ((length_lowBits _ _).trans (length_lowBits _ _).symm)
    exact ⟨s', by rw [hbits, lowBits_inj hv' hv hlow], hat⟩
  · rw [hl, List.length_append, length_lowBits] at hend
    omega

@[simp] theorem ok_bind {α β : Type} (a : α) (f : α → Except Stop β) :
    (Except.ok a >>= f) = f a := rfl

@[simp] theorem error_bind {α β : Type} (e : Stop) (f : α → Except Stop β) :
    (Except.error e >>= f) = .error e := rfl

theorem bits_one_spec (hs : s.Sound) :
    (∃ (b : Bool) (s' : State) (l : List Bool), bits s 1 = .ok (b.toNat, s') ∧ s.At l s' ∧
      s.pending = b :: l) ∨
    (bits s 1 = .error (.longjmp s.out) ∧ s.pending = []) := by
  obtain ⟨v, s', l, hbits, hv, hat, hpending⟩ | ⟨hbits, hend⟩ := bits_spec hs 1
  · left
    refine ⟨v.testBit 0, s', l, ?_, hat, hpending⟩
    rw [hbits, Nat.toNat_testBit]
    congr
    omega
  · exact .inr ⟨hbits, List.length_eq_zero_iff.mp (by omega)⟩

theorem two_mul_or_toNat (p : ℕ) (b : Bool) : 2 * p ||| b.toNat = 2 * p + b.toNat := by
  have hlt : b.toNat < 2 ^ 1 := b.toNat_lt
  have hshift : 2 * p = p <<< 1 := by rw [Nat.shiftLeft_eq, Nat.mul_comm, Nat.pow_one]
  rw [hshift, Nat.shiftLeft_add_eq_or_of_lt hlt]

/-- What `decode` makes of the walk through the words. If there is no word, only the position in the
input is as behind the bits that were tried. -/
def Walked (h : Huffman) (s : State) (result : Except Stop (ℤ × State)) :
    Option (Option ℕ × List Bool) → Prop
  | none => result = .error (.longjmp s.out)
  | some (none, l) =>
    ∃ s' s'', result = .ok (-9, s') ∧ s.Same s' ∧ s'.Sound ∧ s.At l s'' ∧ s'.incnt = s''.incnt
  | some (some pos, l) =>
    if pos < h.capacity then ∃ s', result = .ok (h.symbol pos, s') ∧ s.At l s'
    else result = .error .fault

theorem Walked.same {h : Huffman} {s' : State} {result : Except Stop (ℤ × State)}
    {found : Option (Option ℕ × List Bool)} (hsame : s.Same s') (hw : Walked h s' result found) :
    Walked h s result found := by
  obtain - | ⟨- | pos, l⟩ := found
  · exact hw.trans (by rw [hsame.out_eq])
  · obtain ⟨t, t', hresult, hsame', hsound, hat, hincnt⟩ := hw
    exact ⟨t, t', hresult, hsame.trans hsame', hsound, hsame.at_ hat, hincnt⟩
  · rw [Walked] at hw ⊢
    split_ifs at hw ⊢
    · obtain ⟨t, hresult, hat⟩ := hw
      exact ⟨t, hresult, hsame.at_ hat⟩
    · exact hw

theorem decodeSlow_walk (h : Huffman) {n k p first index : ℕ} (hs : s.Sound) :
    Walked h s (decodeSlow h n s (k + 1) (2 * p) first index)
      (walk h.count n k (2 * p) first index s.pending) := by
  induction n generalizing s k p first index with
  | zero => exact ⟨s, s, rfl, .refl s, hs, ⟨.refl s, hs, rfl⟩, rfl⟩
  | succ n ih =>
    rw [decodeSlow]
    obtain ⟨b, s', l, hbits, hat, hpending⟩ | ⟨hbits, hend⟩ := bits_one_spec hs
    · rw [hbits, hpending, walk, ok_bind]
      simp only [two_mul_or_toNat]
      by_cases hlt : 2 * p + b.toNat < first + h.count (k + 1)
      · rw [if_pos hlt, if_pos hlt, Walked]
        by_cases hcap : index + (2 * p + b.toNat - first) < h.capacity
        · rw [if_pos hcap, if_pos hcap]
          exact ⟨s', rfl, hat⟩
        · rw [if_neg hcap, if_neg hcap]
          rfl
      · rw [if_neg hlt, if_neg hlt]
        have hstep := @ih s' (k + 1) (2 * p + b.toNat) (2 * (first + h.count (k + 1)))
          (index + h.count (k + 1)) hat.sound
        rw [hat.pending_eq] at hstep
        rw [Nat.shiftLeft_eq, Nat.shiftLeft_eq, Nat.pow_one, Nat.mul_comm _ 2, Nat.mul_comm _ 2]
        exact hstep.same hat.toSame
    · rw [hbits, hend]
      rfl

theorem decodeLoop_walk (h : Huffman) {n bitbuf r k p first index : ℕ} (hr : r < 8)
    (hbuf : bitbuf < 2 ^ r) (hs : s.Sound) (hmod : ((s.bitcnt : ℤ) - k) % 8 = r) :
    Walked h s (decodeLoop h n s bitbuf (min r n) (k + 1) (2 * p) first index)
      (walk h.count n k (2 * p) first index
        (lowBits bitbuf r ++ byteBits (s.in_.drop s.incnt))) := by
  induction n generalizing s bitbuf r k p first index with
  | zero => exact ⟨s, ⟨s.out, s.outcnt, s.in_, s.incnt, bitbuf, r⟩, rfl, .refl s, hs,
      ⟨⟨rfl, rfl, rfl⟩, ⟨hr, hbuf, hs.incnt_le⟩, rfl⟩, rfl⟩
  | succ n ih =>
    -- one bit of `r + 1` in the buffer, from a state that has the byte already
    have hbit : ∀ (t : State) (buf r : ℕ), s.Same t → t.Sound → t.bitcnt = s.bitcnt →
        r < 8 → buf < 2 ^ (r + 1) → ((s.bitcnt : ℤ) - (k + 1 : ℕ)) % 8 = r →
        Walked h s
          (if (2 * p ||| buf &&& 1) < first + h.count (k + 1) then
            if index + ((2 * p ||| buf &&& 1) - first) < h.capacity then
              .ok (h.symbol (index + ((2 * p ||| buf &&& 1) - first)), { t with
                bitbuf := buf >>> 1, bitcnt := (((t.bitcnt : ℤ) - (k + 1 : ℕ)) % 8).toNat })
            else .error .fault
          else decodeLoop h n t (buf >>> 1) (min r n) (k + 1 + 1)
            ((2 * p ||| buf &&& 1) <<< 1) ((first + h.count (k + 1)) <<< 1)
            (index + h.count (k + 1)))
          (walk h.count (n + 1) k (2 * p) first index
            (lowBits buf (r + 1) ++ byteBits (t.in_.drop t.incnt))) := by
      intro t buf r hsame ht hcnt hr hbuf hmod
      have hlow : buf &&& 1 = (buf.testBit 0).toNat := by
        rw [Nat.toNat_testBit, Nat.and_one_is_mod, Nat.pow_zero, Nat.div_one]
      have hshift : buf >>> 1 < 2 ^ r := by
        rw [Nat.shiftRight_eq_div_pow]
        rw [Nat.pow_succ] at hbuf
        omega
      rw [hlow, two_mul_or_toNat, lowBits_succ, List.cons_append, walk]
      by_cases hlt : 2 * p + (buf.testBit 0).toNat < first + h.count (k + 1)
      · rw [if_pos hlt, if_pos hlt, Walked]
        split_ifs with hcap
        · refine ⟨_, rfl, ⟨⟨hsame.in_eq, hsame.out_eq, hsame.outcnt_eq⟩, ?_, ?_⟩⟩
          · rw [hcnt, hmod]
            exact ⟨hr, hshift, ht.incnt_le⟩
          · rw [State.pending, hcnt, hmod]
            rfl
        · rfl
      · rw [if_neg hlt, if_neg hlt, Nat.shiftLeft_eq, Nat.shiftLeft_eq, Nat.pow_one,
          Nat.mul_comm _ 2, Nat.mul_comm _ 2]
        rw [← hcnt] at hmod
        exact (ih hr hshift ht hmod).same hsame
    rw [decodeLoop]
    cases r with
    | zero =>
      rw [Nat.zero_min, if_pos rfl]
      cases hrest : s.in_.drop s.incnt with
      | nil =>
        rw [if_pos ((drop_eq_nil_iff hs.incnt_le).mp hrest), lowBits_zero]
        rfl
      | cons b l =>
        obtain ⟨hnext, hdrop, hlt⟩ := next_eq hrest
        have hleft : min (n + 1) 8 - 1 = min 7 n := by omega
        have hstep := hbit { s with incnt := s.incnt + 1 } b.toNat 7 ⟨rfl, rfl, rfl⟩
          ⟨hs.bitcnt_lt, hs.bitbuf_lt, hlt⟩ rfl (by decide) b.isLt (by omega)
        rw [if_neg hlt.ne, hnext]
        rw [← hleft, hdrop] at hstep
        exact hstep
    | succ r =>
      have hleft : min (r + 1) (n + 1) - 1 = min r n := by omega
      have hstep := hbit s bitbuf r (.refl s) hs rfl (by omega) hbuf (by omega)
      rw [if_neg (by omega)]
      rw [← hleft] at hstep
      exact hstep

theorem decode_walk (h : Huffman) (hs : s.Sound) :
    Walked h s (decode s h) (walk h.count MAXBITS 0 0 0 0 s.pending) := by
  have hcnt := hs.bitcnt_lt
  have hmin : min s.bitcnt MAXBITS = s.bitcnt := by rw [MAXBITS]; omega
  have hwalk := @decodeLoop_walk s h MAXBITS s.bitbuf s.bitcnt 0 0 0 0 hcnt hs.bitbuf_lt
    hs (by omega)
  rw [hmin] at hwalk
  exact hwalk

inductive Agree : Except Stop (ℤ × State) → Except Stop (ℤ × State) → Prop
  | symbol {n : ℤ} {s : State} : Agree (.ok (n, s)) (.ok (n, s))
  | none {s s' : State} : s.Same s' → s.incnt = s'.incnt → Agree (.ok (-9, s)) (.ok (-9, s'))
  | stop {stop : Stop} : Agree (.error stop) (.error stop)

/-- With each table both variants read the same symbol from the same bits, or stop alike. -/
theorem decode_agrees (h : Huffman) (hs : s.Sound) :
    Agree (decode s h) (decodeSlow h MAXBITS s 1 0 0 0) := by
  have hfast := decode_walk h hs
  have hslow := @decodeSlow_walk s h MAXBITS 0 0 0 0 hs
  generalize walk h.count MAXBITS 0 0 0 0 s.pending = found at hfast hslow
  obtain - | ⟨- | pos, l⟩ := found
  · rw [Walked] at hfast
    rw [hfast, hslow]
    exact .stop
  · obtain ⟨s₁, t₁, hdecode, hsame, -, hat, hincnt⟩ := hfast
    obtain ⟨s₂, t₂, hdecodeSlow, hsame', -, hat', hincnt'⟩ := hslow
    rw [hdecode, hdecodeSlow]
    refine .none ⟨?_, ?_, ?_⟩ ?_
    · rw [hsame'.in_eq, hsame.in_eq]
    · rw [hsame'.out_eq, hsame.out_eq]
    · rw [hsame'.outcnt_eq, hsame.outcnt_eq]
    · rw [hincnt, hincnt', hat.unique hat']
  · rw [Walked] at hfast hslow
    by_cases hcap : pos < h.capacity
    · rw [if_pos hcap] at hfast hslow
      obtain ⟨s₁, hdecode, hat⟩ := hfast
      obtain ⟨s₂, hdecodeSlow, hat'⟩ := hslow
      rw [hdecode, hdecodeSlow, hat'.unique hat]
      exact .symbol
    · rw [if_neg hcap] at hfast hslow
      rw [hfast, hslow]
      exact .stop

theorem decode_agrees_incomplete :
    Agree (decode ⟨none, 0, [255, 1], 0, 0, 0⟩ ⟨fun _ => 0, fun _ => 0, 1⟩)
      (decodeSlow ⟨fun _ => 0, fun _ => 0, 1⟩ MAXBITS ⟨none, 0, [255, 1], 0, 0, 0⟩ 1 0 0 0) :=
  decode_agrees _ ⟨by decide, by decide, by decide⟩

def shorts (lengths : List ℕ) : List ℤ := lengths.map (Nat.cast : ℕ → ℤ)

@[simp] theorem length_shorts (lengths : List ℕ) : (shorts lengths).length = lengths.length :=
  List.length_map _

structure Table (lengths : List ℕ) (h : Huffman) : Prop where
  count_eq : h.count = lengths.count
  sorted : Sorted lengths MAXBITS h.symbol
  length_le : lengths.length ≤ h.capacity

section Construct

variable {lengths : List ℕ}

theorem foldlM_countLength (hle : ∀ a ∈ lengths, a ≤ MAXBITS) (count : ℕ → ℕ) :
    (shorts lengths).foldlM countLength count = .ok fun k => count k + lengths.count k := by
  induction lengths generalizing count with
  | nil => rfl
  | cons a l ih =>
    have ha : (0 : ℤ) ≤ a ∧ (a : ℤ) ≤ MAXBITS :=
      ⟨Int.natCast_nonneg a, Int.ofNat_le.mpr (hle a List.mem_cons_self)⟩
    rw [shorts, List.map_cons, List.foldlM_cons, countLength, if_pos ha, ok_bind]
    refine (ih (fun b hb => hle b (List.mem_cons_of_mem _ hb)) _).trans ?_
    congr 1
    funext k
    rw [Int.toNat_natCast, List.count_cons]
    by_cases hk : k = a
    · subst hk
      rw [Function.update_self, if_pos (beq_self_eq_true k)]
      omega
    · rw [Function.update_of_ne hk, if_neg (by simpa using Ne.symm hk)]
      omega

theorem checkLengths_spec (count : ℕ → ℕ) :
    (checkLengths count < 0 ↔ left count MAXBITS < 0) ∧
      (0 ≤ left count MAXBITS → checkLengths count = left count MAXBITS) := by
  rw [checkLengths]
  induction MAXBITS with
  | zero => exact ⟨Iff.rfl, fun _ => rfl⟩
  | succ n ih =>
    obtain ⟨hneg, heq⟩ := ih
    rw [List.range'_concat, List.foldl_append, List.foldl_cons, List.foldl_nil, left, Nat.one_mul,
      Nat.add_comm 1 n]
    split_ifs with hlt
    · have hleft := hneg.mp hlt
      constructor
      · omega
      · omega
    · rw [heq (by omega)]
      exact ⟨Iff.rfl, fun _ => rfl⟩

theorem offsets_eq (count : ℕ → ℕ) {k : ℕ} (hk : k < MAXBITS) :
    offsets count (k + 1) = index count k := by
  have hk' : k ≤ MAXBITS - 1 := Nat.le_sub_one_of_lt hk
  rw [offsets]
  generalize MAXBITS - 1 = n at hk'
  induction n generalizing k with
  | zero =>
    rw [Nat.le_zero.mp hk']
    rfl
  | succ n ih =>
    rw [List.range'_concat, List.foldl_append, List.foldl_cons, List.foldl_nil, Nat.one_mul,
      Nat.add_comm 1 n]
    obtain hlt | rfl := Nat.lt_or_eq_of_le hk'
    · rw [Function.update_of_ne (by omega)]
      exact ih (by omega) (Nat.le_of_lt_succ hlt)
    · rw [Function.update_self, ih (by omega) (Nat.le_refl _), index]

structure Placed (lengths : List ℕ) (m : ℕ) (offs symbols : ℕ → ℕ) : Prop where
  offs_eq : ∀ k < MAXBITS,
    offs (k + 1) = index lengths.count k + (lengths.take m).count (k + 1)
  symbols_eq : ∀ k < MAXBITS, ∀ s < m, lengths[s]? = some (k + 1) →
    symbols (position lengths k s) = s

theorem index_le_length (k : ℕ) : index lengths.count k ≤ lengths.length :=
  (Nat.le_add_right _ _).trans (index_add_count_zero_le k)

theorem sortSymbol_spec {m a capacity : ℕ} {offs symbols : ℕ → ℕ} (hget : lengths[m]? = some a)
    (ha : a ≤ MAXBITS) (hcap : lengths.length ≤ capacity) (h : Placed lengths m offs symbols) :
    ∃ offs' symbols', sortSymbol capacity (offs, symbols) ((a : ℤ), m) = .ok (offs', symbols') ∧
      Placed lengths (m + 1) offs' symbols' := by
  obtain ⟨hm, hget'⟩ := List.getElem?_eq_some_iff.mp hget
  have htake : lengths.take (m + 1) = lengths.take m ++ [a] := by
    rw [List.take_succ_eq_append_getElem hm, hget']
  cases a with
  | zero =>
    refine ⟨offs, symbols, rfl, ⟨?_, ?_⟩⟩
    · intro k hk
      rw [h.offs_eq k hk, htake, List.count_append, List.count_singleton]
      rfl
    · intro k hk s hs hsym
      obtain hlt | rfl := Nat.lt_succ_iff_lt_or_eq.mp hs
      · exact h.symbols_eq k hk s hlt hsym
      · cases hget.symm.trans hsym
  | succ j =>
    have hj : j < MAXBITS := ha
    have hoffs : offs (j + 1) = position lengths j m := h.offs_eq j hj
    have hlt : offs (j + 1) < capacity := by
      rw [hoffs]
      exact (position_lt hget).trans_le ((index_le_length _).trans hcap)
    have hne : ((j + 1 : ℕ) : ℤ) ≠ 0 := Int.natCast_ne_zero.mpr (Nat.succ_ne_zero j)
    refine ⟨_, _, by rw [sortSymbol, if_neg hne, Int.toNat_natCast, if_pos hlt], ⟨?_, ?_⟩⟩
    · intro k hk
      rw [htake, List.count_append, List.count_singleton]
      by_cases hkj : k = j
      · subst hkj
        rw [Function.update_self, h.offs_eq k hk, if_pos (beq_self_eq_true _)]
        omega
      · rw [Function.update_of_ne (by omega), h.offs_eq k hk,
          if_neg (by simpa using Ne.symm hkj)]
        omega
    · intro k hk s hs hsym
      rw [hoffs]
      obtain hlt | rfl := Nat.lt_succ_iff_lt_or_eq.mp hs
      · rw [Function.update_of_ne (position_ne hsym hget hlt)]
        exact h.symbols_eq k hk s hlt hsym
      · cases hget.symm.trans hsym
        rw [Function.update_self]

theorem foldlM_sortSymbol {capacity : ℕ} (hle : ∀ a ∈ lengths, a ≤ MAXBITS)
    (hcap : lengths.length ≤ capacity) {suffix : List ℕ} {m : ℕ} {offs symbols : ℕ → ℕ}
    (hsuffix : lengths.drop m = suffix) (h : Placed lengths m offs symbols) :
    ∃ offs' symbols',
      ((shorts suffix).zipIdx m).foldlM (sortSymbol capacity) (offs, symbols) =
        .ok (offs', symbols') ∧ Sorted lengths MAXBITS symbols' := by
  induction suffix generalizing m offs symbols with
  | nil =>
    refine ⟨offs, symbols, rfl, ?_⟩
    intro k hk s hs
    obtain ⟨hlt, -⟩ := List.getElem?_eq_some_iff.mp hs
    exact h.symbols_eq k hk s (hlt.trans_le (List.drop_eq_nil_iff.mp hsuffix)) hs
  | cons a l ih =>
    have hget : lengths[m]? = some a := by rw [← List.head?_drop, hsuffix, List.head?_cons]
    have hdrop : lengths.drop (m + 1) = l := by
      rw [← List.drop_drop, hsuffix, List.drop_one, List.tail_cons]
    obtain ⟨offs', symbols', hstep, hplaced⟩ :=
      sortSymbol_spec hget (hle a (List.mem_of_getElem? hget)) hcap h
    rw [shorts, List.map_cons, List.zipIdx_cons, List.foldlM_cons, hstep, ok_bind]
    exact ih hdrop hplaced

theorem construct_spec (h : Huffman) (hle : ∀ a ∈ lengths, a ≤ MAXBITS)
    (hcap : lengths.length ≤ h.capacity) :
    ∃ err h', construct h (shorts lengths) = .ok (err, h') ∧ h'.count = lengths.count ∧
      (err < 0 ↔ left lengths.count MAXBITS < 0) ∧
      (err = 0 ↔ lengths.count 0 = lengths.length ∨ left lengths.count MAXBITS = 0) ∧
      (0 ≤ err → Table lengths h') ∧ h'.capacity = h.capacity := by
  have hcount : (shorts lengths).foldlM countLength (fun _ => 0) = .ok lengths.count := by
    rw [foldlM_countLength hle]
    simp only [Nat.zero_add]
  obtain ⟨hneg, heq⟩ := checkLengths_spec lengths.count
  rw [construct, hcount, ok_bind, length_shorts]
  by_cases hzero : lengths.count 0 = lengths.length
  · have hall : ∀ a ∈ lengths, 0 = a := List.count_eq_length.mp hzero
    have hnone : ∀ k, lengths.count (k + 1) = 0 := by
      intro k
      apply List.count_eq_zero_of_not_mem
      intro hmem
      exact absurd (hall _ hmem) (Nat.succ_ne_zero k).symm
    have hleft : ∀ k, 0 < left lengths.count k := by
      intro k
      induction k with
      | zero => exact Int.one_pos
      | succ k ih =>
        rw [left, hnone]
        omega
    have hpos := hleft MAXBITS
    rw [if_pos hzero]
    refine ⟨0, _, rfl, rfl, by omega, ⟨fun _ => .inl hzero, fun _ => rfl⟩,
      fun _ => ⟨rfl, ?_, hcap⟩, rfl⟩
    intro k _ s hs
    exact absurd (hall _ (List.mem_of_getElem? hs)) (Nat.succ_ne_zero k).symm
  · rw [if_neg hzero]
    by_cases hlt : checkLengths lengths.count < 0
    · have hleft := hneg.mp hlt
      simp only [if_pos hlt]
      refine ⟨_, _, rfl, rfl, hneg, ?_, ?_, rfl⟩
      · omega
      · omega
    · have hplaced : Placed lengths 0 (offsets lengths.count) h.symbol := by
        refine ⟨fun k hk => ?_, fun k _ s hs => absurd hs (Nat.not_lt_zero s)⟩
        rw [offsets_eq _ hk, List.take_zero, List.count_nil, Nat.add_zero]
      obtain ⟨offs, symbols, hsort, hsorted⟩ := foldlM_sortSymbol hle hcap List.drop_zero hplaced
      simp only [if_neg hlt]
      rw [hsort, ok_bind, heq (by omega)]
      exact ⟨_, _, rfl, rfl, Iff.rfl, by simp only [hzero, false_or], fun _ => ⟨rfl, hsorted, hcap⟩,
        rfl⟩

end Construct

section Decode

structure Fitting (lengths : List ℕ) : Prop where
  le : ∀ a ∈ lengths, a ≤ MAXBITS
  left_nonneg : 0 ≤ left lengths.count MAXBITS

variable {lengths : List ℕ} {h : Huffman} {s : State}

theorem decode_codeword (hfit : Fitting lengths) (ht : Table lengths h) (hs : s.Sound)
    {symbol : ℕ} {w l : List Bool} (hw : Codeword lengths symbol w) (hl : s.pending = w ++ l) :
    ∃ s', decode s h = .ok ((symbol : ℤ), s') ∧ s.At l s' := by
  obtain ⟨pos, hwalk, hsymbol⟩ := walk_codeword hfit.le hfit.left_nonneg ht.sorted hw (l := l)
  obtain ⟨hpos, -⟩ := codeword_of_walk ht.sorted hwalk
  have hdecode := decode_walk h hs
  rw [ht.count_eq, hl, hwalk, Walked, if_pos (hpos.trans_le ht.length_le), hsymbol] at hdecode
  exact hdecode

theorem symbol_lt {symbol : ℕ} {w : List Bool} (hw : Codeword lengths symbol w) :
    symbol < lengths.length := by
  obtain ⟨k, hk, -⟩ := hw
  exact (List.getElem?_eq_some_iff.mp hk).1

theorem decode_spec (ht : Table lengths h) (hs : s.Sound) :
    (∃ (symbol : ℕ) (w l : List Bool) (s' : State), decode s h = .ok ((symbol : ℤ), s') ∧
      Codeword lengths symbol w ∧ s.pending = w ++ l ∧ s.At l s') ∨
    (∃ s', decode s h = .ok (-9, s') ∧ s.Same s' ∧ s'.Sound ∧
      left lengths.count MAXBITS ≠ 0) ∨
    decode s h = .error (.longjmp s.out) := by
  have hdecode := decode_walk h hs
  rw [ht.count_eq] at hdecode
  cases hwalk : walk lengths.count MAXBITS 0 0 0 0 s.pending with
  | none =>
    rw [hwalk] at hdecode
    exact .inr (.inr hdecode)
  | some found =>
    obtain ⟨- | pos, l⟩ := found
    · rw [hwalk] at hdecode
      obtain ⟨s', -, hresult, hsame, hsound, -⟩ := hdecode
      refine .inr (.inl ⟨s', hresult, hsame, hsound, ?_⟩)
      intro hleft
      exact walk_complete (k := 0) (p := 0) hleft (Nat.add_zero _) Nat.one_pos (Nat.le_refl _) _ _
        hwalk
    · obtain ⟨hpos, w, hw, hl⟩ := codeword_of_walk ht.sorted hwalk
      rw [hwalk, Walked, if_pos (hpos.trans_le ht.length_le)] at hdecode
      obtain ⟨s', hresult, hat⟩ := hdecode
      exact .inl ⟨h.symbol pos, w, l, s', hresult, hw, hl, hat⟩

end Decode

end NaviMisc.Metalkit.Puff
