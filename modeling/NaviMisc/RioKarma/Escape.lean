import NaviMisc.Lib.ByteOrder
import NaviMisc.Lib.Lists
import NaviMisc.Lib.Text

/-!
Escaped binary properties of `RioKarma/Property.py`. A `str` is a list of bytes.
-/

namespace NaviMisc.RioKarma.Property

open Lib.ByteOrder (Byte)
open Lib.Text (replace strip)

abbrev Str := List Byte

def NUL : Byte := 0x00
def NEWLINE : Byte := 0x0A
def BLANK : Byte := 0x20
def BACKSLASH : Byte := 0x5C
def LETTER_N : Byte := 0x6E
def LETTER_X : Byte := 0x78
def DIGIT_0 : Byte := 0x30

inductive Fault
  | valueError
  | structError
  | indexError
  | unicodeError
  deriving DecidableEq

def isSpace (c : Byte) : Bool := c = BLANK || (9 ≤ c.toNat && c.toNat ≤ 13)

def digit16 (c : Byte) : Option ℕ :=
  if 0x30 ≤ c.toNat ∧ c.toNat ≤ 0x39 then some (c.toNat - 0x30)
  else if 0x41 ≤ c.toNat ∧ c.toNat ≤ 0x46 then some (c.toNat - 0x37)
  else if 0x61 ≤ c.toNat ∧ c.toNat ≤ 0x66 then some (c.toNat - 0x57)
  else none

def digits16 : ℕ → Str → Option ℕ
  | n, [] => some n
  | n, c :: s => do digits16 (16 * n + (← digit16 c)) s

def number16 (s : Str) : Except Fault ℤ :=
  if s = [] then .error .valueError
  else match digits16 0 s with
    | some n => .ok n
    | none => .error .valueError

/-- `int(s, 16)` for at most two characters: a prefix `0x` would leave no digit. -/
def int16 (s : Str) : Except Fault ℤ :=
  match strip isSpace s with
  | [] => .error .valueError
  | c :: rest =>
    if c = 0x2B then number16 rest
    else if c = 0x2D then do return -(← number16 rest)
    else number16 (c :: rest)

def chr (n : ℤ) : Except Fault Byte :=
  if 0 ≤ n ∧ n < 256 then .ok (BitVec.ofInt 8 n) else .error .valueError

def fromSegment (segment : Str) : Except Fault Str :=
  match segment with
  | [] => .ok [BACKSLASH]
  | c :: rest =>
    if c = LETTER_X then do return (← chr (← int16 (rest.take 2))) :: rest.drop 2
    else .ok segment

def fromEscaped (s : Str) : Except Fault Str :=
  let s := replace [BACKSLASH, LETTER_N] [NEWLINE]
    (replace [BACKSLASH, LETTER_X, DIGIT_0, DIGIT_0] [NUL] s)
  match s.splitOn BACKSLASH with
  | [] => .ok []
  | first :: segments => do return first ++ (← segments.mapM fromSegment).flatten

def hexDigit (n : ℕ) : Byte := BitVec.ofNat 8 (if n < 10 then 0x30 + n else 0x37 + n)

def toEscapedChar (char : Byte) : Str :=
  if char = NEWLINE then [BACKSLASH, LETTER_N]
  else if char.toNat < 32 ∨ char.toNat = 127 then
    [BACKSLASH, LETTER_X, hexDigit (char.toNat / 16), hexDigit (char.toNat % 16)]
  else if char = BACKSLASH then [BACKSLASH, BACKSLASH]
  else [char]

def toEscaped (s : Str) : Str := s.flatMap toEscapedChar

section half

variable {c : Byte} {s : Str}

def half (s : Str) : Str :=
  replace [BACKSLASH, LETTER_N] [NEWLINE] (replace [BACKSLASH, LETTER_X, DIGIT_0, DIGIT_0] [NUL] s)

theorem half_cons (hc : c ≠ BACKSLASH) (s : Str) : half (c :: s) = c :: half s := by
  rw [half, Lib.Text.replace_cons, Lib.Text.replace_cons]
  · rfl
  · rw [List.cons_prefix_cons]
    exact fun h => hc h.1.symm
  · rw [List.cons_prefix_cons]
    exact fun h => hc h.1.symm

theorem half_zero (s : Str) :
    half (BACKSLASH :: LETTER_X :: DIGIT_0 :: DIGIT_0 :: s) = NUL :: half s := by
  have hmatch : replace [BACKSLASH, LETTER_X, DIGIT_0, DIGIT_0] [NUL]
      (BACKSLASH :: LETTER_X :: DIGIT_0 :: DIGIT_0 :: s) =
      NUL :: replace [BACKSLASH, LETTER_X, DIGIT_0, DIGIT_0] [NUL] s :=
    Lib.Text.replace_match (List.cons_ne_nil _ _) [NUL] s
  rw [half, hmatch]
  exact Lib.Text.replace_cons (by simp [BACKSLASH, NUL])

theorem half_backslash (hx : ¬[LETTER_X, DIGIT_0, DIGIT_0] <+: s) (hn : ¬[LETTER_N] <+: s) :
    half (BACKSLASH :: s) = BACKSLASH :: half s := by
  have hfirst : replace [BACKSLASH, LETTER_X, DIGIT_0, DIGIT_0] [NUL] (BACKSLASH :: s) =
      BACKSLASH :: replace [BACKSLASH, LETTER_X, DIGIT_0, DIGIT_0] [NUL] s := by
    apply Lib.Text.replace_cons
    rw [List.cons_prefix_cons]
    exact fun h => hx h.2
  rw [half, hfirst]
  apply Lib.Text.replace_cons
  rw [List.cons_prefix_cons]
  rintro ⟨-, hstarts⟩
  exact hn (Lib.Text.prefix_of_prefix_replace (List.cons_ne_nil _ _) (List.cons_ne_nil _ _)
    (by simp [LETTER_N, NUL]) hstarts)

theorem half_newline (s : Str) : half (BACKSLASH :: LETTER_N :: s) = NEWLINE :: half s := by
  have hfirst : replace [BACKSLASH, LETTER_X, DIGIT_0, DIGIT_0] [NUL]
      (BACKSLASH :: LETTER_N :: s) =
      BACKSLASH :: LETTER_N :: replace [BACKSLASH, LETTER_X, DIGIT_0, DIGIT_0] [NUL] s := by
    rw [Lib.Text.replace_cons, Lib.Text.replace_cons]
    · simp [BACKSLASH, LETTER_N]
    · simp [LETTER_X, LETTER_N]
  rw [half, hfirst]
  exact Lib.Text.replace_match (List.cons_ne_nil _ _) [NEWLINE] _

end half

section decode

variable {c : Byte} {t r : Str}

def decode (t : Str) : Except Fault Str :=
  match t.splitOn BACKSLASH with
  | [] => .ok []
  | first :: segments => do return first ++ (← segments.mapM fromSegment).flatten

def decodeTail (t : Str) : Except Fault Str := do
  return (← (t.splitOn BACKSLASH).mapM fromSegment).flatten

theorem fromEscaped_eq (s : Str) : fromEscaped s = decode (half s) := rfl

theorem splitOn_backslash (t : Str) :
    (BACKSLASH :: t).splitOn BACKSLASH = [] :: t.splitOn BACKSLASH := by
  rw [List.splitOn_cons_eq_if_modifyHead, if_pos BEq.rfl]

theorem exists_splitOn (t : Str) : ∃ first segments, t.splitOn BACKSLASH = first :: segments ∧
    ∀ c, c ≠ BACKSLASH → (c :: t).splitOn BACKSLASH = (c :: first) :: segments := by
  obtain ⟨first, segments, hsplit⟩ := List.exists_cons_of_ne_nil (List.splitOn_ne_nil BACKSLASH t)
  refine ⟨first, segments, hsplit, ?_⟩
  intro c hc
  rw [List.splitOn_cons_eq_if_modifyHead, if_neg (by simpa using hc), hsplit, List.modifyHead_cons]

theorem of_splitOn_cons {first : Str} {segments : List Str}
    (h : t.splitOn BACKSLASH = (c :: first) :: segments) :
    ∃ t', t = c :: t' ∧ t'.splitOn BACKSLASH = first :: segments := by
  cases t with
  | nil => simp at h
  | cons d t =>
    by_cases hd : d = BACKSLASH
    · rw [hd, splitOn_backslash] at h
      cases h
    · obtain ⟨first', segments', hsplit, hcons⟩ := exists_splitOn t
      rw [hcons d hd] at h
      cases h
      exact ⟨t, rfl, hsplit⟩

theorem decode_eq {first : Str} {segments : List Str}
    (h : t.splitOn BACKSLASH = first :: segments) :
    decode t = do return first ++ (← segments.mapM fromSegment).flatten := by
  rw [decode, h]

theorem decode_cons (hc : c ≠ BACKSLASH) (t : Str) :
    decode (c :: t) = do return c :: (← decode t) := by
  obtain ⟨first, segments, hsplit, hcons⟩ := exists_splitOn t
  rw [decode_eq hsplit, decode_eq (hcons c hc)]
  cases segments.mapM fromSegment <;> rfl

theorem decode_backslash (t : Str) : decode (BACKSLASH :: t) = decodeTail t := by
  rw [decode, splitOn_backslash]
  rfl

theorem decodeTail_backslash (t : Str) :
    decodeTail (BACKSLASH :: t) = do return BACKSLASH :: (← decodeTail t) := by
  rw [decodeTail, decodeTail, splitOn_backslash, List.mapM_cons]
  cases (t.splitOn BACKSLASH).mapM fromSegment <;> rfl

theorem decodeTail_cons (hc : c ≠ BACKSLASH) (hx : c ≠ LETTER_X) (t : Str) :
    decodeTail (c :: t) = do return c :: (← decode t) := by
  obtain ⟨first, segments, hsplit, hcons⟩ := exists_splitOn t
  have hsegment : fromSegment (c :: first) = .ok (c :: first) := if_neg hx
  rw [decodeTail, decode_eq hsplit, hcons c hc, List.mapM_cons, hsegment]
  cases segments.mapM fromSegment <;> rfl

theorem digit16_lt {n : ℕ} (h : digit16 c = some n) :
    n < 16 ∧ (n < 10 → c = BitVec.ofNat 8 (0x30 + n)) := by
  have hlow : n < 10 → c.toNat = 0x30 + n → c = BitVec.ofNat 8 (0x30 + n) := by
    intro hn hc
    apply BitVec.eq_of_toNat_eq
    rw [hc, BitVec.toNat_ofNat]
    omega
  rw [digit16] at h
  split at h
  · cases h
    exact ⟨by omega, fun hn => hlow hn (by omega)⟩
  split at h
  · cases h
    exact ⟨by omega, fun hn => by omega⟩
  split at h
  · cases h
    exact ⟨by omega, fun hn => by omega⟩
  · cases h

theorem number16_singleton {n : ℤ} (h : number16 [c] = .ok n) : 0 ≤ n ∧ n < 16 := by
  cases hc : digit16 c with
  | none => simp [number16, digits16, hc] at h
  | some m =>
    have hm := (digit16_lt hc).1
    simp only [number16, digits16, hc, reduceCtorEq, if_false, Option.bind_eq_bind,
      Option.bind_some, Except.ok.injEq] at h
    omega

theorem number16_pair {d : Byte} {n : ℤ} (h : number16 [c, d] = .ok n) :
    ∃ a b, digit16 c = some a ∧ digit16 d = some b ∧ n = 16 * a + b := by
  cases hc : digit16 c with
  | none => simp [number16, digits16, hc] at h
  | some a =>
    cases hd : digit16 d with
    | none => simp [number16, digits16, hc, hd] at h
    | some b =>
      simp only [number16, digits16, hc, hd, reduceCtorEq, if_false, Option.bind_eq_bind,
        Option.bind_some, Except.ok.injEq] at h
      exact ⟨a, b, rfl, rfl, by omega⟩

theorem int16_cases {s : Str} {n : ℤ} (hlen : s.length ≤ 2) (h : int16 s = .ok n) :
    n < 16 ∨ ∃ c d, s = [c, d] ∧ number16 [c, d] = .ok n := by
  have hwithin := Lib.Text.strip_infix isSpace s
  rw [int16] at h
  split at h
  · cases h
  rename_i c rest hstrip
  rw [hstrip] at hwithin
  have hle := hwithin.length_le
  rw [List.length_cons] at hle
  rcases rest with - | ⟨d, rest⟩
  · left
    split at h
    · cases h
    split at h
    · cases h
    · exact (number16_singleton h).2
  obtain rfl : rest = [] := by
    apply List.length_eq_zero_iff.mp
    rw [List.length_cons] at hle
    omega
  split at h
  · exact .inl (number16_singleton h).2
  split at h
  · obtain ⟨m, hm, rfl⟩ := Lib.Lists.bind_return_eq_ok.mp h
    have := number16_singleton hm
    exact .inl (by omega)
  · exact .inr ⟨c, d, (hwithin.eq_of_length_le (by simpa using hlen)).symm, h⟩

theorem int16_letterX {s : Str} (hlen : s.length ≤ 2) (h : int16 s = .ok 0x78) :
    s = [0x37, 0x38] := by
  rcases int16_cases hlen h with hlt | ⟨c, d, rfl, hpair⟩
  · omega
  obtain ⟨a, b, hc, hd, hn⟩ := number16_pair hpair
  obtain ⟨ha, hc⟩ := digit16_lt hc
  obtain ⟨hb, hd⟩ := digit16_lt hd
  obtain rfl : a = 7 := by omega
  obtain rfl : b = 8 := by omega
  rw [hc (by omega), hd (by omega)]
  rfl

theorem chr_letterX {n : ℤ} (h : chr n = .ok LETTER_X) : n = 0x78 := by
  rw [chr] at h
  split at h
  · rename_i hn
    have hx := congrArg BitVec.toNat (Except.ok.inj h)
    rw [BitVec.toNat_ofInt] at hx
    simp only [LETTER_X, BitVec.reduceToNat] at hx
    omega
  · cases h

theorem decodeTail_x (h : decodeTail (LETTER_X :: t) = .ok r) :
    ∃ v r', r = v :: r' ∧ (v = LETTER_X → ∃ t', t = 0x37 :: 0x38 :: t' ∧ decode t' = .ok r') := by
  obtain ⟨first, segments, hsplit, hcons⟩ := exists_splitOn t
  rw [decodeTail, hcons _ (by decide), List.mapM_cons] at h
  obtain ⟨results, hresults, rfl⟩ := Lib.Lists.bind_return_eq_ok.mp h
  obtain ⟨segment, hsegment, hresults⟩ := Lib.Lists.bind_eq_ok hresults
  obtain ⟨rest, hrest, rfl⟩ := Lib.Lists.bind_return_eq_ok.mp hresults
  rw [fromSegment, if_pos rfl] at hsegment
  obtain ⟨n, hn, hsegment⟩ := Lib.Lists.bind_eq_ok hsegment
  obtain ⟨v, hv, rfl⟩ := Lib.Lists.bind_return_eq_ok.mp hsegment
  refine ⟨v, first.drop 2 ++ rest.flatten, rfl, ?_⟩
  rintro rfl
  rw [chr_letterX hv] at hn
  have htake := int16_letterX (List.length_take_le 2 first) hn
  have hfirst : first = 0x37 :: 0x38 :: first.drop 2 := by
    rw [← List.take_append_drop 2 first, htake]
    simp
  rw [hfirst] at hsplit
  obtain ⟨t₁, rfl, hsplit₁⟩ := of_splitOn_cons hsplit
  obtain ⟨t₂, rfl, hsplit₂⟩ := of_splitOn_cons hsplit₁
  refine ⟨t₂, rfl, ?_⟩
  rw [decode_eq hsplit₂, hrest]
  rfl

theorem decodeTail_hex {a b : Byte} {n : ℤ} (ha : a ≠ BACKSLASH) (hb : b ≠ BACKSLASH)
    (hn : int16 [a, b] = .ok n) (hc : chr n = .ok c) :
    decodeTail (LETTER_X :: a :: b :: t) = do return c :: (← decode t) := by
  obtain ⟨first, segments, hsplit, hcons⟩ := exists_splitOn t
  obtain ⟨first₁, segments₁, hsplit₁, hcons₁⟩ := exists_splitOn (b :: t)
  obtain ⟨first₂, segments₂, hsplit₂, hcons₂⟩ := exists_splitOn (a :: b :: t)
  rw [hcons b hb] at hsplit₁
  cases hsplit₁
  rw [hcons₁ a ha] at hsplit₂
  cases hsplit₂
  have hsegment : fromSegment (LETTER_X :: a :: b :: first) = .ok (c :: first) := by
    rw [fromSegment, if_pos rfl]
    simp [hn, hc, bind, Except.bind, pure, Except.pure]
  rw [decodeTail, decode_eq hsplit, hcons₂ _ (by decide), List.mapM_cons, hsegment]
  cases segments.mapM fromSegment <;> rfl

end decode

section escape

variable {c d : Byte} {s r t : Str}

def Direct (c : Byte) : Prop := c = NUL ∨ c = NEWLINE ∨ (32 ≤ c.toNat ∧ c.toNat ≠ 127)
  deriving Decidable

def Follows (c : Byte) : Prop := Direct c ∧ c ≠ BACKSLASH ∧ c ≠ LETTER_N ∧ c ≠ LETTER_X

def Escapable : Str → Prop
  | [] => True
  | c :: s => (c = BACKSLASH → ∃ d, s.head? = some d ∧ Follows d) ∧ Escapable s

theorem toNat_hexDigit {n : ℕ} (h : n < 16) :
    (hexDigit n).toNat = if n < 10 then 0x30 + n else 0x37 + n := by
  rw [hexDigit, BitVec.toNat_ofNat]
  split <;> omega

theorem hexDigit_ne {n : ℕ} (h : n < 16) {c : Byte} (hc : c.toNat < 0x30 ∨ 0x46 < c.toNat) :
    hexDigit n ≠ c := by
  have hn := toNat_hexDigit h
  rintro rfl
  split at hn <;> omega

theorem digit16_hexDigit {n : ℕ} (h : n < 16) : digit16 (hexDigit n) = some n := by
  have hn := toNat_hexDigit h
  rw [digit16]
  split at hn
  · rw [if_pos (by omega), hn]
    congr 1
    omega
  · rw [if_neg (by omega), if_pos (by omega), hn]
    congr 1
    omega

theorem isSpace_hexDigit {n : ℕ} (h : n < 16) : isSpace (hexDigit n) = false := by
  have hn := toNat_hexDigit h
  have hb : hexDigit n ≠ BLANK := hexDigit_ne h (by decide)
  have hle : ¬(9 ≤ (hexDigit n).toNat ∧ (hexDigit n).toNat ≤ 13) := by
    split at hn <;> omega
  simpa [isSpace, hb] using hle

theorem int16_hexDigit {n : ℕ} (h : n < 256) :
    int16 [hexDigit (n / 16), hexDigit (n % 16)] = .ok n := by
  have hhigh : n / 16 < 16 := by omega
  have hlow : n % 16 < 16 := Nat.mod_lt _ (by omega)
  have hstrip : strip isSpace [hexDigit (n / 16), hexDigit (n % 16)] =
      [hexDigit (n / 16), hexDigit (n % 16)] := by
    simp [strip, Lib.Text.rstrip, List.rdropWhile, isSpace_hexDigit hhigh, isSpace_hexDigit hlow]
  rw [int16, hstrip]
  dsimp only
  rw [if_neg (hexDigit_ne hhigh (by decide)), if_neg (hexDigit_ne hhigh (by decide))]
  simp only [number16, digits16, digit16_hexDigit hhigh, digit16_hexDigit hlow, reduceCtorEq,
    if_false, Option.bind_eq_bind, Option.bind_some]
  congr 1
  omega

theorem chr_toNat (c : Byte) : chr (c.toNat : ℕ) = .ok c := by
  have hc := c.isLt
  rw [chr, if_pos (by omega)]
  congr 1
  apply BitVec.eq_of_toNat_eq
  rw [BitVec.toNat_ofInt]
  omega

theorem toEscaped_cons (c : Byte) (s : Str) : toEscaped (c :: s) = toEscapedChar c ++ toEscaped s :=
  List.flatMap_cons

theorem toEscapedChar_control (h : ¬Direct c) : toEscapedChar c =
    [BACKSLASH, LETTER_X, hexDigit (c.toNat / 16), hexDigit (c.toNat % 16)] := by
  simp only [Direct, not_or] at h
  rw [toEscapedChar, if_neg h.2.1, if_pos (by omega)]

theorem toEscapedChar_plain (h : 32 ≤ c.toNat ∧ c.toNat ≠ 127) (hc : c ≠ BACKSLASH) :
    toEscapedChar c = [c] := by
  have hn : c ≠ NEWLINE := by
    rintro rfl
    simp [NEWLINE] at h
  rw [toEscapedChar, if_neg hn, if_neg (by omega), if_neg hc]

theorem newline_not_mem_toEscaped (s : Str) : NEWLINE ∉ toEscaped s := by
  rw [toEscaped, List.mem_flatMap]
  rintro ⟨c, -, hc⟩
  have hlt := c.isLt
  have hhigh : NEWLINE ≠ hexDigit (c.toNat / 16) :=
    (hexDigit_ne (by omega) (by decide)).symm
  have hlow : NEWLINE ≠ hexDigit (c.toNat % 16) :=
    (hexDigit_ne (Nat.mod_lt _ (by omega)) (by decide)).symm
  rw [toEscapedChar] at hc
  split at hc
  · simp [NEWLINE, BACKSLASH, LETTER_N] at hc
  rename_i hne
  split at hc
  · simp only [List.mem_cons, hhigh, hlow, List.not_mem_nil, or_false] at hc
    simp [NEWLINE, BACKSLASH, LETTER_X] at hc
  split at hc
  · simp [NEWLINE, BACKSLASH] at hc
  · rw [List.mem_singleton] at hc
    exact hne hc.symm

theorem half_direct (h : Direct c) (hc : c ≠ BACKSLASH) (s : Str) :
    half (toEscaped (c :: s)) = c :: half (toEscaped s) := by
  rw [toEscaped_cons]
  rcases h with rfl | rfl | h
  · exact half_zero _
  · exact half_newline _
  · rw [toEscapedChar_plain h hc]
    exact half_cons hc _

theorem half_control (h : ¬Direct c) (s : Str) : half (toEscaped (c :: s)) =
    BACKSLASH :: LETTER_X :: hexDigit (c.toNat / 16) :: hexDigit (c.toNat % 16) ::
      half (toEscaped s) := by
  have hlt := c.isLt
  have hhigh : c.toNat / 16 < 16 := by omega
  have hlow : c.toNat % 16 < 16 := Nat.mod_lt _ (by omega)
  have hzero : ¬(DIGIT_0 = hexDigit (c.toNat / 16) ∧ DIGIT_0 = hexDigit (c.toNat % 16)) := by
    rintro ⟨h₁, h₂⟩
    have hn₁ := digit16_hexDigit hhigh
    have hn₂ := digit16_hexDigit hlow
    rw [← h₁] at hn₁
    rw [← h₂] at hn₂
    have hdigit : digit16 DIGIT_0 = some 0 := rfl
    rw [hdigit, Option.some.injEq] at hn₁ hn₂
    apply h
    left
    apply BitVec.eq_of_toNat_eq
    simp only [NUL, BitVec.reduceToNat]
    omega
  rw [toEscaped_cons, toEscapedChar_control h]
  simp only [List.cons_append, List.nil_append]
  rw [half_backslash, half_cons (by decide), half_cons (hexDigit_ne hhigh (by decide)),
    half_cons (hexDigit_ne hlow (by decide))]
  · simpa only [List.cons_prefix_cons, List.nil_prefix, true_and, and_true] using hzero
  · simp [LETTER_N, LETTER_X]

theorem of_toEscaped_cons (hd : d ≠ BACKSLASH) (h : toEscaped s = d :: t) :
    ∃ s', s = d :: s' ∧ t = toEscaped s' := by
  cases s with
  | nil => cases h
  | cons c s =>
    rw [toEscaped_cons, toEscapedChar] at h
    split at h
    · exact absurd (List.cons.inj h).1.symm hd
    split at h
    · exact absurd (List.cons.inj h).1.symm hd
    split at h
    · exact absurd (List.cons.inj h).1.symm hd
    · cases h
      exact ⟨s, rfl, rfl⟩

theorem half_escaped_backslash (s : Str) :
    half (toEscaped (BACKSLASH :: s)) = BACKSLASH :: half (BACKSLASH :: toEscaped s) := by
  rw [toEscaped_cons]
  exact half_backslash (by simp [LETTER_X, BACKSLASH]) (by simp [LETTER_N, BACKSLASH])

theorem of_half_cons (hd : d ≠ BACKSLASH) (h : half (toEscaped s) = d :: t) :
    ∃ s', s = d :: s' ∧ t = half (toEscaped s') := by
  cases s with
  | nil => cases h
  | cons c s =>
    by_cases hc : c = BACKSLASH
    · rw [hc, half_escaped_backslash] at h
      exact absurd (List.cons.inj h).1.symm hd
    by_cases hdirect : Direct c
    · rw [half_direct hdirect hc] at h
      cases h
      exact ⟨s, rfl, rfl⟩
    · rw [half_control hdirect] at h
      exact absurd (List.cons.inj h).1.symm hd

theorem half_backslash_cases (s : Str) :
    (∃ s', s = LETTER_X :: DIGIT_0 :: DIGIT_0 :: s' ∧
      half (BACKSLASH :: toEscaped s) = NUL :: half (toEscaped s')) ∨
    (∃ s', s = LETTER_N :: s' ∧ half (BACKSLASH :: toEscaped s) = NEWLINE :: half (toEscaped s')) ∨
    (s.head? ≠ some LETTER_N ∧
      half (BACKSLASH :: toEscaped s) = BACKSLASH :: half (toEscaped s)) := by
  by_cases hx : [LETTER_X, DIGIT_0, DIGIT_0] <+: toEscaped s
  · left
    obtain ⟨rest, hrest⟩ := hx
    obtain ⟨s₁, rfl, hrest₁⟩ := of_toEscaped_cons (by decide) hrest.symm
    obtain ⟨s₂, rfl, hrest₂⟩ := of_toEscaped_cons (by decide) hrest₁.symm
    obtain ⟨s₃, rfl, rfl⟩ := of_toEscaped_cons (by decide) hrest₂.symm
    refine ⟨s₃, rfl, ?_⟩
    rw [← hrest]
    exact half_zero _
  right
  by_cases hn : [LETTER_N] <+: toEscaped s
  · left
    obtain ⟨rest, hrest⟩ := hn
    obtain ⟨s₁, rfl, rfl⟩ := of_toEscaped_cons (by decide) hrest.symm
    refine ⟨s₁, rfl, ?_⟩
    rw [← hrest]
    exact half_newline _
  · refine .inr ⟨?_, half_backslash hx hn⟩
    intro hhead
    obtain ⟨s', rfl⟩ := List.head?_eq_some_iff.mp hhead
    exact hn (List.prefix_append [LETTER_N] (toEscaped s'))

def Decodes (s r : Str) : Prop := fromEscaped (toEscaped s) = .ok r

def DecodesTail (s r : Str) : Prop := decodeTail (half (toEscaped s)) = .ok r

theorem decodeTail_hexDigit (c : Byte) (t : Str) :
    decodeTail (LETTER_X :: hexDigit (c.toNat / 16) :: hexDigit (c.toNat % 16) :: t) =
      do return c :: (← decode t) := by
  have hlt := c.isLt
  exact decodeTail_hex (hexDigit_ne (by omega) (by decide))
    (hexDigit_ne (Nat.mod_lt _ (by omega)) (by decide)) (int16_hexDigit hlt) (chr_toNat c)

theorem decodes_nil : Decodes [] r ↔ r = [] := by
  rw [Decodes, fromEscaped_eq]
  constructor
  · intro h
    exact (Except.ok.inj h).symm
  · rintro rfl
    rfl

theorem decodes_cons (hc : c ≠ BACKSLASH) :
    Decodes (c :: s) r ↔ ∃ r', Decodes s r' ∧ r = c :: r' := by
  have hread : decode (half (toEscaped (c :: s))) =
      do return c :: (← decode (half (toEscaped s))) := by
    by_cases hdirect : Direct c
    · rw [half_direct hdirect hc, decode_cons hc]
    · rw [half_control hdirect, decode_backslash, decodeTail_hexDigit]
  rw [Decodes, fromEscaped_eq, hread, Lib.Lists.bind_return_eq_ok]
  rfl

theorem decodes_append {g : Str} (hg : BACKSLASH ∉ g) :
    Decodes (g ++ s) r ↔ ∃ r', Decodes s r' ∧ r = g ++ r' := by
  induction g generalizing r with
  | nil => simp
  | cons c g ih =>
    rw [List.mem_cons, not_or] at hg
    rw [List.cons_append, decodes_cons (Ne.symm hg.1)]
    simp only [ih hg.2]
    constructor
    · rintro ⟨_, ⟨r', hr', rfl⟩, rfl⟩
      exact ⟨r', hr', rfl⟩
    · rintro ⟨r', hr', rfl⟩
      exact ⟨_, ⟨r', hr', rfl⟩, rfl⟩

theorem decodes_backslash (h : Decodes (BACKSLASH :: s) r) :
    ((∃ s', s = LETTER_X :: DIGIT_0 :: DIGIT_0 :: s') ∧ ∃ r', r = NUL :: r') ∨
    ((∃ s', s = LETTER_N :: s') ∧ ∃ r', r = NEWLINE :: r') ∨
    (s.head? ≠ some LETTER_N ∧ ∃ r', DecodesTail s r' ∧ r = BACKSLASH :: r') := by
  rw [Decodes, fromEscaped_eq, half_escaped_backslash, decode_backslash] at h
  rcases half_backslash_cases s with ⟨s', hs, hhalf⟩ | ⟨s', hs, hhalf⟩ | ⟨hs, hhalf⟩
  · rw [hhalf, decodeTail_cons (by decide) (by decide), Lib.Lists.bind_return_eq_ok] at h
    obtain ⟨r', -, hr⟩ := h
    exact .inl ⟨⟨s', hs⟩, r', hr⟩
  · rw [hhalf, decodeTail_cons (by decide) (by decide), Lib.Lists.bind_return_eq_ok] at h
    obtain ⟨r', -, hr⟩ := h
    exact .inr (.inl ⟨⟨s', hs⟩, r', hr⟩)
  · rw [hhalf, decodeTail_backslash, Lib.Lists.bind_return_eq_ok] at h
    exact .inr (.inr ⟨hs, h⟩)

theorem decodesTail_nil (h : DecodesTail [] r) : r = [BACKSLASH] :=
  (Except.ok.inj h).symm

theorem decodesTail_backslash (h : DecodesTail (BACKSLASH :: s) r) :
    ∃ r', Decodes (BACKSLASH :: s) r' ∧ r = BACKSLASH :: r' := by
  rw [DecodesTail, half_escaped_backslash, decodeTail_backslash, Lib.Lists.bind_return_eq_ok] at h
  obtain ⟨r', hr', hr⟩ := h
  refine ⟨r', ?_, hr⟩
  rw [Decodes, fromEscaped_eq, half_escaped_backslash, decode_backslash, hr']

theorem decodesTail_control (hd : ¬Direct d) (h : DecodesTail (d :: s) r) :
    ∃ r', r = BACKSLASH :: r' := by
  rw [DecodesTail, half_control hd, decodeTail_backslash, Lib.Lists.bind_return_eq_ok] at h
  obtain ⟨r', -, hr⟩ := h
  exact ⟨r', hr⟩

theorem decodesTail_follows (hd : Follows d) : DecodesTail (d :: s) r ↔ Decodes (d :: s) r := by
  obtain ⟨hdirect, hb, -, hx⟩ := hd
  rw [DecodesTail, half_direct hdirect hb, decodeTail_cons hb hx, Lib.Lists.bind_return_eq_ok,
    decodes_cons hb]
  rfl

theorem decodesTail_x (h : DecodesTail (LETTER_X :: s) r) :
    ∃ v r', r = v :: r' ∧ (v = LETTER_X → ∃ s', s = 0x37 :: 0x38 :: s' ∧ Decodes s' r') := by
  rw [DecodesTail, half_direct (by decide) (by decide)] at h
  obtain ⟨v, r', hr, hv⟩ := decodeTail_x h
  refine ⟨v, r', hr, ?_⟩
  intro hx
  obtain ⟨t, ht, hdecode⟩ := hv hx
  obtain ⟨s₁, rfl, ht₁⟩ := of_half_cons (by decide) ht
  obtain ⟨s₂, rfl, rfl⟩ := of_half_cons (by decide) ht₁.symm
  exact ⟨s₂, rfl, hdecode⟩

theorem decodes_pair (hd : Follows d) :
    Decodes (BACKSLASH :: d :: s) r ↔ ∃ r', Decodes (d :: s) r' ∧ r = BACKSLASH :: r' := by
  have hhalf : half (BACKSLASH :: toEscaped (d :: s)) = BACKSLASH :: half (toEscaped (d :: s)) := by
    rcases half_backslash_cases (d :: s) with ⟨s', hs, -⟩ | ⟨s', hs, -⟩ | ⟨-, hhalf⟩
    · exact absurd (List.cons.inj hs).1 hd.2.2.2
    · exact absurd (List.cons.inj hs).1 hd.2.2.1
    · exact hhalf
  rw [Decodes, fromEscaped_eq, half_escaped_backslash, decode_backslash, hhalf,
    decodeTail_backslash, Lib.Lists.bind_return_eq_ok]
  exact exists_congr fun r' => and_congr_left fun _ => decodesTail_follows hd

theorem Escapable.decodes (h : Escapable s) : Decodes s s := by
  induction s with
  | nil => exact decodes_nil.mpr rfl
  | cons c s ih =>
    obtain ⟨hfollows, hs⟩ := h
    by_cases hc : c = BACKSLASH
    · obtain ⟨d, hd, hfollow⟩ := hfollows hc
      obtain ⟨s', rfl⟩ := List.head?_eq_some_iff.mp hd
      rw [hc, decodes_pair hfollow]
      exact ⟨d :: s', ih hs, rfl⟩
    · rw [decodes_cons hc]
      exact ⟨s, ih hs, rfl⟩

theorem escapable_append {g : Str} (hg : BACKSLASH ∉ g) : Escapable (g ++ s) ↔ Escapable s := by
  induction g with
  | nil => rfl
  | cons c g ih =>
    rw [List.mem_cons, not_or] at hg
    rw [List.cons_append, Escapable, ih hg.2]
    exact and_iff_right fun hc => absurd hc.symm hg.1

theorem Decodes.unique (h : Decodes s r) {r' : Str} (h' : Decodes s r') : r = r' :=
  Except.ok.inj (h.symm.trans h')

theorem DecodesTail.excess {bs z w : Str} (h : DecodesTail s r) (hne : bs ≠ [])
    (hbs : ∀ b ∈ bs, b = BACKSLASH) (hw : ∀ b ∈ w, b = BLANK) : bs ++ r ++ z ≠ s ++ w := by
  induction s generalizing bs r with
  | nil =>
    obtain ⟨b, bs, rfl⟩ := List.exists_cons_of_ne_nil hne
    intro heq
    have hb : b ∈ w := by
      rw [List.nil_append] at heq
      rw [← heq]
      exact List.mem_cons_self
    have hblank := hw b hb
    rw [hbs b List.mem_cons_self] at hblank
    exact absurd hblank (by decide)
  | cons c s ih =>
    obtain ⟨b, bs, rfl⟩ := List.exists_cons_of_ne_nil hne
    intro heq
    rw [List.cons_append, List.cons_append, List.cons_append, List.cons.injEq,
      hbs b List.mem_cons_self] at heq
    obtain ⟨rfl, heq⟩ := heq
    obtain ⟨r₁, hr₁, rfl⟩ := decodesTail_backslash h
    have hhead : ∀ {d : Byte} {l l' : Str}, bs ++ BACKSLASH :: l = d :: l' → d = BACKSLASH := by
      intro d l l' hl
      cases bs with
      | nil => exact (List.cons.inj hl).1.symm
      | cons b' bs =>
        rw [← (List.cons.inj hl).1]
        exact hbs b' (List.mem_cons_of_mem _ List.mem_cons_self)
    rw [List.append_assoc, List.cons_append] at heq
    rcases decodes_backslash hr₁ with ⟨⟨s', rfl⟩, -⟩ | ⟨⟨s', rfl⟩, -⟩ | ⟨-, r₂, hr₂, rfl⟩
    · exact absurd (hhead heq) (by decide)
    · exact absurd (hhead heq) (by decide)
    · refine @ih r₂ (bs ++ [BACKSLASH, BACKSLASH]) hr₂ (by simp) ?_ ?_
      · intro b' hb'
        rw [List.mem_append] at hb'
        rcases hb' with hb' | hb'
        · exact hbs b' (List.mem_cons_of_mem _ hb')
        · simpa using hb'
      · simpa using heq

theorem Decodes.diverges (h : Decodes s r) (hs : ¬Escapable s) :
    ∃ g a u v, s = g ++ BACKSLASH :: v ∧ r = g ++ a :: u ∧ a ≠ 0x37 ∧ a ≠ 0x38 := by
  induction s generalizing r with
  | nil => exact absurd trivial hs
  | cons c s ih =>
    by_cases hc : c = BACKSLASH
    · subst hc
      by_cases hfollow : ∃ d, s.head? = some d ∧ Follows d
      · have hs' : ¬Escapable s := fun hs' => hs ⟨fun _ => hfollow, hs'⟩
        obtain ⟨d, hd, hfollows⟩ := hfollow
        obtain ⟨s', rfl⟩ := List.head?_eq_some_iff.mp hd
        obtain ⟨r', hr', rfl⟩ := (decodes_pair hfollows).mp h
        obtain ⟨g, a, u, v, hg, rfl, ha⟩ := ih hr' hs'
        exact ⟨BACKSLASH :: g, a, u, v, by rw [hg, List.cons_append], rfl, ha⟩
      · rcases decodes_backslash h with ⟨-, r', rfl⟩ | ⟨-, r', rfl⟩ | ⟨-, r', -, rfl⟩
        · exact ⟨[], NUL, r', s, rfl, rfl, by decide⟩
        · exact ⟨[], NEWLINE, r', s, rfl, rfl, by decide⟩
        · exact ⟨[], BACKSLASH, r', s, rfl, rfl, by decide⟩
    · obtain ⟨r', hr', rfl⟩ := (decodes_cons hc).mp h
      have hs' : ¬Escapable s := fun hs' => hs ⟨fun hb => absurd hb hc, hs'⟩
      obtain ⟨g, a, u, v, rfl, rfl, ha⟩ := ih hr' hs'
      exact ⟨c :: g, a, u, v, rfl, rfl, ha⟩

theorem mem_of_append_eq_cons_cons {x y a : Byte} {g u v : Str}
    (h : g ++ a :: u = x :: y :: (g ++ v)) : a = x ∨ a = y := by
  induction g generalizing x y with
  | nil => exact .inl (List.cons.inj h).1
  | cons b g ih =>
    rw [List.cons_append, List.cons_append, List.cons.injEq] at h
    obtain ⟨rfl, h⟩ := h
    rcases ih h with ha | ha
    · exact .inr ha
    · exact .inl ha

theorem DecodesTail.excess_nil {z w : Str} (h : DecodesTail [] r) (hw : ∀ b ∈ w, b = BLANK) :
    r ++ z ≠ [] ++ w := by
  rw [decodesTail_nil h, List.nil_append]
  rintro rfl
  exact absurd (hw BACKSLASH List.mem_cons_self) (by decide)

theorem DecodesTail.excess_backslash {z w : Str} (h : DecodesTail (BACKSLASH :: s) r)
    (hw : ∀ b ∈ w, b = BLANK) : r ++ z ≠ BACKSLASH :: s ++ w := by
  intro heq
  obtain ⟨r₁, hr₁, rfl⟩ := decodesTail_backslash h
  replace heq : r₁ ++ z = s ++ w := (List.cons.inj heq).2
  rcases decodes_backslash hr₁ with ⟨⟨s', rfl⟩, r', rfl⟩ | ⟨⟨s', rfl⟩, r', rfl⟩ |
    ⟨-, r₂, hr₂, rfl⟩
  · exact absurd (List.cons.inj heq).1 (by decide)
  · exact absurd (List.cons.inj heq).1 (by decide)
  · exact hr₂.excess (List.cons_ne_nil BACKSLASH []) (fun b hb => List.mem_singleton.mp hb) hw heq

theorem DecodesTail.loses_x {z w : Str} (h : DecodesTail (LETTER_X :: s) r)
    (heq : r ++ z = LETTER_X :: s ++ w) : z.length = w.length + 2 := by
  obtain ⟨v, r', rfl, hv⟩ := decodesTail_x h
  rw [List.cons_append, List.cons_append, List.cons.injEq] at heq
  obtain ⟨rfl, heq⟩ := heq
  obtain ⟨s', rfl, hr'⟩ := hv rfl
  by_cases hs : Escapable s'
  · rw [hr'.unique hs.decodes] at heq
    have hlength := congrArg List.length heq
    simp only [List.length_append, List.length_cons] at hlength
    omega
  · obtain ⟨g, a, u, v, rfl, rfl, ha⟩ := hr'.diverges hs
    simp only [List.append_assoc, List.cons_append] at heq
    rcases mem_of_append_eq_cons_cons heq with hx | hx
    · exact absurd hx ha.1
    · exact absurd hx ha.2

theorem Decodes.loses {z w : Str} (h : Decodes s r) (hs : ¬Escapable s)
    (hw : ∀ b ∈ w, b = BLANK) (heq : r ++ z = s ++ w) : z.length = w.length + 2 := by
  induction s generalizing r with
  | nil => exact absurd trivial hs
  | cons c s ih =>
    by_cases hc : c = BACKSLASH
    · subst hc
      rcases decodes_backslash h with ⟨-, r', rfl⟩ | ⟨-, r', rfl⟩ | ⟨hhead, r', hr', rfl⟩
      · exact absurd (List.cons.inj heq).1 (by decide)
      · exact absurd (List.cons.inj heq).1 (by decide)
      replace heq : r' ++ z = s ++ w := (List.cons.inj heq).2
      cases s with
      | nil => exact absurd heq (hr'.excess_nil hw)
      | cons d s =>
        by_cases hd : d = BACKSLASH
        · subst hd
          exact absurd heq (hr'.excess_backslash hw)
        by_cases hdirect : Direct d
        · by_cases hx : d = LETTER_X
          · subst hx
            exact hr'.loses_x heq
          · have hfollows : Follows d := by
              refine ⟨hdirect, hd, ?_, hx⟩
              rintro rfl
              exact hhead rfl
            apply ih ((decodesTail_follows hfollows).mp hr') _ heq
            exact fun hs' => hs ⟨fun _ => ⟨d, rfl, hfollows⟩, hs'⟩
        · obtain ⟨r₁, rfl⟩ := decodesTail_control hdirect hr'
          have hbackslash : BACKSLASH = d := (List.cons.inj heq).1
          rw [← hbackslash] at hdirect
          exact absurd (by decide) hdirect
    · obtain ⟨r', hr', rfl⟩ := (decodes_cons hc).mp h
      have hs' : ¬Escapable s := fun hs' => hs ⟨fun hb => absurd hb hc, hs'⟩
      exact ih hr' hs' (List.cons.inj heq).2

theorem fromEscaped_toEscaped_iff : fromEscaped (toEscaped s) = .ok s ↔ Escapable s := by
  constructor
  · intro h
    by_contra hs
    have hlength := Decodes.loses (z := []) (w := []) h hs (fun _ hb => absurd hb List.not_mem_nil) rfl
    exact absurd hlength (Nat.zero_ne_add_one 1)
  · exact Escapable.decodes

end escape

end NaviMisc.RioKarma.Property
