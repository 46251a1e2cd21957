import Mathlib.Data.Nat.Digits.Lemmas
import NaviMisc.RioKarma.Playlist

/-!
The coders of property values in `RioKarma/Property.py`, chosen by key.
-/

namespace NaviMisc.RioKarma.Property

open Lib.ByteOrder (Byte)
open Lib.Text (strip rstrip)

def bytes (s : String) : Str := s.toList.map fun c => BitVec.ofNat 8 c.toNat

def toUTF8 (s : String) : Str := s.toUTF8.data.toList.map UInt8.toBitVec

def fromUTF8 (s : Str) : Except Fault String :=
  match String.fromUTF8? ⟨(s.map UInt8.ofBitVec).toArray⟩ with
  | some s => .ok s
  | none => .error .unicodeError

def digit10 (c : Byte) : Option ℕ :=
  if 0x30 ≤ c.toNat ∧ c.toNat ≤ 0x39 then some (c.toNat - 0x30) else none

def digits10 : ℕ → Str → Option ℕ
  | n, [] => some n
  | n, c :: s => do digits10 (10 * n + (← digit10 c)) s

def number10 (s : Str) : Except Fault ℤ :=
  if s = [] then .error .valueError
  else match digits10 0 s with
    | some n => .ok n
    | none => .error .valueError

def int (s : Str) : Except Fault ℤ :=
  match strip isSpace s with
  | [] => .error .valueError
  | c :: rest =>
    if c = 0x2B then number10 rest
    else if c = 0x2D then do return -(← number10 rest)
    else number10 (c :: rest)

def decimal (n : ℕ) : Byte := BitVec.ofNat 8 (0x30 + n)

def decimals (n : ℕ) : Str :=
  if n = 0 then [DIGIT_0] else (Nat.digits 10 n).reverse.map decimal

/-- `str(n)` of an integer. -/
def str (n : ℤ) : Str := if n < 0 then 0x2D :: decimals n.natAbs else decimals n.natAbs

inductive Coder
  | str
  | utf8
  | int
  | escaped
  | playlist
  deriving DecidableEq

def Coder.Value : Coder → Type
  | .str => Str
  | .utf8 => String
  | .int => ℤ
  | .escaped => Str
  | .playlist => List PartialDetails

def Coder.decode : (coder : Coder) → Str → Except Fault coder.Value
  | .str, s => .ok s
  | .utf8, s => fromUTF8 s
  | .int, s => Property.int s
  | .escaped, s => fromEscaped s
  | .playlist, s => fromPlaylist s

/-- Integers are written by `str`, as strings are. -/
def Coder.encode : (coder : Coder) → coder.Value → Str
  | .str, s => s
  | .utf8, s => toUTF8 s
  | .int, n => Property.str n
  | .escaped, s => toEscaped s
  | .playlist, details => toPlaylist details

def propertyDecoders : List (Str × Coder) :=
  [(bytes "artist", .utf8), (bytes "title", .utf8), (bytes "source", .utf8),
    (bytes "length", .int), (bytes "ctime", .int), (bytes "fid_generation", .int),
    (bytes "fid", .int), (bytes "file_id", .int), (bytes "duration", .int),
    (bytes "samplerate", .int), (bytes "tracknr", .int), (bytes "profile", .escaped),
    (bytes "playlist", .playlist)]

def coderOf (key : Str) : Coder := (propertyDecoders.lookup key).getD .str

abbrev Value (key : Str) : Type := (coderOf key).Value

def Trimmed (s : Str) : Prop := ∀ h : s ≠ [], ¬isSpace (s.getLast h)
  deriving Decidable

def Coder.Exact : (coder : Coder) → coder.Value → Prop
  | .str, _ => True
  | .utf8, _ => True
  | .int, _ => True
  | .escaped, s => Escapable s
  | .playlist, (details : List PartialDetails) => (∀ d ∈ details, d.stored = d) ∧
    Escapable (pack (HEADER :: details.flatMap toInts))

def Coder.NoNewline : (coder : Coder) → coder.Value → Prop
  | .str, (s : Str) => NEWLINE ∉ s
  | .utf8, (s : String) => '\n' ∉ s.toList
  | .int, _ => True
  | .escaped, _ => True
  | .playlist, _ => True

section utf8

variable {s : String} {t : Str}

theorem fromUTF8_toUTF8 (s : String) : fromUTF8 (toUTF8 s) = .ok s := by
  have harray : (⟨((toUTF8 s).map UInt8.ofBitVec).toArray⟩ : ByteArray) = s.toByteArray := by
    apply ByteArray.ext
    simp [toUTF8, Function.comp_def]
  rw [fromUTF8, harray, String.fromUTF8?, dif_pos s.isValidUTF8]
  rfl

theorem toUTF8_of_fromUTF8 (h : fromUTF8 t = .ok s) : toUTF8 s = t := by
  rw [fromUTF8, String.fromUTF8?] at h
  split at h
  · rename_i u hu
    split at hu
    · cases h
      cases hu
      simp [toUTF8, String.fromUTF8, Function.comp_def]
    · cases hu
  · cases h

theorem mem_utf8EncodeChar {c : Char} (h : 0x0A ∈ String.utf8EncodeChar c) : c = '\n' := by
  have hbyte : ∀ n, n < 256 → (0x0A : UInt8) = UInt8.ofNat n → n = 10 := by
    intro n hn heq
    have htoNat := congrArg UInt8.toNat heq
    rw [UInt8.toNat_ofNat_of_lt' hn] at htoNat
    exact htoNat.symm
  rw [String.utf8EncodeChar] at h
  split at h
  · rw [List.mem_singleton] at h
    have hval := hbyte _ (by omega) h
    exact Char.ext (UInt32.toNat_inj.mp hval)
  split at h
  · simp only [List.mem_cons, List.not_mem_nil, or_false] at h
    rcases h with h | h
    · exact absurd (hbyte _ (by omega) h) (by omega)
    · exact absurd (hbyte _ (by omega) h) (by omega)
  split at h
  · simp only [List.mem_cons, List.not_mem_nil, or_false] at h
    rcases h with h | h | h
    · exact absurd (hbyte _ (by omega) h) (by omega)
    · exact absurd (hbyte _ (by omega) h) (by omega)
    · exact absurd (hbyte _ (by omega) h) (by omega)
  · simp only [List.mem_cons, List.not_mem_nil, or_false] at h
    rcases h with h | h | h | h
    · exact absurd (hbyte _ (by omega) h) (by omega)
    · exact absurd (hbyte _ (by omega) h) (by omega)
    · exact absurd (hbyte _ (by omega) h) (by omega)
    · exact absurd (hbyte _ (by omega) h) (by omega)

theorem newline_not_mem_toUTF8 (h : '\n' ∉ s.toList) : NEWLINE ∉ toUTF8 s := by
  have hbytes : s.toUTF8.data.toList = s.toList.flatMap String.utf8EncodeChar := by
    rw [String.toUTF8_eq_toByteArray, ← String.utf8Encode_toList, List.utf8Encode]
    simp
  rw [toUTF8, hbytes]
  intro hmem
  obtain ⟨b, hb, hn⟩ := List.mem_map.mp hmem
  obtain ⟨c, hc, hbc⟩ := List.mem_flatMap.mp hb
  obtain rfl : b = 0x0A := UInt8.eq_of_toBitVec_eq hn
  rw [mem_utf8EncodeChar hbc] at hc
  exact h hc

end utf8

section int

theorem digit10_decimal {n : ℕ} (h : n < 10) : digit10 (decimal n) = some n := by
  have hn : (decimal n).toNat = 0x30 + n := by
    rw [decimal, BitVec.toNat_ofNat]
    omega
  rw [digit10, hn, if_pos (by omega)]
  congr 1
  omega

theorem decimal_bounds {n : ℕ} (h : n < 10) : 0x30 ≤ (decimal n).toNat ∧ (decimal n).toNat ≤ 0x39 := by
  rw [decimal, BitVec.toNat_ofNat]
  omega

theorem digits10_map {l : List ℕ} (h : ∀ n ∈ l, n < 10) (acc : ℕ) :
    digits10 acc (l.map decimal) = some (l.foldl (fun a n => 10 * a + n) acc) := by
  induction l generalizing acc with
  | nil => rfl
  | cons n l ih =>
    rw [List.map_cons, digits10, digit10_decimal (h n List.mem_cons_self)]
    exact ih (fun m hm => h m (List.mem_cons_of_mem n hm)) _

theorem ofDigits_reverse (l : List ℕ) :
    l.reverse.foldl (fun a n => 10 * a + n) 0 = Nat.ofDigits 10 l := by
  rw [List.foldl_reverse, Nat.ofDigits_eq_foldr]
  congr 1
  funext n a
  exact Nat.add_comm _ _

theorem digits10_decimals (n : ℕ) : digits10 0 (decimals n) = some n := by
  rw [decimals]
  split
  · rename_i hn
    rw [hn]
    rfl
  · rw [digits10_map fun d hd => Nat.digits_lt_base (by decide) (List.mem_reverse.mp hd),
      ofDigits_reverse, Nat.ofDigits_digits]

theorem mem_decimals {n : ℕ} {c : Byte} (h : c ∈ decimals n) : 0x30 ≤ c.toNat ∧ c.toNat ≤ 0x39 := by
  rw [decimals] at h
  split at h
  · obtain rfl := List.mem_singleton.mp h
    decide
  · obtain ⟨d, hd, rfl⟩ := List.mem_map.mp h
    exact decimal_bounds (Nat.digits_lt_base (by decide) (List.mem_reverse.mp hd))

theorem decimals_ne_nil (n : ℕ) : decimals n ≠ [] := by
  rw [decimals]
  split
  · exact List.cons_ne_nil _ _
  · rename_i hn
    simpa using Nat.digits_ne_nil_iff_ne_zero.mpr hn

theorem number10_decimals (n : ℕ) : number10 (decimals n) = .ok n := by
  rw [number10, if_neg (decimals_ne_nil n), digits10_decimals]

theorem not_isSpace_of_le {c : Byte} (h : 0x2D ≤ c.toNat) : ¬isSpace c := by
  have hb : c ≠ BLANK := by
    rintro rfl
    simp [BLANK] at h
  have hle : ¬(9 ≤ c.toNat ∧ c.toNat ≤ 13) := by omega
  simpa [isSpace, hb] using hle

theorem not_isSpace_str {n : ℤ} : ∀ c ∈ str n, ¬isSpace c := by
  intro c hc
  apply not_isSpace_of_le
  rw [str] at hc
  split at hc
  · rcases List.mem_cons.mp hc with rfl | hc
    · decide
    · exact le_trans (by decide) (mem_decimals hc).1
  · exact le_trans (by decide) (mem_decimals hc).1

theorem rstrip_str (n : ℤ) : rstrip isSpace (str n) = str n :=
  Lib.Text.rstrip_of_forall not_isSpace_str

theorem strip_str (n : ℤ) : strip isSpace (str n) = str n := by
  cases hs : str n with
  | nil => rfl
  | cons c s =>
    rw [Lib.Text.strip_cons, ← hs, rstrip_str]
    apply not_isSpace_str
    rw [hs]
    exact List.mem_cons_self

theorem int_str (n : ℤ) : int (str n) = .ok n := by
  rw [int, strip_str, str]
  split
  · rename_i hs
    split at hs
    · cases hs
    · exact absurd hs (decimals_ne_nil _)
  · rename_i c rest hs
    split at hs
    · obtain ⟨rfl, rfl⟩ := List.cons.inj hs
      rw [if_neg (by decide), if_pos rfl, number10_decimals]
      have hneg : -((n.natAbs : ℕ) : ℤ) = n := by omega
      exact congrArg Except.ok hneg
    · have hc : 0x30 ≤ c.toNat := by
        apply (mem_decimals (n := n.natAbs) _).1
        rw [hs]
        exact List.mem_cons_self
      rw [if_neg (by rintro rfl; simp at hc), if_neg (by rintro rfl; simp at hc), ← hs,
        number10_decimals]
      have hpos : ((n.natAbs : ℕ) : ℤ) = n := by omega
      exact congrArg Except.ok hpos

end int

section escaped

variable {s : Str}

theorem toEscapedChar_last {c : Byte} (hc : c ≠ BLANK) :
    ∃ init last, toEscapedChar c = init ++ [last] ∧ ¬isSpace last := by
  rw [toEscapedChar]
  split
  · exact ⟨[BACKSLASH], LETTER_N, rfl, by decide⟩
  split
  · have hlt : c.toNat % 16 < 16 := Nat.mod_lt _ (by decide)
    refine ⟨[BACKSLASH, LETTER_X, hexDigit (c.toNat / 16)], hexDigit (c.toNat % 16), rfl, ?_⟩
    rw [isSpace_hexDigit hlt]
    decide
  split
  · exact ⟨[BACKSLASH], BACKSLASH, rfl, by decide⟩
  · rename_i hcontrol _
    have hle : ¬(9 ≤ c.toNat ∧ c.toNat ≤ 13) := by omega
    exact ⟨[], c, rfl, by simpa [isSpace, hc] using hle⟩

theorem rstrip_toEscaped (s : Str) : ∃ t w, s = t ++ w ∧ (∀ b ∈ w, b = BLANK) ∧
    rstrip isSpace (toEscaped s) = toEscaped t ∧ (Trimmed (toEscaped s) ↔ w = []) := by
  induction s using List.reverseRecOn with
  | nil => exact ⟨[], [], rfl, by simp, rfl, iff_of_true (fun h => absurd rfl h) rfl⟩
  | append_singleton s c ih =>
    have happend : toEscaped (s ++ [c]) = toEscaped s ++ toEscapedChar c := by simp [toEscaped]
    by_cases hc : c = BLANK
    · subst hc
      obtain ⟨t, w, hs, hw, hstrip, -⟩ := ih
      have hblank : toEscapedChar BLANK = [BLANK] := by decide
      have hcut : rstrip isSpace (toEscaped (s ++ [BLANK])) = rstrip isSpace (toEscaped s) := by
        rw [happend, hblank]
        exact List.rdropWhile_concat_pos _ _ _ (by decide)
      refine ⟨t, w ++ [BLANK], ?_, ?_, hcut.trans hstrip, ?_⟩
      · rw [hs, List.append_assoc]
      · intro b hb
        rcases List.mem_append.mp hb with hb | hb
        · exact hw b hb
        · exact List.mem_singleton.mp hb
      · apply iff_of_false
        · intro h
          have hlast := h (by simp [happend, hblank])
          simp only [happend, hblank, List.getLast_append_singleton] at hlast
          exact hlast (by decide)
        · simp
    · obtain ⟨init, last, hchar, hlast⟩ := toEscapedChar_last hc
      refine ⟨s ++ [c], [], (List.append_nil _).symm, by simp, ?_, ?_⟩
      · rw [happend, hchar, ← List.append_assoc]
        exact List.rdropWhile_concat_neg _ _ _ hlast
      · apply iff_of_true
        · intro h
          simp only [happend, hchar, ← List.append_assoc, List.getLast_append_singleton]
          exact hlast
        · rfl

theorem fromEscaped_rstrip_iff : fromEscaped (rstrip isSpace (toEscaped s)) = .ok s ↔
    Trimmed (toEscaped s) ∧ Escapable s := by
  obtain ⟨t, w, rfl, hw, hstrip, htrimmed⟩ := rstrip_toEscaped s
  rw [hstrip, htrimmed]
  constructor
  · intro h
    by_cases ht : Escapable t
    · have hself : t ++ w = t := Decodes.unique h ht.decodes
      rw [List.append_right_eq_self] at hself
      exact ⟨hself, by rwa [hself, List.append_nil]⟩
    · have hlength := Decodes.loses (z := []) h ht hw (List.append_nil _)
      exact absurd hlength (Nat.zero_ne_add_one _)
  · rintro ⟨rfl, hs⟩
    rw [List.append_nil] at hs ⊢
    exact hs.decodes

end escaped

section playlist

variable {details : List PartialDetails}

theorem stored_last (fid : Word) : PartialDetails.stored ⟨some fid, none⟩ = ⟨some fid, none⟩ := rfl

theorem stored_pair (fid generation : Word) :
    PartialDetails.stored ⟨some fid, if generation ≠ 0 then some generation else none⟩ =
      ⟨some fid, if generation ≠ 0 then some generation else none⟩ := by
  by_cases h : generation = 0
  · rw [if_neg (not_not.mpr h)]
    rfl
  · rw [if_pos h, PartialDetails.stored, Option.getD_some, Option.getD_some, if_pos h]

theorem stored_of_results {hasGenerations : Bool} {ints : List Word} {d : PartialDetails}
    (h : d ∈ results hasGenerations ints) : d.stored = d := by
  induction ints using results.induct hasGenerations with
  | case1 => cases h
  | case2 fid =>
    obtain rfl := List.mem_singleton.mp h
    exact stored_last fid
  | case3 fid generation ints hgenerations ih =>
    rw [results, if_pos hgenerations] at h
    rcases List.mem_cons.mp h with rfl | h
    · exact stored_pair fid generation
    · exact ih h
  | case4 fid generation ints hgenerations ih =>
    rw [results, if_neg hgenerations] at h
    rcases List.mem_cons.mp h with rfl | h
    · exact stored_last fid
    · exact ih h

theorem stored_of_fromPlaylist {s : Str} (h : fromPlaylist s = .ok details) :
    ∀ d ∈ details, d.stored = d := by
  obtain ⟨r, -, h⟩ := Lib.Lists.bind_eq_ok h
  obtain ⟨ints, -, h⟩ := Lib.Lists.bind_eq_ok h
  cases ints with
  | nil => cases h
  | cons header ints =>
    cases h
    exact fun d hd => stored_of_results hd

theorem fromPlaylist_rstrip_iff :
    fromPlaylist (rstrip isSpace (toPlaylist details)) = .ok details ↔
      Trimmed (toPlaylist details) ∧ (∀ d ∈ details, d.stored = d) ∧
        Escapable (pack (HEADER :: details.flatMap toInts)) := by
  obtain ⟨t, w, hs, hw, hstrip, htrimmed⟩ :=
    rstrip_toEscaped (pack (HEADER :: details.flatMap toInts))
  rw [toPlaylist, hstrip, htrimmed, and_left_comm, ← fromPlaylist_iff hs hw]
  constructor
  · intro h
    have hstored := stored_of_fromPlaylist h
    rw [h, List.map_congr_left hstored, List.map_id']
    exact ⟨hstored, rfl⟩
  · rintro ⟨hstored, h⟩
    rw [h, List.map_congr_left hstored, List.map_id']

end playlist

section coder

variable {coder : Coder} {value : coder.Value}

theorem decode_rstrip_iff : coder.decode (rstrip isSpace (coder.encode value)) = .ok value ↔
    Trimmed (coder.encode value) ∧ coder.Exact value := by
  have hself : rstrip isSpace (coder.encode value) = coder.encode value ↔
      Trimmed (coder.encode value) := Lib.Text.rstrip_eq_self
  cases coder with
  | str =>
    rw [← hself]
    constructor
    · intro h
      exact ⟨Except.ok.inj h, trivial⟩
    · rintro ⟨h, -⟩
      exact congrArg Except.ok h
  | utf8 =>
    rw [← hself]
    constructor
    · intro h
      exact ⟨(toUTF8_of_fromUTF8 h).symm, trivial⟩
    · rintro ⟨h, -⟩
      rw [h]
      exact fromUTF8_toUTF8 value
  | int =>
    rw [← hself]
    have hcut : rstrip isSpace (Coder.int.encode value) = Coder.int.encode value := rstrip_str value
    apply iff_of_true
    · rw [hcut]
      exact int_str value
    · exact ⟨hcut, trivial⟩
  | escaped => exact fromEscaped_rstrip_iff
  | playlist => exact fromPlaylist_rstrip_iff

theorem newline_not_mem_encode (h : coder.NoNewline value) : NEWLINE ∉ coder.encode value := by
  cases coder with
  | str => exact h
  | utf8 => exact newline_not_mem_toUTF8 h
  | int => exact fun hmem => not_isSpace_str NEWLINE hmem (by decide)
  | escaped => exact newline_not_mem_toEscaped _
  | playlist => exact newline_not_mem_toEscaped _

end coder

end NaviMisc.RioKarma.Property
