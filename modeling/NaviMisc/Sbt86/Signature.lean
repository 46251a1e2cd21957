import Mathlib.Data.BitVec
import Mathlib.Tactic.Ring
import NaviMisc.Lib.Text

/-!
`Signature` of scripts/sbt86.py: a pattern of bytes is written as a regular expression, which
`re.finditer` looks for in the image.
-/

namespace NaviMisc.Sbt86

open Lib

abbrev Octet := Fin 256

local instance neZeroOctet : NeZero 256 := ⟨by decide⟩

namespace Regex

inductive Atom
  -- A dot, which matches anything but a line break.
  | any
  | byte (b : Octet)
  deriving DecidableEq

def Atom.test : Atom → Octet → Bool
  | any, c => c ≠ 0x0A
  | byte b, c => c = b

/-- The characters of `".^$*+?\\{}[]()|"`. -/
def special : List Octet :=
  [0x2E, 0x5E, 0x24, 0x2A, 0x2B, 0x3F, 0x5C, 0x7B, 0x7D, 0x5B, 0x5D, 0x28, 0x29, 0x7C]

def hexDigit (c : Octet) : Option ℕ :=
  if 0x30 ≤ c ∧ c ≤ 0x39 then some (c - 0x30)
  else if 0x41 ≤ c ∧ c ≤ 0x46 then some (c - 0x37)
  else if 0x61 ≤ c ∧ c ≤ 0x66 then some (c - 0x57)
  else none

/-- `re.compile`, on the expressions without operators: a dot, an escaped special character,
`\xhh`, and what stands for itself. -/
def compile : List Octet → Option (List Atom)
  | [] => some []
  | c :: cs =>
    if c = 0x5C then
      match cs with
      | e :: cs =>
        if e ∈ special then (compile cs).map (.byte e :: ·)
        else if e = 0x78 then
          match cs with
          | h :: l :: cs => do
            let code := 16 * (← hexDigit h) + (← hexDigit l)
            return .byte (Fin.ofNat 256 code) :: (← compile cs)
          | _ => none
        else none
      | [] => none
    else if c = 0x2E then (compile cs).map (.any :: ·)
    else if c ∈ special then none
    else (compile cs).map (.byte c :: ·)

variable {c : Octet} (cs : List Octet)

theorem compile_dot : compile (0x2E :: cs) = (compile cs).map (.any :: ·) := by
  rw [compile.eq_def]
  rfl

theorem compile_escape (h : c ∈ special) :
    compile (0x5C :: c :: cs) = (compile cs).map (.byte c :: ·) := by
  rw [compile.eq_def]
  simp [h]

theorem compile_nul :
    compile (0x5C :: 0x78 :: 0x30 :: 0x30 :: cs) = (compile cs).map (.byte 0 :: ·) := by
  have hzero : hexDigit 0x30 = some 0 := by decide
  rw [compile.eq_def]
  cases h : compile cs <;> simp [special, hzero, h]

theorem compile_literal (h : c ∉ special) :
    compile (c :: cs) = (compile cs).map (.byte c :: ·) := by
  have hslash : c ≠ 0x5C := by
    rintro rfl
    exact h (by decide)
  have hdot : c ≠ 0x2E := by
    rintro rfl
    exact h (by decide)
  rw [compile.eq_def]
  simp only [if_neg hslash, if_neg hdot, if_neg h]

end Regex

inductive SignatureFormatError
  | invalidCharacter (c : Char) (shortText : List Char)
  | colons
  | oddDigits (shortText : List Char)
  deriving DecidableEq

inductive SignatureError
  | SignatureFormatError (e : SignatureFormatError)
  | re
  deriving DecidableEq

structure Signature where
  longText : List Char
  shortText : List Char
  preLength : ℕ
  re : List Regex.Atom

namespace Signature

/-- `re.sub(r"#.*", "", text)`. -/
def removeComments : Bool → List Char → List Char
  | _, [] => []
  | comment, c :: cs =>
    if c = '\n' then c :: removeComments false cs
    else if comment || c = '#' then removeComments true cs
    else c :: removeComments false cs

def shorten (text : List Char) : List Char :=
  (removeComments false text).filter fun c => c ≠ '\n' ∧ c ≠ '\t' ∧ c ≠ ' '

/-- The characters of `0-9a-fA-F`. -/
def hexDigits : List Char :=
  ['0', '1', '2', '3', '4', '5', '6', '7', '8', '9', 'a', 'b', 'c', 'd', 'e', 'f', 'A', 'B', 'C',
    'D', 'E', 'F']

def digitValue (c : Char) : ℕ :=
  let i := hexDigits.idxOf c
  if i < 16 then i else i - 6

/-- `int(hexByte, 16)`, for two digits. -/
def byteValue (hexByte : Char × Char) : Octet :=
  Fin.ofNat 256 (16 * digitValue hexByte.1 + digitValue hexByte.2)

def pairs : List Char → List (Char × Char)
  | a :: b :: t => (a, b) :: pairs t
  | _ => []

def piece (hexByte : Char × Char) : List Octet :=
  if hexByte.1 = '_' ∨ hexByte.2 = '_' then
    -- The exception for the other blanks is built and not raised.
    if hexByte = ('_', '_') then [0x2E] else []
  else if hexByte = ('0', '0') then [0x5C, 0x78, 0x30, 0x30]
  else
    let char := byteValue hexByte
    if char ∈ Regex.special then [0x5C, char] else [char]

def new (text : List Char) : Except SignatureError Signature :=
  let t := shorten text
  match t.find? fun c => c ∉ hexDigits ∧ c ≠ '_' ∧ c ≠ ':' with
  | some c => .error (.SignatureFormatError (.invalidCharacter c t))
  | none =>
    match t.splitOn ':' with
    | [pre, post] =>
      if (pre ++ post).length % 2 ≠ 0 then .error (.SignatureFormatError (.oddDigits t))
      else
        match Regex.compile ((pairs (pre ++ post)).flatMap piece) with
        | some re => .ok ⟨text, t, pre.length / 2, re⟩
        | none => .error .re
    | _ => .error (.SignatureFormatError .colons)

def find (sig : Signature) (str : List Octet) : List ℕ :=
  (Text.finditer (sig.re.map Regex.Atom.test) str).map (· + sig.preLength)

/-- A text without errors but for blanks: the digits before the colon and those after it. -/
structure Form (text pre post : List Char) : Prop where
  short : shorten text = pre ++ ':' :: post
  digits : ∀ c ∈ pre ++ post, c ∈ hexDigits ∨ c = '_'
  even : (pre ++ post).length % 2 = 0

def Aligned (hexByte : Char × Char) : Prop := hexByte.1 = '_' ↔ hexByte.2 = '_'

structure Valid (text pre post : List Char) : Prop extends Form text pre post where
  aligned : ∀ hexByte ∈ pairs (pre ++ post), Aligned hexByte

def UnalignedBlank (text : List Char) : Prop :=
  ∃ hexByte ∈ pairs ((shorten text).filter (· ≠ ':')), ¬Aligned hexByte

def pattern (digits : List Char) : List (Option Octet) :=
  (pairs digits).map fun hexByte => if hexByte = ('_', '_') then none else some (byteValue hexByte)

/-- The bytes of the pattern that are not blank are the bytes of `s` from `i` on. -/
structure Place (pattern : List (Option Octet)) (s : List Octet) (i : ℕ) : Prop where
  fits : i + pattern.length ≤ s.length
  bytes : ∀ k b, pattern[k]? = some (some b) → s[i + k]? = some b

def OnlyPlace (pattern : List (Option Octet)) (s : List Octet) (i : ℕ) : Prop :=
  ∀ j, Place pattern s j ↔ j = i

def BlankOnLineBreak (pattern : List (Option Octet)) (s : List Octet) (i : ℕ) : Prop :=
  ∃ k, pattern[k]? = some none ∧ s[i + k]? = some 0x0A

structure ByteExact (text : List Char) (s : List Octet) : Prop where
  exact : ∀ pre post, Valid text pre post → ∃ sig, new text = .ok sig ∧
    (∀ i, OnlyPlace (pattern (pre ++ post)) s i → i + pre.length / 2 ∈ sig.find s) ∧
    ∀ p ∈ sig.find s, ∃ i, p = i + pre.length / 2 ∧ Place (pattern (pre ++ post)) s i
  rejected : UnalignedBlank text → ∃ e, new text = .error (.SignatureFormatError e)

section compile

variable {hexByte : Char × Char} {text pre post : List Char}

def atoms (hexByte : Char × Char) : List Regex.Atom :=
  if hexByte.1 = '_' ∨ hexByte.2 = '_' then if hexByte = ('_', '_') then [.any] else []
  else [.byte (byteValue hexByte)]

theorem compile_piece (hexByte : Char × Char) (rest : List Octet) :
    Regex.compile (piece hexByte ++ rest) =
      (Regex.compile rest).map (atoms hexByte ++ ·) := by
  unfold piece atoms
  by_cases hblank : hexByte.1 = '_' ∨ hexByte.2 = '_'
  · rw [if_pos hblank, if_pos hblank]
    split_ifs
    · exact Regex.compile_dot rest
    · simp
  · rw [if_neg hblank, if_neg hblank]
    by_cases hnul : hexByte = ('0', '0')
    · rw [if_pos hnul, hnul]
      exact Regex.compile_nul rest
    · rw [if_neg hnul]
      by_cases hspecial : byteValue hexByte ∈ Regex.special
      · simpa [hspecial] using Regex.compile_escape rest hspecial
      · simpa [hspecial] using Regex.compile_literal rest hspecial

theorem compile_pieces (t : List (Char × Char)) :
    Regex.compile (t.flatMap piece) = some (t.flatMap atoms) := by
  induction t with
  | nil => rfl
  | cons hexByte t ih => rw [List.flatMap_cons, compile_piece, ih, List.flatMap_cons]; rfl

theorem new_of_form (h : Form text pre post) : new text =
    .ok ⟨text, shorten text, pre.length / 2, (pairs (pre ++ post)).flatMap atoms⟩ := by
  have hcolon : ∀ c ∈ pre ++ post, c ≠ ':' := by
    rintro c hc rfl
    exact absurd (h.digits _ hc) (by decide)
  have hpre : ':' ∉ pre := fun hc => hcolon _ (List.mem_append_left post hc) rfl
  have hpost : ':' ∉ post := fun hc => hcolon _ (List.mem_append_right pre hc) rfl
  have hfind : (shorten text).find? (fun c => c ∉ hexDigits ∧ c ≠ '_' ∧ c ≠ ':') = none := by
    rw [List.find?_eq_none, h.short]
    intro c hc hbad
    obtain ⟨hhex, hblank, hc'⟩ := of_decide_eq_true hbad
    rcases List.mem_append.mp hc with hc | hc
    · exact (h.digits c (List.mem_append_left post hc)).elim hhex hblank
    · rcases List.mem_cons.mp hc with rfl | hc
      · exact hc' rfl
      · exact (h.digits c (List.mem_append_right pre hc)).elim hhex hblank
  have hsplit : (shorten text).splitOn ':' = [pre, post] := by
    rw [h.short, List.splitOn_append_cons_self_of_not_mem hpre, List.splitOn_eq_singleton hpost]
  simp only [new, hfind, hsplit, h.even, compile_pieces]
  simp

theorem error_of_not_form (h : ¬∃ pre post, Form text pre post) :
    ∃ e, new text = .error (.SignatureFormatError e) := by
  rw [new]
  cases hfind : (shorten text).find? fun c => c ∉ hexDigits ∧ c ≠ '_' ∧ c ≠ ':' with
  | some c => exact ⟨_, rfl⟩
  | none =>
    simp only
    split
    · rename_i pre post hsplit
      have hshort : shorten text = pre ++ ':' :: post := by
        have hjoin : [':'].intercalate ((shorten text).splitOn ':') = shorten text :=
          List.intercalate_splitOn ':'
        rw [← hjoin, hsplit]
        simp [List.intercalate]
      split_ifs with heven
      · exact ⟨_, rfl⟩
      · refine absurd ⟨pre, post, hshort, ?_, by omega⟩ h
        intro c hc
        have hcolon : c ≠ ':' := by
          rintro rfl
          rcases List.mem_append.mp hc with hc | hc
          · exact Text.not_mem_of_mem_splitOn (hsplit ▸ List.mem_cons_self) hc
          · exact Text.not_mem_of_mem_splitOn (hsplit ▸ List.mem_cons_of_mem pre
              List.mem_cons_self) hc
        have hmem : c ∈ shorten text := by
          rw [hshort]
          simp only [List.mem_append, List.mem_cons] at hc ⊢
          tauto
        have hgood := List.find?_eq_none.mp hfind c hmem
        simp only [decide_eq_true_eq] at hgood
        tauto
    · exact ⟨_, rfl⟩

end compile

section search

variable {pat : List (Option Octet)} {digits : List Char} {s : List Octet} {i : ℕ}

def atom : Option Octet → Regex.Atom
  | none => .any
  | some b => .byte b

theorem atoms_of_aligned (h : ∀ hexByte ∈ pairs digits, Aligned hexByte) :
    (pairs digits).flatMap atoms = (pattern digits).map atom := by
  unfold pattern
  generalize pairs digits = t at h
  induction t with
  | nil => rfl
  | cons hexByte t ih =>
    obtain ⟨haligned, ht⟩ := List.forall_mem_cons.mp h
    rw [List.flatMap_cons, List.map_cons, List.map_cons, ← ih ht]
    by_cases hboth : hexByte = ('_', '_')
    · simp [atoms, hboth, atom]
    · have hnone : ¬(hexByte.1 = '_' ∨ hexByte.2 = '_') := by
        rintro (h | h)
        · exact hboth (Prod.ext h (haligned.mp h))
        · exact hboth (Prod.ext (haligned.mpr h) h)
      simp [atoms, hboth, hnone, atom]

theorem startsWith_atoms : Text.startsWith ((pat.map atom).map Regex.Atom.test) (s.drop i) ∧
    i ≤ s.length ↔ Place pat s i ∧ ¬BlankOnLineBreak pat s i := by
  have hstarts : Text.startsWith ((pat.map atom).map Regex.Atom.test) (s.drop i) ↔
      ∀ (k : ℕ) o, pat[k]? = some o → ∃ c, s[i + k]? = some c ∧ (atom o).test c := by
    simp [Text.startsWith_iff]
  rw [hstarts]
  constructor
  · rintro ⟨hall, hi⟩
    refine ⟨⟨?_, ?_⟩, ?_⟩
    · rcases Nat.eq_zero_or_pos pat.length with hzero | hpos
      · omega
      · obtain ⟨c, hc, -⟩ := hall (pat.length - 1) pat[pat.length - 1] (by simp)
        obtain ⟨hlt, -⟩ := List.getElem?_eq_some_iff.mp hc
        omega
    · intro k b hb
      obtain ⟨c, hc, htest⟩ := hall k (some b) hb
      rw [hc, of_decide_eq_true htest]
    · rintro ⟨k, hk, hbreak⟩
      obtain ⟨c, hc, htest⟩ := hall k none hk
      rw [hc, Option.some_inj] at hbreak
      exact of_decide_eq_true htest hbreak
  · rintro ⟨⟨hfits, hbytes⟩, hblank⟩
    refine ⟨?_, by omega⟩
    intro k o ho
    obtain ⟨hk, -⟩ := List.getElem?_eq_some_iff.mp ho
    refine ⟨s[i + k], List.getElem?_eq_getElem (by omega), ?_⟩
    cases o with
    | none => exact decide_eq_true fun hbreak => hblank ⟨k, ho, by
        rw [List.getElem?_eq_getElem (by omega), hbreak]⟩
    | some b =>
      have hb := hbytes k b ho
      rw [List.getElem?_eq_getElem (by omega), Option.some_inj] at hb
      exact decide_eq_true hb

theorem of_mem_finditer (h : i ∈ Text.finditer ((pat.map atom).map Regex.Atom.test) s) :
    Place pat s i ∧ ¬BlankOnLineBreak pat s i :=
  startsWith_atoms.mp (Text.of_mem_finditer h).symm

theorem mem_finditer (hi : OnlyPlace pat s i) (hblank : ¬BlankOnLineBreak pat s i) :
    i ∈ Text.finditer ((pat.map atom).map Regex.Atom.test) s := by
  obtain ⟨hstarts, hle⟩ := startsWith_atoms.mpr ⟨(hi i).mpr rfl, hblank⟩
  apply Text.mem_finditer_of_unique hle hstarts
  exact fun j hj hj' => (hi j).mp (startsWith_atoms.mp ⟨hj', hj⟩).1

theorem find_valid {text pre post : List Char} (h : Valid text pre post) (s : List Octet) :
    ∃ sig, new text = .ok sig ∧ sig.find s = (Text.finditer
      (((pattern (pre ++ post)).map atom).map Regex.Atom.test) s).map (· + pre.length / 2) := by
  refine ⟨_, new_of_form h.toForm, ?_⟩
  rw [find, atoms_of_aligned h.aligned]

end search

theorem find_exact_iff (text : List Char) (s : List Octet) : ByteExact text s ↔
    (∀ pre post, Valid text pre post → ∀ i, OnlyPlace (pattern (pre ++ post)) s i →
      ¬BlankOnLineBreak (pattern (pre ++ post)) s i) ∧
      (UnalignedBlank text → ¬∃ pre post, Form text pre post) := by
  constructor
  · rintro ⟨hexact, hrejected⟩
    refine ⟨?_, ?_⟩
    · intro pre post hvalid i hi
      obtain ⟨sig, hsig, hfound, -⟩ := hexact pre post hvalid
      obtain ⟨sig', hsig', hfind⟩ := find_valid hvalid s
      obtain rfl := Except.ok.inj (hsig.symm.trans hsig')
      obtain ⟨j, hj, hij⟩ := List.mem_map.mp (hfind ▸ hfound i hi)
      obtain rfl : j = i := Nat.add_right_cancel hij
      exact (of_mem_finditer hj).2
    · rintro hblank ⟨pre, post, hform⟩
      obtain ⟨e, he⟩ := hrejected hblank
      rw [new_of_form hform] at he
      cases he
  · rintro ⟨hblanks, hother⟩
    refine ⟨?_, fun hblank => error_of_not_form (hother hblank)⟩
    intro pre post hvalid
    obtain ⟨sig, hsig, hfind⟩ := find_valid hvalid s
    refine ⟨sig, hsig, ?_, ?_⟩
    · intro i hi
      rw [hfind]
      exact List.mem_map_of_mem (mem_finditer hi (hblanks pre post hvalid i hi))
    · intro p hp
      rw [hfind] at hp
      obtain ⟨i, hi, rfl⟩ := List.mem_map.mp hp
      exact ⟨i, rfl, (of_mem_finditer hi).1⟩

theorem blanks_fail : ¬ByteExact ":9a__".toList [0x9A, 0x0A] ∧ ¬ByteExact ":_0".toList [] := by
  constructor
  · rintro ⟨hexact, -⟩
    have hvalid : Valid ":9a__".toList [] "9a__".toList := by
      refine ⟨⟨by decide, by simp [hexDigits], by decide⟩, ?_⟩
      unfold Aligned
      decide
    have hpattern : pattern ([] ++ "9a__".toList) = [some 0x9A, none] := by decide
    obtain ⟨sig, hsig, hfound, -⟩ := hexact [] _ hvalid
    obtain ⟨sig', hsig', hfind⟩ := find_valid hvalid [0x9A, 0x0A]
    obtain rfl := Except.ok.inj (hsig.symm.trans hsig')
    have honly : OnlyPlace (pattern ([] ++ "9a__".toList)) [0x9A, 0x0A] 0 := by
      rw [hpattern]
      intro j
      constructor
      · rintro ⟨hfits, -⟩
        simpa using hfits
      · rintro rfl
        refine ⟨by decide, ?_⟩
        rintro (_ | _ | k) b hb
        · simpa using hb
        · simp at hb
        · simp at hb
    have hmem := hfound 0 honly
    rw [hfind, hpattern] at hmem
    exact absurd hmem (by decide)
  · rintro ⟨-, hrejected⟩
    have hblank : UnalignedBlank ":_0".toList := by
      refine ⟨('_', '0'), by decide, ?_⟩
      unfold Aligned
      decide
    obtain ⟨e, he⟩ := hrejected hblank
    have hform : Form ":_0".toList [] ['_', '0'] := ⟨by decide, by simp [hexDigits], by decide⟩
    rw [new_of_form hform] at he
    cases he

end Signature

end NaviMisc.Sbt86
