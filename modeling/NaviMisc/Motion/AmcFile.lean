import Mathlib.Data.BitVec
import Mathlib.Tactic.Ring
import NaviMisc.Lib.Text

/-!
`AMC_fromFile` of `Motion/motion.c`: a first pass over the lines of a file counts, a second one
stores the values through the strides of the arrays.
-/

namespace NaviMisc.Motion.AmcFile

open NaviMisc.Lib.Text

abbrev Line := List Char

/-- `g_ascii_isspace` -/
def isSpace (c : Char) : Bool := c = ' ' ∨ 9 ≤ c.toNat ∧ c.toNat ≤ 13

/-- `g_strstrip` -/
def strstrip (line : Line) : Line := strip isSpace line

def decimal (digits : Line) : ℕ := digits.foldl (fun n c => 10 * n + (c.toNat - '0'.toNat)) 0

/-- `g_ascii_strtoull` on digits: what is too large becomes the largest. -/
def strtoull (digits : Line) : ℕ := min (decimal digits) (2 ^ 64 - 1)

/-- The tokens of `g_strsplit` at blanks, each stripped. -/
def tokensOf (line : Line) : List Line := (line.splitOn ' ').map strstrip

structure Scan where
  comments : List Line
  format : List Line
  current_frame : ℕ
  bones : List Line
  dofs : List ℕ

def scanLine (s : Scan) (line : Line) : Scan :=
  if line.head? = some '#' then { s with comments := s.comments ++ [line] }
  else if line.head? = some ':' then { s with format := s.format ++ [line] }
  else
    let line := strstrip line
    if line = [] then s
    else if line.all Char.isDigit then { s with current_frame := strtoull line }
    else if s.current_frame = 1 then
      let tokens := tokensOf line
      { s with
        bones := s.bones ++ [tokens.headD []]
        dofs := s.dofs ++ [tokens.tail.countP (· ≠ []) % 2 ^ 32] }
    else s

structure FloatArray where
  rows : ℕ
  cols : ℕ
  stride0 : ℕ
  stride1 : ℕ

/-- The conversion to `int`. -/
def toInt (n : ℕ) : ℤ := (BitVec.ofNat 32 n).toInt

/-- `none` is a null pointer. -/
def allocate (fromDims : ℤ → ℤ → Option FloatArray) (s : Scan) : List (Option FloatArray) :=
  s.dofs.map fun dof => fromDims (toInt s.current_frame) (toInt dof)

/-- A store into one of the arrays, `offset` bytes after the start of its data. -/
structure Store (F : Type) where
  array : ℕ
  offset : ℕ
  value : F

/-- Of the second pass. `pao` has no value before the first frame. -/
structure Fill (F : Type) where
  current_frame : ℕ
  i : ℕ
  pao : Option ℕ
  stores : List (Store F)

variable {F : Type} (strtod : Line → F)

/-- The tokens after the name of a bone; `none` if a null pointer is dereferenced. -/
def putValues (current_frame array : ℕ) (pao : Option FloatArray) :
    ℕ → List Line → Option (List (Store F))
  | _, [] => some []
  | dof, token :: tokens =>
    if token = [] then putValues current_frame array pao ((dof + 1) % 2 ^ 32) tokens
    else
      match pao with
      | none => none
      | some a =>
        let offset := (current_frame * a.stride0 + dof * a.stride1 % 2 ^ 32) % 2 ^ 64
        (putValues current_frame array pao ((dof + 1) % 2 ^ 32) tokens).map
          (⟨array, offset, strtod token⟩ :: ·)

def fillLine (data : List (Option FloatArray)) (s : Fill F) (line : Line) : Option (Fill F) :=
  if line.head? = some '#' ∨ line.head? = some ':' then some s
  else
    let line := strstrip line
    if line = [] then some s
    else if line.all Char.isDigit then
      match data with
      | [] => none
      | _ :: _ => some { s with
        current_frame := (strtoull line + (2 ^ 64 - 1)) % 2 ^ 64
        i := 0
        pao := some 0 }
    else do
      let stores ← putValues strtod s.current_frame (s.pao.getD 0) (s.pao.bind (data[·]?)).join 0
        (tokensOf line).tail
      let i := s.i + 1
      return { s with
        i := i
        pao := if i < data.length then some i else s.pao
        stores := s.stores ++ stores }

structure AMC (F : Type) where
  comments : List Line
  format : List Line
  bones : List (Line × Option FloatArray)
  stores : List (Store F)

/-- `garbage` is what the frame number is before it is first assigned. -/
def fromFile (fromDims : ℤ → ℤ → Option FloatArray) (garbage : ℕ) (lines : List Line) :
    Option (AMC F) := do
  let scan := lines.foldl scanLine ⟨[], [], garbage, [], []⟩
  let data := allocate fromDims scan
  let fill ← lines.foldlM (fillLine strtod data) ⟨scan.current_frame, data.length, none, []⟩
  return ⟨scan.comments, scan.format, scan.bones.zip data, fill.stores⟩

end NaviMisc.Motion.AmcFile

/-!
The texts of motion files: comments, format lines, blank lines and frames, each frame with the
lines of its bones.
-/

namespace NaviMisc.Motion.AmcFile

open NaviMisc.Lib.Text

structure BoneLine where
  lead : Line
  name : Line
  values : List (ℕ × Line)
  trail : Line

namespace BoneLine

def renderValue (v : ℕ × Line) : Line := ' ' :: (List.replicate v.1 ' ' ++ v.2)

def core (b : BoneLine) : Line := b.name ++ b.values.flatMap renderValue

def render (b : BoneLine) : Line := b.lead ++ b.core ++ b.trail

def tokens (b : BoneLine) : List Line :=
  b.values.flatMap fun v => List.replicate v.1 [] ++ [v.2]

structure Valid (b : BoneLine) : Prop where
  lead : ∀ c ∈ b.lead, isSpace c
  trail : ∀ c ∈ b.trail, isSpace c
  name : b.name ≠ [] ∧ ∀ c ∈ b.name, ¬isSpace c
  head : b.name.head? ≠ some '#' ∧ b.name.head? ≠ some ':'
  number : b.values = [] → ¬b.name.all Char.isDigit
  values : ∀ v ∈ b.values, v.2 ≠ [] ∧ ∀ c ∈ v.2, ¬isSpace c

end BoneLine

inductive Item
  | comment (text : Line)
  | format (text : Line)
  | blank (text : Line)
  | number (lead digits trail : Line)
  | bone (line : BoneLine)

namespace Item

def render : Item → Line
  | comment text => '#' :: text
  | format text => ':' :: text
  | blank text => text
  | number lead digits trail => lead ++ digits ++ trail
  | bone line => line.render

def Valid : Item → Prop
  | comment _ => True
  | format _ => True
  | blank text => ∀ c ∈ text, isSpace c
  | number lead digits trail => (∀ c ∈ lead, isSpace c) ∧ (digits ≠ [] ∧ digits.all Char.isDigit) ∧
      ∀ c ∈ trail, isSpace c
  | bone line => line.Valid

def event : Item → Option (ℕ ⊕ BoneLine)
  | number _ digits _ => some (.inl (decimal digits))
  | bone line => some (.inr line)
  | _ => none

end Item

def script : ℕ → List (List BoneLine) → List (ℕ ⊕ BoneLine)
  | _, [] => []
  | n, frame :: frames => .inl n :: (frame.map .inr ++ script (n + 1) frames)

structure Document (items : List Item) (frames : List (List BoneLine)) (bones : List (Line × ℕ)) :
    Prop where
  valid : ∀ item ∈ items, item.Valid
  events : items.filterMap Item.event = script 1 frames
  bones : ∀ frame ∈ frames, frame.map (fun b => (b.name, b.values.length)) = bones

theorem isSpace_blank : isSpace ' ' := rfl

theorem not_isSpace_of_isDigit {c : Char} (h : c.isDigit) : ¬isSpace c := by
  rw [Char.isDigit, Bool.and_eq_true, decide_eq_true_eq, decide_eq_true_eq] at h
  rw [isSpace, decide_eq_true_eq, not_or]
  have hle : 48 ≤ c.toNat := h.1
  constructor
  · rintro rfl
    exact absurd hle (by decide)
  · omega

/-! What is between the spaces, and its tokens. -/

theorem strstrip_words {lead core trail first rest init last : Line}
    (hlead : ∀ c ∈ lead, isSpace c) (htrail : ∀ c ∈ trail, isSpace c)
    (hfirst : first ≠ [] ∧ ∀ c ∈ first, ¬isSpace c) (hcore : core = first ++ rest)
    (hlast : last ≠ [] ∧ ∀ c ∈ last, ¬isSpace c) (hcore' : core = init ++ last) :
    strstrip (lead ++ core ++ trail) = core := by
  apply strip_between hlead htrail
  · intro c hc
    obtain ⟨a, l, rfl⟩ := List.exists_cons_of_ne_nil hfirst.1
    rw [hcore] at hc
    cases hc
    exact hfirst.2 _ List.mem_cons_self
  · intro c hc
    rw [hcore', List.getLast?_append_of_ne_nil _ hlast.1] at hc
    exact hlast.2 c (List.mem_of_getLast? hc)

theorem strstrip_word {word : Line} (h : ∀ c ∈ word, ¬isSpace c) : strstrip word = word := by
  have hstrip : strstrip ([] ++ word ++ []) = word := strip_between (by simp) (by simp)
    (fun c hc => h c (List.mem_of_head? hc)) (fun c hc => h c (List.mem_of_getLast? hc))
  rwa [List.nil_append, List.append_nil] at hstrip

theorem blank_notMem {word : Line} (h : ∀ c ∈ word, ¬isSpace c) : ' ' ∉ word :=
  fun hmem => h ' ' hmem isSpace_blank

theorem splitOn_replicate (n : ℕ) (l : Line) :
    (List.replicate n ' ' ++ l).splitOn ' ' = List.replicate n [] ++ l.splitOn ' ' := by
  induction n with
  | zero => rfl
  | succ n ih =>
    rw [List.replicate_succ, List.replicate_succ, List.cons_append, List.cons_append, ← ih]
    exact List.splitOn_append_cons_self_of_not_mem List.not_mem_nil _

namespace BoneLine

theorem splitOn_values {word : Line} (hword : ' ' ∉ word) {values : List (ℕ × Line)}
    (hvalues : ∀ v ∈ values, ' ' ∉ v.2) :
    (word ++ values.flatMap renderValue).splitOn ' ' =
      word :: values.flatMap fun v => List.replicate v.1 [] ++ [v.2] := by
  induction values generalizing word with
  | nil =>
    rw [List.flatMap_nil, List.append_nil]
    exact List.splitOn_eq_singleton hword
  | cons v values ih =>
    rw [List.forall_mem_cons] at hvalues
    rw [List.flatMap_cons, List.flatMap_cons, renderValue, List.cons_append,
      List.splitOn_append_cons_self_of_not_mem hword, List.append_assoc, splitOn_replicate,
      ih hvalues.1 hvalues.2, List.append_assoc]
    rfl

theorem Valid.tokensOf_core {b : BoneLine} (h : b.Valid) :
    tokensOf b.core = b.name :: b.tokens := by
  have hvalues : ∀ v ∈ b.values, ' ' ∉ v.2 := fun v hv => blank_notMem (h.values v hv).2
  rw [tokensOf, core, splitOn_values (blank_notMem h.name.2) hvalues, List.map_cons,
    strstrip_word h.name.2, List.map_flatMap, tokens]
  congr 1
  apply List.flatMap_congr
  intro v hv
  rw [List.map_append, List.map_replicate, List.map_singleton, strstrip_word (h.values v hv).2]
  rfl

theorem Valid.strstrip_render {b : BoneLine} (h : b.Valid) : strstrip b.render = b.core := by
  rcases List.eq_nil_or_concat b.values with hvalues | ⟨init, v, hvalues⟩
  · have hcore : b.core = [] ++ b.name := by
      rw [core, hvalues, List.flatMap_nil, List.append_nil, List.nil_append]
    exact strstrip_words h.lead h.trail h.name rfl h.name hcore
  · have hv := h.values v (by rw [hvalues]; simp)
    have hcore : b.core =
        (b.name ++ init.flatMap renderValue ++ ' ' :: List.replicate v.1 ' ') ++ v.2 := by
      rw [core, hvalues, List.concat_eq_append, List.flatMap_append, List.flatMap_singleton,
        renderValue]
      simp
    exact strstrip_words h.lead h.trail h.name rfl hv hcore

theorem Valid.core_not_digits {b : BoneLine} (h : b.Valid) : ¬b.core.all Char.isDigit := by
  intro hall
  rw [core, List.all_append, Bool.and_eq_true] at hall
  cases hvalues : b.values with
  | nil => exact h.number hvalues hall.1
  | cons v values =>
    rw [hvalues, List.flatMap_cons, renderValue, List.cons_append, List.all_cons,
      Bool.and_eq_true] at hall
    exact absurd hall.2.1 (by decide)

theorem Valid.core_ne_nil {b : BoneLine} (h : b.Valid) : b.core ≠ [] := by
  rw [core]
  exact List.append_ne_nil_of_left_ne_nil h.name.1 _

theorem Valid.countP_tokens {b : BoneLine} (h : b.Valid) :
    b.tokens.countP (· ≠ []) = b.values.length := by
  have hall := h.values
  rw [tokens]
  generalize b.values = values at hall
  induction values with
  | nil => rfl
  | cons v values ih =>
    rw [List.forall_mem_cons] at hall
    have hempty : (List.replicate v.1 ([] : Line)).countP (· ≠ []) = 0 := by
      rw [List.countP_replicate]
      rfl
    have hvalue : [v.2].countP (· ≠ []) = 1 := by
      rw [List.countP_singleton, if_pos (decide_eq_true hall.1.1)]
    rw [List.flatMap_cons, List.countP_append, List.countP_append, hempty, hvalue, ih hall.2,
      List.length_cons]
    omega

end BoneLine

theorem strstrip_number {lead digits trail : Line} (h : (Item.number lead digits trail).Valid) :
    strstrip (lead ++ digits ++ trail) = digits := by
  obtain ⟨hlead, ⟨hne, hdigits⟩, htrail⟩ := h
  have hword : digits ≠ [] ∧ ∀ c ∈ digits, ¬isSpace c :=
    ⟨hne, fun c hc => not_isSpace_of_isDigit (List.all_eq_true.mp hdigits c hc)⟩
  have hcore : digits = [] ++ digits := rfl
  exact strstrip_words hlead htrail hword (List.append_nil _).symm hword hcore

theorem strstrip_blank {text : Line} (h : ∀ c ∈ text, isSpace c) : strstrip text = [] := by
  have hstrip : strstrip (text ++ [] ++ []) = [] :=
    strip_between h (by simp) (by simp) (by simp)
  rwa [List.append_nil, List.append_nil] at hstrip

theorem head_append {lead rest : Line} (hlead : ∀ c ∈ lead, isSpace c)
    (hrest : rest.head? ≠ some '#' ∧ rest.head? ≠ some ':') :
    (lead ++ rest).head? ≠ some '#' ∧ (lead ++ rest).head? ≠ some ':' := by
  cases lead with
  | nil => exact hrest
  | cons c lead =>
    have hc := hlead c List.mem_cons_self
    constructor <;>
    · intro heq
      cases heq
      exact absurd hc (by decide)

theorem head_of_digits {digits : Line} (hne : digits ≠ []) (h : digits.all Char.isDigit)
    (rest : Line) :
    (digits ++ rest).head? ≠ some '#' ∧ (digits ++ rest).head? ≠ some ':' := by
  obtain ⟨c, digits, rfl⟩ := List.exists_cons_of_ne_nil hne
  rw [List.all_cons, Bool.and_eq_true] at h
  constructor <;>
  · intro heq
    cases heq
    exact absurd h.1 (by decide)

theorem head_of_blank {text : Line} (h : ∀ c ∈ text, isSpace c) :
    text.head? ≠ some '#' ∧ text.head? ≠ some ':' := by
  have happend : (text ++ []).head? ≠ some '#' ∧ (text ++ []).head? ≠ some ':' :=
    head_append h ⟨by simp, by simp⟩
  rwa [List.append_nil] at happend

theorem BoneLine.Valid.head_render {b : BoneLine} (h : b.Valid) :
    b.render.head? ≠ some '#' ∧ b.render.head? ≠ some ':' := by
  rw [render, List.append_assoc]
  apply head_append h.lead
  obtain ⟨c, name, hname⟩ := List.exists_cons_of_ne_nil h.name.1
  rw [core, List.append_assoc, hname]
  have hhead := h.head
  rwa [hname] at hhead

end NaviMisc.Motion.AmcFile
