import Mathlib.Algebra.Group.Prod
import Mathlib.Data.BitVec
import Mathlib.Data.Bool.AllAny
import Mathlib.Tactic.Ring
import NaviMisc.LaserProp.SvgNumbers
import NaviMisc.Lib.Lists

/-!
The parser of SVG paths (client/SVGPath.py), and the paths that SVG makes of its commands.
-/

namespace NaviMisc.LaserProp.Svg

open NaviMisc.Lib

/-- The groups `cmd` and `arg` of a match. -/
inductive Match
  | cmd (c : Char)
  | arg (n : Number)
  deriving DecidableEq

def letters : List Char := "MmZzLlHhVvCcSsQqTtAa".toList

def matchPathData : List Char → Option (Match × List Char)
  | c :: s =>
    if c ∈ letters then some (.cmd c, s)
    else (matchNumber (c :: s)).map fun (n, rest) => (.arg n, rest)
  | [] => none

def cmdArgsTable : Char → Option ℕ
  | 'M' => some 2
  | 'Z' => some 0
  | 'L' => some 2
  | 'H' => some 1
  | 'V' => some 1
  | 'C' => some 6
  | 'S' => some 4
  | 'Q' => some 4
  | 'T' => some 2
  | 'A' => some 7
  | _ => none

abbrev Command := Char × List ℚ

structure PathParser where
  paths : List (List Command) := []
  pathData : List Command := []

namespace PathParser

/-- A path has to begin with `M`. -/
def finishPath (p : PathParser) : Except Error PathParser :=
  match p.pathData with
  | [] => .ok p
  | first :: _ =>
    if first.1 = 'M' then .ok { paths := p.paths ++ [p.pathData], pathData := [] }
    else .error .assertionError

/-- The element of a tuple at the index `(i & 1) - 2`, if that is no letter. -/
def origin (last : Command) (i : ℕ) : Except Error ℚ :=
  match last.2.reverse with
  | y :: x :: _ => .ok (if i % 2 = 0 then x else y)
  | _ => .error .typeError

def absolute (p : PathParser) (args : List ℚ) : Except Error (List ℚ) :=
  match p.pathData.getLast? with
  | none => .ok args
  | some last => args.zipIdx.mapM fun (a, i) => do .ok (a + (← origin last i))

/-- After the first conversion there is no `c` left for the second one. -/
def parseCmd (cmd : Char) (args : List ℚ) (p : PathParser) : Except Error PathParser := do
  let cmd := if cmd = 'z' then 'Z' else cmd
  let args ← if cmd = 'm' ∨ cmd = 'c' then p.absolute args else .ok args
  let cmd := if cmd = 'm' ∨ cmd = 'c' then cmd.toUpper else cmd
  let p ← if cmd = 'M' then p.finishPath else .ok p
  if cmd ∉ "MZzLCQA".toList then
    .error .notImplementedError
  else
    .ok { p with pathData := p.pathData ++ [(cmd, args)] }

/-- The variables of `parse`. -/
structure Parsing where
  cmd : Option Char := none
  args : List ℚ := []
  parser : PathParser

def parseMatch (st : Parsing) : Match → Except Error Parsing
  | .cmd c => .ok { st with cmd := some c, args := [] }
  | .arg n =>
    let args := st.args ++ [n.float]
    match st.cmd with
    | none => .error .attributeError
    | some cmd =>
      match cmdArgsTable cmd.toUpper with
      | none => .error .keyError
      | some count =>
        if count = args.length then do
          .ok { st with args := [], parser := ← st.parser.parseCmd cmd args }
        else
          .ok { st with args := args }

def parse (s : List Char) (p : PathParser) : Except Error PathParser := do
  .ok (← (Scanner.finditer matchPathData s).foldlM parseMatch { parser := p }).parser

end PathParser

def parsePath (s : List Char) : Except Error (List (List Command)) := do
  let p ← PathParser.parse s {}
  .ok (← p.finishPath).paths

abbrev Point := ℚ × ℚ

structure Pair where
  x : Number
  y : Number
  deriving DecidableEq

namespace Pair

def float (p : Pair) : Point := (p.x.float, p.y.float)

def numbers (p : Pair) : List Number := [p.x, p.y]

end Pair

inductive PathCommand
  | moveto (relative : Bool) (first : Pair) (more : List Pair)
  | closepath (lower : Bool)
  | lineto (first : Pair) (more : List Pair)
  | curveto (relative : Bool) (first : Pair × Pair × Pair) (more : List (Pair × Pair × Pair))
  | quadto (first : Pair × Pair) (more : List (Pair × Pair))

namespace PathCommand

def letter : PathCommand → Char
  | moveto relative _ _ => if relative then 'm' else 'M'
  | closepath lower => if lower then 'z' else 'Z'
  | lineto _ _ => 'L'
  | curveto relative _ _ => if relative then 'c' else 'C'
  | quadto _ _ => 'Q'

def groups : PathCommand → List (List Number)
  | moveto _ first more => (first :: more).map Pair.numbers
  | closepath _ => []
  | lineto first more => (first :: more).map Pair.numbers
  | curveto _ first more =>
    (first :: more).map fun (p, q, r) => p.numbers ++ q.numbers ++ r.numbers
  | quadto first more => (first :: more).map fun (p, q) => p.numbers ++ q.numbers

def tokens (c : PathCommand) : List Match := .cmd c.letter :: c.groups.flatten.map .arg

end PathCommand

inductive PathText : List Match → List Char → Prop
  | nil : PathText [] []
  | blank {c s l} : c ∈ blanks → PathText l s → PathText l (c :: s)
  | cmd {c s l} : c ∈ letters → PathText l s → PathText (.cmd c :: l) (c :: s)
  | arg {n s l} : n.WellFormed → n.Ends s → PathText l s → PathText (.arg n :: l) (n.text ++ s)

theorem PathText.written {l : List Match} {s : List Char} (h : PathText l s) :
    Scanner.Written matchPathData l s := by
  induction h with
  | nil => exact .nil
  | @blank c s l hc _ ih =>
    refine .skip ?_ ih
    have hall : ∀ c ∈ blanks, c ∉ letters ∧ ¬IsSign c ∧ ¬c.isDigit ∧ c ≠ '.' :=
      List.all_iff_forall_prop.mp (by decide)
    obtain ⟨hletter, hsign, hdigit, hpoint⟩ := hall c hc
    rw [matchPathData, if_neg hletter, matchNumber_of_not hsign hdigit hpoint]
    rfl
  | @cmd c s l hc _ ih => exact .token (List.cons_ne_nil c [])  (if_pos hc) ih
  | @arg n s l hn hends _ ih =>
    refine .token (text_ne_nil hn) ?_ ih
    obtain ⟨c, text, htext, hc⟩ := text_head hn
    have hall : ∀ c ∈ letters, ¬IsSign c ∧ ¬c.isDigit ∧ c ≠ '.' :=
      List.all_iff_forall_prop.mp (by decide)
    have hletter : c ∉ letters := by
      intro hmem
      obtain ⟨hsign, hdigit, hpoint⟩ := hall c hmem
      exact hc.elim hsign fun h => h.elim hdigit hpoint
    have hmatch := matchNumber_text hn hends
    rw [htext, List.cons_append] at hmatch ⊢
    rw [matchPathData, if_neg hletter, hmatch]
    rfl

end NaviMisc.LaserProp.Svg

/-!
The subpaths that SVG makes of the commands of a path, and those that the parser makes of them.
-/

namespace NaviMisc.LaserProp.Svg

open NaviMisc.Lib

inductive Segment
  | line (p : Point)
  | cubic (p q r : Point)
  | quad (p q : Point)
  deriving DecidableEq

namespace Segment

def last : Segment → Point
  | line p => p
  | cubic _ _ r => r
  | quad _ q => q

def command : Segment → Command
  | line p => ('L', [p.1, p.2])
  | cubic p q r => ('C', [p.1, p.2, q.1, q.2, r.1, r.2])
  | quad p q => ('Q', [p.1, p.2, q.1, q.2])

end Segment

structure Subpath where
  start : Point
  segments : List Segment := []
  closed : Bool := false
  deriving DecidableEq

namespace Subpath

def here (s : Subpath) : Point := s.segments.getLast?.elim s.start Segment.last

def data (s : Subpath) : List Command :=
  ('M', [s.start.1, s.start.2]) :: (s.segments.map Segment.command ++
    if s.closed then [('Z', [])] else [])

def add (seg : Segment) (s : Subpath) : Subpath := { s with segments := s.segments ++ [seg] }

end Subpath

structure Outline where
  done : List Subpath := []
  current : Option Subpath := none
  start : Point := 0

inductive Step
  | move (relative : Bool) (p : Point)
  | line (relative : Bool) (p : Point)
  | cubic (relative : Bool) (p q r : Point)
  | quad (p q : Point)
  | close

def Step.isMove : Step → Bool
  | move _ _ => true
  | _ => false

def Step.isClose : Step → Bool
  | close => true
  | _ => false

namespace Outline

def subpath (o : Outline) : Subpath := o.current.getD { start := o.start }

def here (o : Outline) : Point := o.subpath.here

def position (o : Outline) (relative : Bool) (p : Point) : Point := if relative then p + o.here else p

def result (o : Outline) : List Subpath := o.done ++ o.current.toList

def add (o : Outline) (seg : Segment) : Outline := { o with current := some (o.subpath.add seg) }

def draw (o : Outline) : Step → Outline
  | .move relative p =>
    { done := o.result, current := some { start := o.position relative p }, start := o.position relative p }
  | .line relative p => o.add (.line (o.position relative p))
  | .cubic relative p q r =>
    o.add (.cubic (o.position relative p) (o.position relative q) (o.position relative r))
  | .quad p q => o.add (.quad p q)
  | .close =>
    { done := o.done ++ [{ o.subpath with closed := true }]
      current := none
      start := o.subpath.start }

end Outline

namespace PathCommand

def steps : PathCommand → List Step
  | moveto relative first more =>
    .move relative first.float :: more.map fun p => .line relative p.float
  | closepath _ => [.close]
  | lineto first more => (first :: more).map fun p => .line false p.float
  | curveto relative first more =>
    (first :: more).map fun (p, q, r) => .cubic relative p.float q.float r.float
  | quadto first more => (first :: more).map fun (p, q) => .quad p.float q.float

def recorded : PathCommand → List Step
  | moveto relative first more => (first :: more).map fun p => .move relative p.float
  | closepath _ => []
  | c => c.steps

def IsMoveto : PathCommand → Prop
  | moveto _ _ _ => True
  | _ => False

def Plain : PathCommand → Prop
  | moveto _ _ more => more = []
  | closepath _ => False
  | _ => True

end PathCommand

structure PathString where
  commands : List PathCommand
  text : List Char
  written : PathText (commands.flatMap PathCommand.tokens) text
  begins : ∀ c ∈ commands.head?, c.IsMoveto

def PathString.subpaths (s : PathString) : List Subpath :=
  ((s.commands.flatMap PathCommand.steps).foldl Outline.draw {}).result

namespace Subpath

variable {s : Subpath}

theorem data_add (h : s.closed = false) (seg : Segment) :
    (s.add seg).data = s.data ++ [seg.command] := by
  simp [data, add, h]

theorem data_getLast? (h : s.closed = false) :
    ∃ last, s.data.getLast? = some last ∧
      ∀ i, PathParser.origin last i = .ok (if i % 2 = 0 then s.here.1 else s.here.2) := by
  rw [data, h, here]
  rcases List.eq_nil_or_concat' s.segments with hnil | ⟨segments, seg, hseg⟩
  · rw [hnil]
    exact ⟨_, rfl, fun _ => rfl⟩
  · refine ⟨seg.command, ?_, fun i => ?_⟩
    · rw [hseg, List.map_append, List.map_singleton, if_neg (by decide), List.append_nil,
        ← List.cons_append, List.getLast?_concat]
    · rw [hseg, List.getLast?_concat]
      cases seg <;> rfl

end Subpath

namespace PathParser

structure Matches (p : PathParser) (o : Outline) : Prop where
  paths : p.paths = o.done.map Subpath.data
  pathData : p.pathData = (o.current.map Subpath.data).getD []
  opened : ∀ s ∈ o.current, s.closed = false
  start : o.current = none → o.start = 0

variable {p : PathParser} {o : Outline}

theorem finishPath_matches (h : p.Matches o) :
    p.finishPath = .ok { paths := o.result.map Subpath.data, pathData := [] } := by
  have hpaths := h.paths
  have hdata := h.pathData
  rw [finishPath, Outline.result, List.map_append, ← hpaths]
  cases hcurrent : o.current with
  | none =>
    rw [hcurrent] at hdata
    simp only [Option.map_none, Option.getD_none] at hdata
    obtain ⟨paths, pathData⟩ := p
    simp only at hdata
    rw [hdata]
    simp
  | some s =>
    rw [hcurrent] at hdata
    simp only [Option.map_some, Option.getD_some] at hdata
    rw [hdata]
    simp [Subpath.data]

theorem absolute_matches (h : p.Matches o) (args : List ℚ) :
    p.absolute args =
      .ok (args.zipIdx.map fun a => a.1 + if a.2 % 2 = 0 then o.here.1 else o.here.2) := by
  have hdata := h.pathData
  rw [absolute, hdata, Outline.here, Outline.subpath]
  cases hcurrent : o.current with
  | none =>
    rw [h.start hcurrent]
    simp [Subpath.here]
  | some s =>
    obtain ⟨last, hlast, horigin⟩ := s.data_getLast? (h.opened s hcurrent)
    simp only [Option.map_some, Option.getD_some, hlast]
    have hpure : (fun a : ℚ × ℕ => (do .ok (a.1 + (← origin last a.2)) : Except Error ℚ)) =
        fun a => pure (a.1 + if a.2 % 2 = 0 then s.here.1 else s.here.2) := by
      funext a
      rw [horigin]
      rfl
    exact (congrArg (args.zipIdx.mapM ·) hpure).trans (List.mapM_pure ..)

theorem parseCmd_move (h : p.Matches o) (relative : Bool) (q : Point) :
    ∃ p', p.parseCmd (if relative then 'm' else 'M') [q.1, q.2] = .ok p' ∧
      p'.Matches (o.draw (.move relative q)) := by
  have hposition : (if relative then p.absolute [q.1, q.2] else .ok [q.1, q.2]) =
      .ok [(o.position relative q).1, (o.position relative q).2] := by
    cases relative with
    | false => rfl
    | true => exact absolute_matches h [q.1, q.2]
  have hfinish := finishPath_matches h
  refine ⟨{ paths := o.result.map Subpath.data
            pathData := [('M', [(o.position relative q).1, (o.position relative q).2])] }, ?_, ?_⟩
  · cases relative with
    | false =>
      change (p.finishPath >>= _) = _
      rw [hfinish]
      rfl
    | true =>
      change (p.absolute [q.1, q.2] >>= _) = _
      rw [if_pos rfl] at hposition
      rw [hposition]
      change (p.finishPath >>= _) = _
      rw [hfinish]
      rfl
  · refine ⟨rfl, rfl, ?_, ?_⟩
    · rintro s ⟨⟩
      rfl
    · rintro ⟨⟩

theorem add_matches (h : p.Matches o) (hcurrent : o.current ≠ none) (seg : Segment) :
    Matches { p with pathData := p.pathData ++ [seg.command] } (o.add seg) := by
  have hdata := h.pathData
  obtain ⟨s, hs⟩ := Option.ne_none_iff_exists'.mp hcurrent
  have hopen := h.opened s hs
  refine ⟨h.paths, ?_, ?_, fun hnone => (nomatch hnone)⟩
  · change p.pathData ++ [seg.command] = (o.subpath.add seg).data
    rw [hdata, Outline.subpath, hs]
    exact (Subpath.data_add hopen seg).symm
  · rintro s' ⟨⟩
    change o.subpath.closed = false
    rw [Outline.subpath, hs]
    exact hopen

theorem parseCmd_line (p : PathParser) (q : Point) :
    p.parseCmd 'L' [q.1, q.2] =
      .ok { p with pathData := p.pathData ++ [Segment.command (.line q)] } := rfl

theorem parseCmd_quad (p : PathParser) (q r : Point) :
    p.parseCmd 'Q' [q.1, q.2, r.1, r.2] =
      .ok { p with pathData := p.pathData ++ [Segment.command (.quad q r)] } := rfl

theorem parseCmd_cubic (h : p.Matches o) (relative : Bool) (a b c : Point) :
    p.parseCmd (if relative then 'c' else 'C') [a.1, a.2, b.1, b.2, c.1, c.2] =
      .ok { p with pathData := p.pathData ++ [Segment.command (.cubic (o.position relative a)
        (o.position relative b) (o.position relative c))] } := by
  cases relative with
  | false => rfl
  | true =>
    have habsolute : p.absolute [a.1, a.2, b.1, b.2, c.1, c.2] =
        .ok [a.1 + o.here.1, a.2 + o.here.2, b.1 + o.here.1, b.2 + o.here.2, c.1 + o.here.1,
          c.2 + o.here.2] := by
      rw [absolute_matches h]
      simp
    change (p.absolute [a.1, a.2, b.1, b.2, c.1, c.2] >>= _) = _
    rw [habsolute]
    rfl

def arguments : Step → Char × List ℚ
  | .move relative p => (if relative then 'm' else 'M', [p.1, p.2])
  | .line _ p => ('L', [p.1, p.2])
  | .cubic relative p q r =>
    (if relative then 'c' else 'C', [p.1, p.2, q.1, q.2, r.1, r.2])
  | .quad p q => ('Q', [p.1, p.2, q.1, q.2])
  | .close => ('Z', [])

def Recordable : Step → Prop
  | .line relative _ => relative = false
  | .close => False
  | _ => True

theorem draw_current {s : Step} (hs : Recordable s) (o : Outline) : (o.draw s).current ≠ none := by
  cases s with
  | close => exact hs.elim
  | _ => exact Option.some_ne_none _

theorem parseCmd_matches (h : p.Matches o) {s : Step} (hs : Recordable s)
    (hcurrent : s.isMove ∨ o.current ≠ none) :
    ∃ p', p.parseCmd (arguments s).1 (arguments s).2 = .ok p' ∧ p'.Matches (o.draw s) := by
  cases s with
  | move relative q => exact parseCmd_move h relative q
  | line relative q =>
    cases hs
    exact ⟨_, parseCmd_line p q, add_matches h (hcurrent.resolve_left Bool.false_ne_true) (.line q)⟩
  | cubic relative a b c =>
    exact ⟨_, parseCmd_cubic h relative a b c, add_matches h (hcurrent.resolve_left Bool.false_ne_true) _⟩
  | quad q r => exact ⟨_, parseCmd_quad p q r, add_matches h (hcurrent.resolve_left Bool.false_ne_true) (.quad q r)⟩
  | close => exact hs.elim

theorem parse_args {cmd : Char} {count : ℕ} (hcount : cmdArgsTable cmd.toUpper = some count)
    (numbers : List Number) {args : List ℚ} (hne : numbers ≠ [])
    (hlength : args.length + numbers.length = count) (p : PathParser) :
    (numbers.map Match.arg).foldlM parseMatch ⟨some cmd, args, p⟩ =
      (p.parseCmd cmd (args ++ numbers.map Number.float)).map fun p => ⟨some cmd, [], p⟩ := by
  induction numbers generalizing args with
  | nil => exact absurd rfl hne
  | cons n numbers ih =>
    rw [List.length_cons] at hlength
    rw [List.map_cons, List.foldlM_cons, parseMatch]
    simp only [hcount]
    cases numbers with
    | nil =>
      rw [if_pos (by simpa using hlength.symm), List.map_singleton]
      cases p.parseCmd cmd (args ++ [n.float]) <;> rfl
    | cons n' numbers =>
      rw [if_neg (by simp at hlength ⊢; omega)]
      refine (ih (List.cons_ne_nil _ _) ?_).trans ?_
      · simp at hlength ⊢
        omega
      · simp

def Records (cmd : Char) (numbers : List Number) (s : Step) : Prop :=
  arguments s = (cmd, numbers.map Number.float) ∧ numbers ≠ [] ∧
    cmdArgsTable cmd.toUpper = some numbers.length ∧ Recordable s

theorem parse_groups {cmd : Char} {groups : List (List Number)} {steps : List Step}
    (hgroups : List.Forall₂ (Records cmd) groups steps) (h : p.Matches o)
    (hcurrent : (∀ s ∈ steps.head?, s.isMove) ∨ o.current ≠ none) :
    ∃ p', (groups.flatten.map Match.arg).foldlM parseMatch ⟨some cmd, [], p⟩ =
      .ok ⟨some cmd, [], p'⟩ ∧ p'.Matches (steps.foldl Outline.draw o) ∧
        (steps ≠ [] ∨ o.current ≠ none → (steps.foldl Outline.draw o).current ≠ none) := by
  induction hgroups generalizing p o with
  | nil => exact ⟨p, rfl, h, fun hor => hor.resolve_left fun hne => hne rfl⟩
  | @cons numbers s groups steps hrecords _ ih =>
    obtain ⟨harguments, hne, hcount, hs⟩ := hrecords
    obtain ⟨p₁, hp₁, h₁⟩ := parseCmd_matches h hs (hcurrent.imp_left fun hmove => hmove s rfl)
    obtain ⟨p₂, hp₂, h₂, hcurrent₂⟩ := ih h₁ (Or.inr (draw_current hs o))
    refine ⟨p₂, ?_, h₂, fun _ => hcurrent₂ (Or.inr (draw_current hs o))⟩
    rw [harguments] at hp₁
    rw [List.flatten_cons, List.map_append, List.foldlM_append,
      parse_args hcount numbers hne (Nat.zero_add _), List.nil_append, hp₁]
    exact hp₂

theorem forall₂_map {α : Type*} {cmd : Char} (l : List α) {f : α → List Number} {g : α → Step}
    (h : ∀ a, Records cmd (f a) (g a)) : List.Forall₂ (Records cmd) (l.map f) (l.map g) := by
  rw [List.forall₂_map_left_iff, List.forall₂_map_right_iff]
  exact List.forall₂_same.mpr fun a _ => h a

theorem records (c : PathCommand) : List.Forall₂ (Records c.letter) c.groups c.recorded := by
  have hmove : cmdArgsTable 'm'.toUpper = some 2 := by decide
  have hcubic : cmdArgsTable 'c'.toUpper = some 6 := by decide
  cases c with
  | moveto relative first more =>
    apply forall₂_map
    intro p
    cases relative with
    | false => exact ⟨rfl, List.cons_ne_nil _ _, rfl, trivial⟩
    | true => exact ⟨rfl, List.cons_ne_nil _ _, hmove, trivial⟩
  | closepath lower => exact .nil
  | lineto first more =>
    apply forall₂_map
    intro p
    exact ⟨rfl, List.cons_ne_nil _ _, rfl, rfl⟩
  | curveto relative first more =>
    apply forall₂_map
    intro p
    cases relative with
    | false => exact ⟨rfl, List.cons_ne_nil _ _, rfl, trivial⟩
    | true => exact ⟨rfl, List.cons_ne_nil _ _, hcubic, trivial⟩
  | quadto first more =>
    apply forall₂_map
    intro p
    exact ⟨rfl, List.cons_ne_nil _ _, rfl, trivial⟩

theorem parse_commands (commands : List PathCommand) (cmd : Option Char) (args : List ℚ)
    (h : p.Matches o) (hcurrent : (∀ c ∈ commands.head?, c.IsMoveto) ∨ o.current ≠ none) :
    ∃ st, (commands.flatMap PathCommand.tokens).foldlM parseMatch ⟨cmd, args, p⟩ = .ok st ∧
      st.parser.Matches ((commands.flatMap PathCommand.recorded).foldl Outline.draw o) := by
  induction commands generalizing cmd args p o with
  | nil => exact ⟨_, rfl, h⟩
  | cons c commands ih =>
    have hhead : (∀ s ∈ c.recorded.head?, s.isMove) ∨ o.current ≠ none := by
      refine hcurrent.imp_left fun hmove s hs => ?_
      have hc := hmove c rfl
      cases c with
      | moveto relative first more =>
        cases hs
        rfl
      | _ => exact hc.elim
    obtain ⟨p', hp', h', hcurrent'⟩ := parse_groups (records c) h hhead
    have hopen : c.recorded ≠ [] ∨ o.current ≠ none := by
      refine hcurrent.imp_left fun hmove => ?_
      have hc := hmove c rfl
      cases c with
      | moveto relative first more => exact List.cons_ne_nil _ _
      | _ => exact hc.elim
    obtain ⟨st, hst, hmatches⟩ := ih (some c.letter) [] h' (Or.inr (hcurrent' hopen))
    refine ⟨st, ?_, ?_⟩
    · rw [List.flatMap_cons, PathCommand.tokens, List.cons_append, List.foldlM_cons]
      change List.foldlM parseMatch ⟨some c.letter, [], p⟩ (_ ++ _) = _
      rw [List.foldlM_append, hp']
      exact hst
    · rw [List.flatMap_cons, List.foldl_append]
      exact hmatches

end PathParser

def PathString.recorded (s : PathString) : List Subpath :=
  ((s.commands.flatMap PathCommand.recorded).foldl Outline.draw {}).result

theorem parsePath_eq (s : PathString) :
    parsePath s.text = .ok (s.recorded.map Subpath.data) := by
  have hmatches : PathParser.Matches {} {} := ⟨rfl, rfl, fun _ h => (nomatch h), fun _ => rfl⟩
  obtain ⟨st, hst, h⟩ := PathParser.parse_commands s.commands none [] hmatches (Or.inl s.begins)
  rw [parsePath, PathParser.parse, s.written.written.finditer_eq, hst]
  change (st.parser.finishPath >>= _) = _
  rw [PathParser.finishPath_matches h]
  rfl

namespace Outline

variable {o : Outline} {steps : List Step}

theorem closed_subpath (h : ∀ s ∈ o.current, s.closed = false) : o.subpath.closed = false := by
  rw [subpath]
  cases hcurrent : o.current with
  | none => rfl
  | some s => exact h s hcurrent

theorem countP_toList (h : ∀ s ∈ o.current, s.closed = false) :
    o.current.toList.countP Subpath.closed = 0 := by
  cases hcurrent : o.current with
  | none => rfl
  | some s => simp [h s hcurrent]

theorem count_closed (steps : List Step) {o : Outline} (h : ∀ s ∈ o.current, s.closed = false) :
    (steps.foldl draw o).result.countP Subpath.closed =
      o.result.countP Subpath.closed + steps.countP Step.isClose := by
  induction steps generalizing o with
  | nil => rfl
  | cons step steps ih =>
    have hopen := closed_subpath h
    have hlast := countP_toList h
    have hstep : (∀ s ∈ (o.draw step).current, s.closed = false) ∧
        (o.draw step).result.countP Subpath.closed =
          o.result.countP Subpath.closed + if step.isClose then 1 else 0 := by
      cases step <;>
        simp [draw, add, position, Subpath.add, result, hopen, hlast, Step.isClose]
    rw [List.foldl_cons, ih hstep.1, hstep.2, List.countP_cons]
    omega

theorem length_result {steps : List Step} (hclose : steps.countP Step.isClose = 0) {o : Outline}
    (h : (∀ s ∈ steps.head?, s.isMove) ∨ o.current ≠ none) :
    (steps.foldl draw o).result.length = o.result.length + steps.countP Step.isMove := by
  induction steps generalizing o with
  | nil => rfl
  | cons step steps ih =>
    rw [List.countP_cons] at hclose
    have hstep : (o.draw step).current ≠ none ∧ (o.draw step).result.length =
        o.result.length + if step.isMove then 1 else 0 := by
      cases step with
      | move relative p => simp [draw, result, Step.isMove, Nat.add_assoc]
      | close => simp [Step.isClose] at hclose
      | _ =>
        obtain ⟨s, hs⟩ := Option.ne_none_iff_exists'.mp (h.resolve_left fun hm =>
          Bool.false_ne_true (hm _ rfl))
        simp [draw, add, result, Step.isMove, hs]
    rw [List.foldl_cons, ih (by omega) (Or.inr hstep.1), hstep.2, List.countP_cons]
    omega

end Outline

theorem Subpath.mem_data_iff (s : Subpath) : ('Z', []) ∈ s.data ↔ s.closed = true := by
  have hsegments : ('Z', []) ∉ s.segments.map Segment.command := by
    intro h
    obtain ⟨seg, -, hseg⟩ := List.mem_map.mp h
    cases seg <;> cases hseg
  cases hclosed : s.closed <;> simp [data, hclosed, hsegments]

namespace PathCommand

def repeated : PathCommand → ℕ
  | moveto _ _ more => more.length
  | _ => 0

theorem recorded_of_plain {c : PathCommand} (h : c.Plain) : c.recorded = c.steps := by
  cases c with
  | moveto relative first more =>
    cases h
    rfl
  | closepath lower => exact h.elim
  | _ => rfl

theorem plain_of {c : PathCommand} (hclose : ∀ s ∈ c.steps, ¬s.isClose) (hmore : c.repeated = 0) :
    c.Plain := by
  cases c with
  | moveto relative first more => exact List.eq_nil_of_length_eq_zero hmore
  | closepath lower => exact hclose .close List.mem_cons_self rfl
  | _ => trivial

theorem recordable {c : PathCommand} {s : Step} (hs : s ∈ c.recorded) : ¬s.isClose := by
  cases c with
  | closepath lower => cases hs
  | _ =>
    obtain ⟨a, -, rfl⟩ := List.mem_map.mp hs
    exact Bool.false_ne_true

theorem count_moves (c : PathCommand) :
    c.recorded.countP Step.isMove = c.steps.countP Step.isMove + c.repeated := by
  cases c with
  | moveto relative first more =>
    have hmoves : (more.map fun p => Step.move relative p.float).countP Step.isMove =
        more.length := by
      rw [List.countP_map]
      exact List.countP_eq_length.mpr fun _ _ => rfl
    have hlines : (more.map fun p => Step.line relative p.float).countP Step.isMove = 0 := by
      rw [List.countP_map]
      exact List.countP_eq_zero.mpr fun _ _ => Bool.false_ne_true
    rw [recorded, steps, repeated, List.map_cons, List.countP_cons, List.countP_cons, hmoves,
      hlines]
    simp [Step.isMove, Nat.add_comm]
  | closepath lower => rfl
  | _ => rfl

end PathCommand

theorem count_moves (commands : List PathCommand) :
    (commands.flatMap PathCommand.recorded).countP Step.isMove =
      (commands.flatMap PathCommand.steps).countP Step.isMove +
        (commands.map PathCommand.repeated).sum := by
  induction commands with
  | nil => rfl
  | cons c commands ih =>
    rw [List.flatMap_cons, List.flatMap_cons, List.countP_append, List.countP_append, ih,
      c.count_moves, List.map_cons, List.sum_cons]
    omega

theorem head_isMove {commands : List PathCommand} {f : PathCommand → List Step}
    (h : ∀ c ∈ commands.head?, c.IsMoveto)
    (hf : ∀ c, c.IsMoveto → ∃ s l, f c = s :: l ∧ s.isMove) :
    ∀ s ∈ (commands.flatMap f).head?, s.isMove := by
  cases commands with
  | nil => exact fun _ hs => (nomatch hs)
  | cons c commands =>
    obtain ⟨s, l, hc, hmove⟩ := hf c (h c rfl)
    rw [List.flatMap_cons, hc]
    rintro _ ⟨⟩
    exact hmove

/-- The parser makes the subpaths of SVG of a path string exactly if it has no closepath and no
moveto with further pairs of coordinates. -/
theorem path_normalised (s : PathString) :
    parsePath s.text = .ok (s.subpaths.map Subpath.data) ↔ ∀ c ∈ s.commands, c.Plain := by
  rw [parsePath_eq, Except.ok.injEq]
  constructor
  · intro h
    have hclosed : s.recorded.countP Subpath.closed = s.subpaths.countP Subpath.closed := by
      have hmem : Subpath.closed = (fun d => decide (('Z', []) ∈ d)) ∘ Subpath.data := by
        funext s
        simp [s.mem_data_iff]
      rw [hmem, ← List.countP_map, ← List.countP_map, h]
    have hlength : s.recorded.length = s.subpaths.length := by
      simpa using congrArg List.length h
    have hnone : ∀ s ∈ ({} : Outline).current, s.closed = false := fun _ hs => (nomatch hs)
    have hrecorded : (s.commands.flatMap PathCommand.recorded).countP Step.isClose = 0 := by
      rw [List.countP_eq_zero]
      intro step hstep
      obtain ⟨c, -, hc⟩ := List.mem_flatMap.mp hstep
      exact PathCommand.recordable hc
    have hsteps : (s.commands.flatMap PathCommand.steps).countP Step.isClose = 0 := by
      rw [PathString.recorded, PathString.subpaths, Outline.count_closed _ hnone,
        Outline.count_closed _ hnone, hrecorded] at hclosed
      omega
    have hbegins (f : PathCommand → List Step)
        (hf : ∀ c, c.IsMoveto → ∃ s l, f c = s :: l ∧ s.isMove) :=
      Or.inl (b := ({} : Outline).current ≠ none) (head_isMove s.begins hf)
    have hmoveto (c : PathCommand) (hc : c.IsMoveto) : (∃ s l, c.steps = s :: l ∧ s.isMove) ∧
        ∃ s l, c.recorded = s :: l ∧ s.isMove := by
      cases c with
      | moveto relative first more => exact ⟨⟨_, _, rfl, rfl⟩, _, _, rfl, rfl⟩
      | _ => exact hc.elim
    rw [PathString.recorded, PathString.subpaths,
      Outline.length_result hrecorded (hbegins _ fun c hc => (hmoveto c hc).2),
      Outline.length_result hsteps (hbegins _ fun c hc => (hmoveto c hc).1),
      count_moves] at hlength
    have hsum : (s.commands.map PathCommand.repeated).sum = 0 := by omega
    intro c hc
    apply PathCommand.plain_of
    · intro step hstep
      exact List.countP_eq_zero.mp hsteps step (List.mem_flatMap.mpr ⟨c, hc, hstep⟩)
    · exact List.sum_eq_zero_iff_forall_eq_nat.mp hsum _ (List.mem_map_of_mem hc)
  · intro h
    have heq : s.commands.flatMap PathCommand.recorded = s.commands.flatMap PathCommand.steps :=
      List.flatMap_congr fun c hc => PathCommand.recorded_of_plain (h c hc)
    rw [PathString.recorded, PathString.subpaths, heq]

section Closed

theorem PathText.digit {c d : Char} {s : List Char} {l : List Match} (hc : c.isDigit)
    (hd : ¬d.isDigit ∧ d ≠ '.' ∧ ¬IsExponentLetter d) (h : PathText l (d :: s)) :
    PathText (.arg (Svg.digit c) :: l) (c :: d :: s) :=
  .arg (digit_wellFormed hc) (ends_of hd) h

def closedLine : PathString where
  commands := [.moveto false ⟨digit '0', digit '0'⟩ [], .lineto ⟨digit '1', digit '0'⟩ [],
    .closepath false]
  text := "M0 0L1 0Z".toList
  written := by
    refine .cmd (by decide) (.digit (by decide) (by decide) (.blank (by decide) ?_))
    refine .digit (by decide) (by decide) (.cmd (by decide) (.digit (by decide) (by decide) ?_))
    refine .blank (by decide) (.digit (by decide) (by decide) (.cmd (by decide) .nil))
  begins := by
    rintro _ ⟨⟩
    trivial

theorem path_not_normalised :
    ¬ ∀ s : PathString, parsePath s.text = .ok (s.subpaths.map Subpath.data) := by
  intro h
  have hclosed := h closedLine
  rw [parsePath_eq, Except.ok.injEq] at hclosed
  have hlength := congrArg (fun l => (l.map List.length).sum) hclosed
  exact absurd hlength (by decide)

end Closed

end NaviMisc.LaserProp.Svg
