import Mathlib.Tactic.LinearCombination
import Mathlib.Tactic.Ring
import NaviMisc.LaserProp.SvgNumbers
import NaviMisc.Lib.Lists

/-!
The stack of transformations (client/SVGPath.py), with the functions of `math` given.
-/

namespace NaviMisc.LaserProp.Svg

open NaviMisc.Lib

structure Trigonometry (K : Type*) where
  radians : K → K
  sin : K → K
  cos : K → K
  tan : K → K

inductive Sequence (K : Type*)
  | list (elements : List K)
  | tuple (elements : List K)

namespace Sequence

variable {K : Type*}

def elements : Sequence K → List K
  | list l => l
  | tuple l => l

def get (p : Sequence K) (i : ℕ) : Except Error K :=
  match p.elements[i]? with
  | some a => .ok a
  | none => .error .indexError

def concat : Sequence K → Sequence K → Except Error (Sequence K)
  | list l, list l' => .ok (list (l ++ l'))
  | tuple l, tuple l' => .ok (tuple (l ++ l'))
  | _, _ => .error .typeError

end Sequence

structure Affine (K : Type*) where
  a : K
  b : K
  c : K
  d : K
  e : K
  f : K

structure TransformStack (K : Type*) where
  stack : List (Affine K)
  top : Affine K

namespace TransformStack

variable {K : Type*} [Field K]

def init : TransformStack K where
  stack := []
  top := ⟨1, 0, 0, 1, 0, 0⟩

def push (s : TransformStack K) : TransformStack K := { s with stack := s.top :: s.stack }

def pop (s : TransformStack K) : Except Error (TransformStack K) :=
  match s.stack with
  | [] => .error .indexError
  | top :: stack => .ok { stack := stack, top := top }

def transform (s : TransformStack K) (p : K × K) : K × K :=
  let t := s.top
  (t.a * p.1 + t.c * p.2 + t.e, t.b * p.1 + t.d * p.2 + t.f)

def matrix (m : Sequence K) (s : TransformStack K) : Except Error (TransformStack K) := do
  let t := s.top
  let m₀ ← m.get 0
  let m₁ ← m.get 1
  let m₂ ← m.get 2
  let m₃ ← m.get 3
  let m₄ ← m.get 4
  let m₅ ← m.get 5
  .ok { s with
    top := ⟨t.a * m₀ + t.c * m₁, t.b * m₀ + t.d * m₁, t.a * m₂ + t.c * m₃, t.b * m₂ + t.d * m₃,
      t.a * m₄ + t.c * m₅ + t.e, t.b * m₄ + t.d * m₅ + t.f⟩ }

def translate (p : Sequence K) (s : TransformStack K) : Except Error (TransformStack K) := do
  let p ← if p.elements.length < 2 then p.concat (.tuple [0]) else .ok p
  s.matrix (.tuple [1, 0, 0, 1, ← p.get 0, ← p.get 1])

def scale (p : Sequence K) (s : TransformStack K) : Except Error (TransformStack K) := do
  let p ← if p.elements.length < 2 then p.concat p else .ok p
  s.matrix (.tuple [← p.get 0, 0, 0, ← p.get 1, 0, 0])

variable (m : Trigonometry K)

def rotate (p : Sequence K) (s : TransformStack K) : Except Error (TransformStack K) := do
  let a := m.radians (← p.get 0)
  let matrix : Sequence K := .tuple [m.cos a, m.sin a, -m.sin a, m.cos a, 0, 0]
  if p.elements.length > 1 then do
    let s ← s.translate (.tuple [← p.get 1, ← p.get 2])
    let s ← s.matrix matrix
    s.translate (.tuple [-(← p.get 1), -(← p.get 2)])
  else
    s.matrix matrix

def skewX (p : Sequence K) (s : TransformStack K) : Except Error (TransformStack K) := do
  let a := m.radians (← p.get 0)
  s.matrix (.tuple [1, 0, m.tan a, 1, 0, 0])

def skewY (p : Sequence K) (s : TransformStack K) : Except Error (TransformStack K) := do
  let a := m.radians (← p.get 0)
  s.matrix (.tuple [1, m.tan a, 0, 1, 0, 0])

end TransformStack

inductive Method
  | matrix
  | rotate
  | scale
  | translate
  | skewX
  | skewY
  deriving DecidableEq

namespace Method

def name : Method → List Char
  | matrix => "matrix".toList
  | rotate => "rotate".toList
  | scale => "scale".toList
  | translate => "translate".toList
  | skewX => "skewX".toList
  | skewY => "skewY".toList

def all : List Method := [matrix, rotate, scale, translate, skewX, skewY]

def call {K : Type*} [Field K] (m : Trigonometry K) :
    Method → Sequence K → TransformStack K → Except Error (TransformStack K)
  | matrix => TransformStack.matrix
  | rotate => TransformStack.rotate m
  | scale => TransformStack.scale
  | translate => TransformStack.translate
  | skewX => TransformStack.skewX m
  | skewY => TransformStack.skewY m

end Method

inductive TransformToken
  | method (fn : Method)
  | number (n : Number)
  deriving DecidableEq

def matchTransform (s : List Char) : Option (TransformToken × List Char) :=
  match Method.all.find? fun fn => fn.name.isPrefixOf s with
  | some fn => some (.method fn, s.drop fn.name.length)
  | none => (matchNumber s).map fun (n, rest) => (.number n, rest)

namespace TransformStack

variable {K : Type*} [Field K] (m : Trigonometry K)

/-- The variables of `parse`. -/
structure Parsing (K : Type*) where
  fn : Option Method
  args : List K
  stack : TransformStack K

def Parsing.finish (st : Parsing K) : Except Error (TransformStack K) :=
  match st.fn with
  | none => .ok st.stack
  | some fn => fn.call m (.list st.args) st.stack

def parseToken (st : Parsing K) : TransformToken → Except Error (Parsing K)
  | .method fn => do .ok ⟨some fn, [], ← st.finish m⟩
  | .number n => .ok { st with args := st.args ++ [(n.float : K)] }

def parse (text : Option (List Char)) (s : TransformStack K) :
    Except Error (TransformStack K) :=
  match text with
  | none => .ok s
  | some text => do
    let st ← (Scanner.finditer matchTransform text).foldlM (parseToken m) ⟨none, [], s⟩
    st.finish m

end TransformStack

end NaviMisc.LaserProp.Svg

/-!
The maps that SVG makes of a list of transformations, and what the stack makes of it.
-/

namespace NaviMisc.LaserProp.Svg

open NaviMisc.Lib

inductive Transform
  | matrix (a b c d e f : Number)
  | scale (x : Number) (y : Option Number)
  | translate (x : Number) (y : Option Number)
  | rotate (a : Number) (center : Option (Number × Number))
  | skewX (a : Number)
  | skewY (a : Number)

namespace Transform

def method : Transform → Method
  | matrix _ _ _ _ _ _ => .matrix
  | scale _ _ => .scale
  | translate _ _ => .translate
  | rotate _ _ => .rotate
  | skewX _ => .skewX
  | skewY _ => .skewY

def args : Transform → List Number
  | matrix a b c d e f => [a, b, c, d, e, f]
  | scale x y => x :: y.toList
  | translate x y => x :: y.toList
  | rotate a center => a :: center.elim [] fun (x, y) => [x, y]
  | skewX a => [a]
  | skewY a => [a]

def tokens (t : Transform) : List TransformToken := .method t.method :: t.args.map .number

def Plain : Transform → Prop
  | translate _ y => y ≠ none
  | _ => True

variable {K : Type*} [Field K] (m : Trigonometry K)

def map : Transform → K × K → K × K
  | matrix a b c d e f, (x, y) =>
    (a.float * x + c.float * y + e.float, b.float * x + d.float * y + f.float)
  | scale x y, p => (x.float * p.1, (y.getD x).float * p.2)
  | translate x y, p => (p.1 + x.float, p.2 + y.elim 0 fun y => (y.float : K))
  | rotate a center, p =>
    let (x, y) : K × K := center.elim 0 fun (x, y) => (x.float, y.float)
    let s := m.sin (m.radians a.float)
    let c := m.cos (m.radians a.float)
    (c * (p.1 - x) - s * (p.2 - y) + x, s * (p.1 - x) + c * (p.2 - y) + y)
  | skewX a, p => (p.1 + m.tan (m.radians a.float) * p.2, p.2)
  | skewY a, p => (p.1, m.tan (m.radians a.float) * p.1 + p.2)

def call (t : Transform) : TransformStack K → Except Error (TransformStack K) :=
  t.method.call m (.list (t.args.map fun n => (n.float : K)))

end Transform

inductive TransformText : List TransformToken → List Char → Prop
  | nil : TransformText [] []
  | blank {c s l} : c ∈ '(' :: ')' :: blanks → TransformText l s → TransformText l (c :: s)
  | method {fn s l} : TransformText l s → TransformText (.method fn :: l) (fn.name ++ s)
  | number {n s l} : n.WellFormed → n.Ends s → TransformText l s →
      TransformText (.number n :: l) (n.text ++ s)

structure TransformString where
  list : List Transform
  text : List Char
  written : TransformText (list.flatMap Transform.tokens) text

def TransformString.map {K : Type*} [Field K] (m : Trigonometry K) (s : TransformString) :
    K × K → K × K :=
  (s.list.map (Transform.map m)).foldr (· ∘ ·) id

section Text

def initials : List Char := ['m', 'r', 's', 't']

theorem Method.name_initial (fn : Method) : ∃ c ∈ initials, ∃ name, fn.name = c :: name := by
  cases fn <;> exact ⟨_, by decide, _, rfl⟩

theorem matchTransform_number {c : Char} {s : List Char} (hc : c ∉ initials) :
    matchTransform (c :: s) = (matchNumber (c :: s)).map fun (n, rest) => (.number n, rest) := by
  rw [matchTransform, List.find?_eq_none.mpr]
  intro fn _ hmatch
  obtain ⟨d, hd, name, hname⟩ := fn.name_initial
  rw [hname, List.isPrefixOf_iff_prefix, List.cons_prefix_cons] at hmatch
  exact hc (hmatch.1 ▸ hd)

theorem matchTransform_method (fn : Method) (s : List Char) :
    matchTransform (fn.name ++ s) = some (.method fn, s) := by
  cases fn <;> rfl

theorem TransformText.written {l : List TransformToken} {s : List Char} (h : TransformText l s) :
    Scanner.Written matchTransform l s := by
  induction h with
  | nil => exact .nil
  | @blank c s l hc _ ih =>
    refine .skip ?_ ih
    have hall : ∀ c ∈ '(' :: ')' :: blanks,
        c ∉ initials ∧ ¬IsSign c ∧ ¬c.isDigit ∧ c ≠ '.' := by simp [initials, blanks, IsSign]
    obtain ⟨hinitial, hsign, hdigit, hpoint⟩ := hall c hc
    rw [matchTransform_number hinitial, matchNumber_of_not hsign hdigit hpoint]
    rfl
  | @method fn s l _ ih =>
    apply Scanner.Written.token _ (matchTransform_method fn s) ih
    obtain ⟨c, -, name, hname⟩ := fn.name_initial
    rw [hname]
    exact List.cons_ne_nil c name
  | @number n s l hn hends _ ih =>
    refine .token (text_ne_nil hn) ?_ ih
    obtain ⟨c, text, htext, hc⟩ := text_head hn
    have hall : ∀ c ∈ initials, ¬IsSign c ∧ ¬c.isDigit ∧ c ≠ '.' := by simp [initials, IsSign]
    have hinitial : c ∉ initials := by
      intro hmem
      obtain ⟨hsign, hdigit, hpoint⟩ := hall c hmem
      exact hc.elim hsign fun h => h.elim hdigit hpoint
    have hmatch := matchNumber_text hn hends
    rw [htext, List.cons_append] at hmatch ⊢
    rw [matchTransform_number hinitial, hmatch]
    rfl

end Text

section Maps

variable {K : Type*} [Field K] (m : Trigonometry K)

namespace TransformStack

theorem matrix_tuple (a b c d e f : K) (s : TransformStack K) :
    ∃ s', s.matrix (.tuple [a, b, c, d, e, f]) = .ok s' ∧ s'.stack = s.stack ∧
      ∀ p, s'.transform p = s.transform (a * p.1 + c * p.2 + e, b * p.1 + d * p.2 + f) := by
  refine ⟨_, rfl, rfl, fun p => Prod.ext ?_ ?_⟩
  · simp only [transform]
    ring
  · simp only [transform]
    ring

theorem translate_tuple (x y : K) (s : TransformStack K) :
    s.translate (.tuple [x, y]) = s.matrix (.tuple [1, 0, 0, 1, x, y]) := rfl

theorem rotate_center (a x y : K) (s : TransformStack K) :
    s.rotate m (.list [a, x, y]) = (do
      let s ← s.translate (.tuple [x, y])
      let s ← s.matrix (.tuple [m.cos (m.radians a), m.sin (m.radians a), -m.sin (m.radians a),
        m.cos (m.radians a), 0, 0])
      s.translate (.tuple [-x, -y])) := rfl

end TransformStack

namespace Transform

open TransformStack

theorem call_of_plain {t : Transform} (h : t.Plain) (s : TransformStack K) :
    ∃ s', t.call m s = .ok s' ∧ s'.stack = s.stack ∧
      ∀ p, s'.transform p = s.transform (t.map m p) := by
  cases t with
  | matrix a b c d e f => exact matrix_tuple _ _ _ _ _ _ s
  | scale x y =>
    obtain ⟨s', hs', hstack, htransform⟩ :=
      s.matrix_tuple (x.float : K) 0 0 ((y.getD x).float : K) 0 0
    refine ⟨s', ?_, hstack, fun p => ?_⟩
    · cases y <;> exact hs'
    · simp [htransform, map]
  | translate x y =>
    obtain ⟨y, rfl⟩ := Option.ne_none_iff_exists'.mp h
    obtain ⟨s', hs', hstack, htransform⟩ := s.matrix_tuple 1 0 0 1 (x.float : K) (y.float : K)
    refine ⟨s', hs', hstack, fun p => ?_⟩
    simp [htransform, map]
  | rotate a center =>
    cases center with
    | none =>
      obtain ⟨s', hs', hstack, htransform⟩ := s.matrix_tuple (m.cos (m.radians a.float))
        (m.sin (m.radians a.float)) (-m.sin (m.radians a.float)) (m.cos (m.radians a.float)) 0 0
      refine ⟨s', hs', hstack, fun p => ?_⟩
      simp [htransform, map, sub_eq_add_neg]
    | some center =>
      obtain ⟨x, y⟩ := center
      obtain ⟨s₁, hs₁, hstack₁, htransform₁⟩ := s.matrix_tuple 1 0 0 1 (x.float : K) (y.float : K)
      obtain ⟨s₂, hs₂, hstack₂, htransform₂⟩ := s₁.matrix_tuple (m.cos (m.radians a.float))
        (m.sin (m.radians a.float)) (-m.sin (m.radians a.float)) (m.cos (m.radians a.float)) 0 0
      obtain ⟨s₃, hs₃, hstack₃, htransform₃⟩ :=
        s₂.matrix_tuple 1 0 0 1 (-(x.float : K)) (-(y.float : K))
      refine ⟨s₃, ?_, hstack₃.trans (hstack₂.trans hstack₁), fun p => ?_⟩
      · refine (rotate_center m (a.float : K) x.float y.float s).trans ?_
        rw [translate_tuple, hs₁]
        let back (s : TransformStack K) := s.translate (.tuple [-(x.float : K), -(y.float : K)])
        exact (congrArg (· >>= back) hs₂).trans hs₃
      · simp [htransform₁, htransform₂, htransform₃, map, sub_eq_add_neg]
  | skewX a =>
    obtain ⟨s', hs', hstack, htransform⟩ :=
      s.matrix_tuple 1 0 (m.tan (m.radians a.float)) 1 0 0
    refine ⟨s', hs', hstack, fun p => ?_⟩
    simp [htransform, map]
  | skewY a =>
    obtain ⟨s', hs', hstack, htransform⟩ :=
      s.matrix_tuple 1 (m.tan (m.radians a.float)) 0 1 0 0
    refine ⟨s', hs', hstack, fun p => ?_⟩
    simp [htransform, map]

theorem call_of_not_plain {t : Transform} (h : ¬t.Plain) (s : TransformStack K) :
    t.call m s = .error .typeError := by
  cases t with
  | translate x y =>
    rw [Plain, not_not] at h
    rw [h]
    rfl
  | _ => exact (h trivial).elim

theorem calls_of_plain {l : List Transform} (h : ∀ t ∈ l, t.Plain) (s : TransformStack K) :
    ∃ s', l.foldlM (fun s t => t.call m s) s = .ok s' ∧ s'.stack = s.stack ∧
      ∀ p, s'.transform p = s.transform ((l.map (map m)).foldr (· ∘ ·) id p) := by
  induction l generalizing s with
  | nil => exact ⟨s, rfl, rfl, fun _ => rfl⟩
  | cons t l ih =>
    rw [List.forall_mem_cons] at h
    obtain ⟨s₁, hs₁, hstack₁, htransform₁⟩ := call_of_plain m h.1 s
    obtain ⟨s₂, hs₂, hstack₂, htransform₂⟩ := ih h.2 s₁
    refine ⟨s₂, ?_, hstack₂.trans hstack₁, fun p => (htransform₂ p).trans (htransform₁ _)⟩
    rw [List.foldlM_cons, hs₁]
    exact hs₂

theorem plain_of_calls {l : List Transform} {s s' : TransformStack K}
    (h : l.foldlM (fun s t => t.call m s) s = .ok s') : ∀ t ∈ l, t.Plain := by
  induction l generalizing s with
  | nil => exact fun _ ht => nomatch ht
  | cons t l ih =>
    rw [List.foldlM_cons] at h
    obtain ⟨s₁, hs₁, hs'⟩ := Lists.bind_eq_ok h
    rw [List.forall_mem_cons]
    refine ⟨by_contra fun ht => ?_, ih hs'⟩
    rw [call_of_not_plain m ht] at hs₁
    cases hs₁

end Transform

namespace TransformStack

theorem parse_numbers (numbers : List Number) (st : Parsing K) :
    (numbers.map TransformToken.number).foldlM (parseToken m) st =
      .ok { st with args := st.args ++ numbers.map fun n => (n.float : K) } := by
  induction numbers generalizing st with
  | nil =>
    rw [List.map_nil, List.map_nil, List.append_nil]
    rfl
  | cons n numbers ih =>
    refine (ih { st with args := st.args ++ [(n.float : K)] }).trans ?_
    rw [List.map_cons, List.append_assoc, List.singleton_append]

theorem parse_tokens (l : List Transform) (st : Parsing K) :
    (do let st ← (l.flatMap Transform.tokens).foldlM (parseToken m) st; st.finish m) =
      (do let s ← st.finish m; l.foldlM (fun s t => t.call m s) s) := by
  induction l generalizing st with
  | nil => cases h : st.finish m <;> simp [h]
  | cons t l ih =>
    rw [List.flatMap_cons, Transform.tokens, List.cons_append, List.foldlM_cons, parseToken]
    cases st.finish m with
    | error e => rfl
    | ok s =>
      change (List.foldlM (parseToken m) ⟨some t.method, [], s⟩ (_ ++ _) >>= _) = _
      rw [List.foldlM_append, parse_numbers]
      exact ih ⟨some t.method, _, s⟩

theorem parse_text (l : TransformString) (s : TransformStack K) :
    s.parse m (some l.text) = l.list.foldlM (fun s t => t.call m s) s := by
  rw [parse, l.written.written.finditer_eq]
  exact parse_tokens m l.list ⟨none, [], s⟩

theorem parse_list (l : TransformString) (s : TransformStack K) :
    (∃ s', s.parse m (some l.text) = .ok s' ∧ s'.stack = s.stack ∧
      ∀ p, s'.transform p = s.transform (l.map m p)) ↔ ∀ t ∈ l.list, t.Plain := by
  rw [parse_text]
  constructor
  · rintro ⟨s', hs', -⟩
    exact Transform.plain_of_calls m hs'
  · exact fun h => Transform.calls_of_plain m h s

inductive Op
  | push
  | parse (l : TransformString)
  | pop

/-- Every `pop` matches the last open `push`. -/
inductive Balanced : List Op → Prop
  | nil : Balanced []
  | parse {l ops} : Balanced ops → Balanced (.parse l :: ops)
  | bracket {ops ops'} : Balanced ops → Balanced ops' → Balanced (.push :: ops ++ .pop :: ops')

def apply (s : TransformStack K) : Op → Except Error (TransformStack K)
  | .push => .ok s.push
  | .parse l => s.parse m (some l.text)
  | .pop => s.pop

def run (ops : List Op) (s : TransformStack K) : Except Error (TransformStack K) :=
  ops.foldlM (apply m) s

theorem run_cons (op : Op) (ops : List Op) (s : TransformStack K) :
    run m (op :: ops) s = (do let s ← apply m s op; run m ops s) := List.foldlM_cons

theorem run_append (ops ops' : List Op) (s : TransformStack K) :
    run m (ops ++ ops') s = (do let s ← run m ops s; run m ops' s) := List.foldlM_append

def PlainOps (ops : List Op) : Prop := ∀ l, .parse l ∈ ops → ∀ t ∈ l.list, t.Plain

theorem plainOps_append {ops ops' : List Op} :
    PlainOps (ops ++ ops') ↔ PlainOps ops ∧ PlainOps ops' := by
  simp only [PlainOps, List.mem_append, or_imp, forall_and]

theorem plainOps_cons {op : Op} {ops : List Op} :
    PlainOps (op :: ops) ↔ PlainOps [op] ∧ PlainOps ops := @plainOps_append [op] ops

theorem plainOps_parse {l : TransformString} :
    PlainOps [.parse l] ↔ ∀ t ∈ l.list, t.Plain := by
  simp only [PlainOps, List.mem_singleton, Op.parse.injEq, forall_eq]

theorem plainOps_of_ne {op : Op} (h : ∀ l, op ≠ .parse l) : PlainOps [op] :=
  fun l hl => (h l (List.mem_singleton.mp hl).symm).elim

theorem plainOps_of_apply {op : Op} {s s' : TransformStack K} (h : apply m s op = .ok s') :
    PlainOps [op] := by
  cases op with
  | parse l =>
    rw [apply, parse_text] at h
    exact plainOps_parse.mpr (Transform.plain_of_calls m h)
  | push => exact plainOps_of_ne fun _ => Op.noConfusion
  | pop => exact plainOps_of_ne fun _ => Op.noConfusion

theorem run_balanced {ops : List Op} (h : Balanced ops) (hplain : PlainOps ops)
    (s : TransformStack K) : ∃ s', run m ops s = .ok s' ∧ s'.stack = s.stack := by
  induction h generalizing s with
  | nil => exact ⟨s, rfl, rfl⟩
  | @parse l ops _ ih =>
    rw [plainOps_cons, plainOps_parse] at hplain
    obtain ⟨s₁, hs₁, hstack₁, -⟩ := (parse_list m l s).mpr hplain.1
    obtain ⟨s', hs', hstack⟩ := ih hplain.2 s₁
    refine ⟨s', ?_, hstack.trans hstack₁⟩
    rw [run_cons, apply, hs₁]
    exact hs'
  | @bracket ops ops' _ _ ih ih' =>
    rw [List.cons_append, plainOps_cons, plainOps_append, @plainOps_cons .pop] at hplain
    obtain ⟨s₁, hs₁, hstack₁⟩ := ih hplain.2.1 s.push
    obtain ⟨s', hs', hstack⟩ := ih' hplain.2.2.2 s
    refine ⟨s', ?_, hstack⟩
    rw [List.cons_append, run_cons, apply]
    change run m (ops ++ .pop :: ops') s.push = _
    rw [run_append, hs₁]
    change run m (.pop :: ops') s₁ = _
    rw [run_cons, apply, pop, hstack₁]
    exact hs'

theorem plainOps_of_run {ops : List Op} {s s' : TransformStack K} (h : run m ops s = .ok s') :
    PlainOps ops := by
  induction ops generalizing s with
  | nil => exact fun _ hl => nomatch hl
  | cons op ops ih =>
    rw [run_cons] at h
    obtain ⟨s₁, hs₁, hs'⟩ := Lists.bind_eq_ok h
    exact plainOps_cons.mpr ⟨plainOps_of_apply m hs₁, ih hs'⟩

/-- A list acts as in SVG, and balanced operations restore the top, exactly if no translate has
one argument only. -/
theorem transform_semantics (m : Trigonometry K) :
    (∀ (l : TransformString) (s : TransformStack K),
      (∃ s', s.parse m (some l.text) = .ok s' ∧ s'.stack = s.stack ∧
        ∀ p, s'.transform p = s.transform (l.map m p)) ↔ ∀ t ∈ l.list, t.Plain) ∧
    ∀ ops, Balanced ops → ∀ s : TransformStack K,
      run m (.push :: ops ++ [.pop]) s = .ok s ↔
        ∀ l, .parse l ∈ ops → ∀ t ∈ l.list, t.Plain := by
  refine ⟨parse_list m, fun ops hops s => ⟨fun h => ?_, fun h => ?_⟩⟩
  · have hplain := plainOps_of_run m h
    rw [List.cons_append, plainOps_cons, plainOps_append] at hplain
    exact hplain.2.1
  · obtain ⟨s₁, hs₁, hstack₁⟩ := run_balanced m hops h s.push
    rw [List.cons_append, run_cons, apply]
    change run m (ops ++ [.pop]) s.push = _
    rw [run_append, hs₁]
    change run m [.pop] s₁ = _
    rw [run_cons, apply, pop, hstack₁]
    rfl

end TransformStack

end Maps

section Offset

def offset : TransformString where
  list := [.translate (digit '1') none]
  text := "translate(1)".toList
  written := by
    refine @TransformText.method .translate _ _ (.blank (by decide) (.number (digit_wellFormed ?_)
      (ends_of ?_) (.blank (by decide) .nil)))
    · decide
    · decide

theorem transform_fails : ¬ ∀ (m : Trigonometry ℚ) (l : TransformString) (s : TransformStack ℚ),
    ∃ s', s.parse m (some l.text) = .ok s' ∧
      ∀ p, s'.transform p = s.transform (l.map m p) := by
  intro h
  obtain ⟨s', hs', -⟩ := h ⟨id, id, id, id⟩ offset .init
  cases hs'

end Offset

end NaviMisc.LaserProp.Svg
