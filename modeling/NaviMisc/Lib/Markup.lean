import Mathlib.Data.List.Infix

/-!
A reader for the elements, the attributes and the predefined entities of XML, one character after
another, and the rules by which a text that was put together is read.
-/

namespace NaviMisc.Lib.Markup

abbrev Str := List Char

inductive Node
  | text (s : Str)
  | element (name : Str) (attributes : List (Str × Str)) (children : List Node)

section Names

def isSpace (c : Char) : Bool := c = ' ' ∨ c = '\t' ∨ c = '\r' ∨ c = '\n'

def nameStartRanges : List (ℕ × ℕ) :=
  [(0x3A, 0x3A), (0x41, 0x5A), (0x5F, 0x5F), (0x61, 0x7A), (0xC0, 0xD6), (0xD8, 0xF6),
    (0xF8, 0x2FF), (0x370, 0x37D), (0x37F, 0x1FFF), (0x200C, 0x200D), (0x2070, 0x218F),
    (0x2C00, 0x2FEF), (0x3001, 0xD7FF), (0xF900, 0xFDCF), (0xFDF0, 0xFFFD), (0x10000, 0xEFFFF)]

def nameRanges : List (ℕ × ℕ) :=
  nameStartRanges ++
    [(0x2D, 0x2D), (0x2E, 0x2E), (0x30, 0x39), (0xB7, 0xB7), (0x300, 0x36F), (0x203F, 0x2040)]

def isNameStart (c : Char) : Bool :=
  nameStartRanges.any fun r => r.1 ≤ c.toNat ∧ c.toNat ≤ r.2

def isNameChar (c : Char) : Bool := nameRanges.any fun r => r.1 ≤ c.toNat ∧ c.toNat ≤ r.2

def isName : Str → Bool
  | [] => false
  | c :: name => isNameStart c && name.all isNameChar

end Names

def APOS : Char := Char.ofNat 0x27

def QUOT : Char := Char.ofNat 0x22

def entities : List (Str × Char) :=
  [(['a', 'm', 'p'], '&'), (['l', 't'], '<'), (['g', 't'], '>'), (['a', 'p', 'o', 's'], APOS),
    (['q', 'u', 'o', 't'], QUOT)]

/-- An element that is not yet closed, with the nodes before it. -/
structure Level where
  name : Str
  attributes : List (Str × Str)
  before : List Node

/-- Where the reader stands, with what it has read of the piece that it is in. -/
inductive Mode
  | content (text : Str)
  | reference (text entity : Str)
  | markup
  | opening (name : Str)
  | tag (name : Str) (attributes : List (Str × Str))
  | key (name : Str) (attributes : List (Str × Str)) (key : Str)
  | equals (name : Str) (attributes : List (Str × Str)) (key : Str)
  | quote (name : Str) (attributes : List (Str × Str)) (key : Str)
  | value (name : Str) (attributes : List (Str × Str)) (key : Str) (delimiter : Char) (text : Str)
  | valueReference (name : Str) (attributes : List (Str × Str)) (key : Str) (delimiter : Char)
      (text entity : Str)
  | valued (name : Str) (attributes : List (Str × Str))
  | empty (name : Str) (attributes : List (Str × Str))
  | closing (name : Str)
  | closed (name : Str)

structure State where
  mode : Mode
  nodes : List Node
  levels : List Level

def textNodes (text : Str) : List Node := if text = [] then [] else [.text text]

namespace State

variable (s : State) (name : Str) (attributes : List (Str × Str)) (c : Char)

/-- What may come behind the name of a start tag and behind an attribute. -/
def inTag : Option State :=
  if isSpace c then some { s with mode := .tag name attributes }
  else if c = '/' then some { s with mode := .empty name attributes }
  else if c = '>' then some ⟨.content [], [], ⟨name, attributes, s.nodes⟩ :: s.levels⟩
  else none

def inEndTag : Option State :=
  if isSpace c then some { s with mode := .closed name }
  else if c = '>' then
    match s.levels with
    | l :: levels =>
      if l.name = name then
        some ⟨.content [], l.before ++ [.element name l.attributes s.nodes], levels⟩
      else none
    | [] => none
  else none

def addAttribute (key value : Str) : Option State :=
  if key ∈ attributes.map Prod.fst then none
  else some { s with mode := .valued name (attributes ++ [(key, value)]) }

def step : Option State :=
  match s.mode with
  | .content text =>
    if c = '<' then some { s with mode := .markup, nodes := s.nodes ++ textNodes text }
    else if c = '&' then some { s with mode := .reference text [] }
    else if c = '>' ∧ [']', ']'] <:+ text then none
    else some { s with mode := .content (text ++ [c]) }
  | .reference text entity =>
    if c = ';' then
      (entities.lookup entity).map fun d => { s with mode := .content (text ++ [d]) }
    else some { s with mode := .reference text (entity ++ [c]) }
  | .markup =>
    if c = '/' then some { s with mode := .closing [] }
    else if isNameStart c then some { s with mode := .opening [c] }
    else none
  | .opening name =>
    if isNameChar c then some { s with mode := .opening (name ++ [c]) } else s.inTag name [] c
  | .tag name attributes =>
    if isNameStart c then some { s with mode := .key name attributes [c] }
    else s.inTag name attributes c
  | .key name attributes key =>
    if isNameChar c then some { s with mode := .key name attributes (key ++ [c]) }
    else if isSpace c then some { s with mode := .equals name attributes key }
    else if c = '=' then some { s with mode := .quote name attributes key }
    else none
  | .equals name attributes key =>
    if isSpace c then some s
    else if c = '=' then some { s with mode := .quote name attributes key }
    else none
  | .quote name attributes key =>
    if isSpace c then some s
    else if c = QUOT ∨ c = APOS then some { s with mode := .value name attributes key c [] }
    else none
  | .value name attributes key delimiter text =>
    if c = delimiter then s.addAttribute name attributes key text
    else if c = '<' then none
    else if c = '&' then
      some { s with mode := .valueReference name attributes key delimiter text [] }
    else some { s with mode := .value name attributes key delimiter (text ++ [c]) }
  | .valueReference name attributes key delimiter text entity =>
    if c = ';' then
      (entities.lookup entity).map fun d =>
        { s with mode := .value name attributes key delimiter (text ++ [d]) }
    else some { s with mode := .valueReference name attributes key delimiter text (entity ++ [c]) }
  | .valued name attributes => s.inTag name attributes c
  | .empty name attributes =>
    if c = '>' then
      some { s with mode := .content [], nodes := s.nodes ++ [.element name attributes []] }
    else none
  | .closing name =>
    if (if name = [] then isNameStart c else isNameChar c) then
      some { s with mode := .closing (name ++ [c]) }
    else s.inEndTag name c
  | .closed name => s.inEndTag name c

end State

def run (s : State) (text : Str) : Option State := text.foldlM State.step s

/-- The nodes of a text of which every element is closed. -/
def parse (text : Str) : Option (List Node) :=
  match run ⟨.content [], [], []⟩ text with
  | some ⟨.content text, nodes, []⟩ => some (nodes ++ textNodes text)
  | _ => none

section Run

variable {s t u : State} {text text' : Str}

theorem run_append (s : State) (text text' : Str) :
    run s (text ++ text') = (run s text).bind fun t => run t text' := List.foldlM_append ..

theorem run_cons (s : State) (c : Char) (text : Str) :
    run s (c :: text) = (s.step c).bind fun t => run t text := List.foldlM_cons ..

theorem run_trans (h : run s text = some t) (h' : run t text' = some u) :
    run s (text ++ text') = some u := by
  rw [run_append, h, Option.bind_some, h']

theorem run_step {c : Char} (h : s.step c = some t) (h' : run t text = some u) :
    run s (c :: text) = some u := by
  rw [run_cons, h, Option.bind_some, h']

theorem run_collect (mode : Str → Mode) {nodes : List Node} {levels : List Level}
    (h : ∀ c ∈ text, ∀ acc, State.step ⟨mode acc, nodes, levels⟩ c =
      some ⟨mode (acc ++ [c]), nodes, levels⟩) (acc : Str) :
    run ⟨mode acc, nodes, levels⟩ text = some ⟨mode (acc ++ text), nodes, levels⟩ := by
  induction text generalizing acc with
  | nil =>
    rw [List.append_nil]
    rfl
  | cons c text ih =>
    refine run_step (h c List.mem_cons_self acc) ?_
    rw [ih (fun d hd => h d (List.mem_cons_of_mem c hd)), List.append_assoc]
    rfl

end Run

section Reads

variable {text text' : Str} {nodes nodes' : List Node}

def feed : List Node × Str → Node → List Node × Str
  | (nodes, text), .text s => (nodes, text ++ s)
  | (nodes, text), .element name attributes children =>
    (nodes ++ textNodes text ++ [.element name attributes children], [])

def merge (nodes : List Node) : List Node :=
  let (nodes, text) := nodes.foldl feed ([], [])
  nodes ++ textNodes text

/-- A text that is read as the given nodes wherever content is. -/
def Reads (text : Str) (nodes : List Node) : Prop :=
  ∀ (before : List Node) (pending : Str) (levels : List Level),
    run ⟨.content pending, before, levels⟩ text =
      some ⟨.content (nodes.foldl feed (before, pending)).2,
        (nodes.foldl feed (before, pending)).1, levels⟩

theorem Reads.nil : Reads [] [] := fun _ _ _ => rfl

theorem Reads.append (h : Reads text nodes) (h' : Reads text' nodes') :
    Reads (text ++ text') (nodes ++ nodes') := by
  intro before pending levels
  rw [List.foldl_append]
  exact run_trans (h before pending levels) (h' _ _ levels)

theorem Reads.parse (h : Reads text nodes) : parse text = some (merge nodes) := by
  rw [Markup.parse, h]
  rfl

theorem step_content {c : Char} (h : c ≠ '<' ∧ c ≠ '&' ∧ c ≠ '>') (before : List Node)
    (pending : Str) (levels : List Level) :
    State.step ⟨.content pending, before, levels⟩ c =
      some ⟨.content (pending ++ [c]), before, levels⟩ := by
  simp [State.step, h.1, h.2.1, h.2.2]

theorem run_reference {entity : Str} {d : Char} (hd : entities.lookup entity = some d)
    (hentity : ∀ c ∈ entity, c ≠ ';') (before : List Node) (pending : Str)
    (levels : List Level) :
    run ⟨.reference pending [], before, levels⟩ (entity ++ [';']) =
      some ⟨.content (pending ++ [d]), before, levels⟩ := by
  have hcollect : run ⟨.reference pending [], before, levels⟩ entity =
      some ⟨.reference pending ([] ++ entity), before, levels⟩ :=
    run_collect (.reference pending) (fun c hc acc => by simp [State.step, hentity c hc]) []
  refine run_trans hcollect ?_
  refine run_step ?_ rfl
  simp [State.step, hd]

end Reads

section Escapes

/-- Each character is written as it is or as a reference to it. -/
def Escapes (plain : Char → Prop) (escape : Char → Str) : Prop :=
  ∀ c, escape c = [c] ∧ plain c ∨ ∃ entity, escape c = '&' :: (entity ++ [';']) ∧
    entities.lookup entity = some c ∧ ∀ d ∈ entity, d ≠ ';'

variable {escape : Char → Str} {nodes : List Node} {levels : List Level}

theorem Escapes.reads (h : Escapes (fun c => c ≠ '<' ∧ c ≠ '&' ∧ c ≠ '>') escape) (text : Str) :
    Reads (text.flatMap escape) [.text text] := by
  intro before pending levels
  change _ = some (⟨.content (pending ++ text), before, levels⟩ : State)
  induction text generalizing pending with
  | nil =>
    rw [List.append_nil]
    rfl
  | cons c text ih =>
    have hone : run ⟨.content pending, before, levels⟩ (escape c) =
        some ⟨.content (pending ++ [c]), before, levels⟩ := by
      rcases h c with ⟨hc, hplain⟩ | ⟨entity, hc, hlookup, hentity⟩
      · rw [hc]
        exact run_step (step_content hplain before pending levels) rfl
      · rw [hc]
        exact run_step rfl (run_reference hlookup hentity before pending levels)
    rw [List.flatMap_cons]
    refine run_trans hone ?_
    rw [ih, List.append_assoc]
    rfl

theorem Escapes.value {delimiter : Char}
    (h : Escapes (fun c => c ≠ delimiter ∧ c ≠ '<' ∧ c ≠ '&') escape) (hamp : delimiter ≠ '&')
    (name key : Str) (attributes : List (Str × Str)) (text acc : Str) :
    run ⟨.value name attributes key delimiter acc, nodes, levels⟩ (text.flatMap escape) =
      some ⟨.value name attributes key delimiter (acc ++ text), nodes, levels⟩ := by
  induction text generalizing acc with
  | nil =>
    rw [List.append_nil]
    rfl
  | cons c text ih =>
    have hone : run ⟨.value name attributes key delimiter acc, nodes, levels⟩ (escape c) =
        some ⟨.value name attributes key delimiter (acc ++ [c]), nodes, levels⟩ := by
      rcases h c with ⟨hc, hdelimiter, hlt, hplain⟩ | ⟨entity, hc, hlookup, hentity⟩
      · rw [hc]
        refine run_step ?_ rfl
        simp [State.step, hdelimiter, hlt, hplain]
      · rw [hc]
        refine run_step (t := ⟨.valueReference name attributes key delimiter acc [], nodes, levels⟩)
          (by simp [State.step, hamp.symm]) ?_
        refine run_trans (run_collect (.valueReference name attributes key delimiter acc)
          (fun c hc acc => by simp [State.step, hentity c hc]) []) ?_
        refine run_step ?_ rfl
        simp [State.step, hlookup]
    rw [List.flatMap_cons]
    refine run_trans hone ?_
    rw [ih, List.append_assoc]
    rfl

end Escapes

section Elements

variable {nodes : List Node} {levels : List Level} {name key : Str}
  {attributes : List (Str × Str)} {s : State}

theorem isName_cons (h : isName name) :
    ∃ c rest, name = c :: rest ∧ isNameStart c ∧ ∀ d ∈ rest, isNameChar d := by
  cases name with
  | nil => exact absurd h Bool.false_ne_true
  | cons c rest =>
    obtain ⟨hc, hrest⟩ := Bool.and_eq_true_iff.mp h
    exact ⟨c, rest, rfl, hc, List.all_eq_true.mp hrest⟩

inductive Ready (nodes : List Node) (levels : List Level) : Str → List (Str × Str) → State → Prop
  | opening (name : Str) : Ready nodes levels name [] ⟨.opening name, nodes, levels⟩
  | valued (name : Str) (attributes : List (Str × Str)) :
    Ready nodes levels name attributes ⟨.valued name attributes, nodes, levels⟩

theorem Ready.step (h : Ready nodes levels name attributes s) {c : Char} (hc : ¬isNameChar c) :
    s.step c = State.inTag ⟨.valued name attributes, nodes, levels⟩ name attributes c := by
  cases h with
  | opening => simp [State.step, hc, State.inTag]
  | valued => rfl

def attributeText (escape : Char → Str) (a : Str × Str) : Str :=
  ' ' :: (a.1 ++ ('=' :: QUOT :: (a.2.flatMap escape ++ [QUOT])))

variable {escape : Char → Str} (hescape : Escapes (fun c => c ≠ QUOT ∧ c ≠ '<' ∧ c ≠ '&') escape)

include hescape

theorem Ready.attribute (h : Ready nodes levels name attributes s) (a : Str × Str)
    (ha : isName a.1) (hfresh : a.1 ∉ attributes.map Prod.fst) :
    run s (attributeText escape a) =
      some ⟨.valued name (attributes ++ [a]), nodes, levels⟩ := by
  obtain ⟨key, value⟩ := a
  obtain ⟨c, rest, hkey, hc, hrest⟩ := isName_cons ha
  change key = c :: rest at hkey
  subst hkey
  rw [attributeText]
  have hkeys : run ⟨.key name attributes [c], nodes, levels⟩ rest =
      some ⟨.key name attributes ([c] ++ rest), nodes, levels⟩ :=
    run_collect (.key name attributes) (fun d hd acc => by simp [State.step, hrest d hd]) [c]
  have hvalue : run ⟨.value name attributes (c :: rest) QUOT [], nodes, levels⟩
      (value.flatMap escape) =
      some ⟨.value name attributes (c :: rest) QUOT ([] ++ value), nodes, levels⟩ :=
    hescape.value (by decide) name (c :: rest) attributes value []
  refine run_step (t := ⟨.tag name attributes, nodes, levels⟩) ?_ ?_
  · rw [h.step (by decide)]
    rfl
  refine run_step (t := ⟨.key name attributes [c], nodes, levels⟩) ?_ ?_
  · simp [State.step, hc]
  refine run_trans hkeys ?_
  refine run_step (t := ⟨.quote name attributes (c :: rest), nodes, levels⟩) rfl ?_
  refine run_step (t := ⟨.value name attributes (c :: rest) QUOT [], nodes, levels⟩) rfl ?_
  refine run_trans hvalue (run_step ?_ rfl)
  simp only [State.step, if_true, State.addAttribute, if_neg hfresh, List.nil_append]

theorem Ready.attributeList (h : Ready nodes levels name attributes s) (as : List (Str × Str))
    (has : ∀ a ∈ as, isName a.1) (hnodup : ((attributes ++ as).map Prod.fst).Nodup) :
    ∃ t, Ready nodes levels name (attributes ++ as) t ∧
      run s (as.flatMap (attributeText escape)) = some t := by
  induction as generalizing attributes s with
  | nil =>
    rw [List.append_nil]
    exact ⟨s, h, rfl⟩
  | cons a as ih =>
    have hfresh : a.1 ∉ attributes.map Prod.fst := by
      rw [List.map_append, List.nodup_append] at hnodup
      exact fun ha => hnodup.2.2 _ ha _ (List.mem_map_of_mem List.mem_cons_self) rfl
    have hone := h.attribute hescape a (has a List.mem_cons_self) hfresh
    rw [List.append_cons] at hnodup ⊢
    obtain ⟨t, ht, hrun⟩ := ih (.valued name (attributes ++ [a]))
      (fun b hb => has b (List.mem_cons_of_mem a hb)) hnodup
    exact ⟨t, ht, run_trans hone hrun⟩

def tagText (escape : Char → Str) (name : Str) (attributes : List (Str × Str)) : Str :=
  '<' :: (name ++ attributes.flatMap (attributeText escape))

theorem run_tag (hname : isName name) (hattributes : ∀ a ∈ attributes, isName a.1)
    (hnodup : (attributes.map Prod.fst).Nodup) (before : List Node) (pending : Str)
    (levels : List Level) :
    ∃ t, Ready (before ++ textNodes pending) levels name attributes t ∧
      run ⟨.content pending, before, levels⟩ (tagText escape name attributes) = some t := by
  obtain ⟨c, rest, rfl, hc, hrest⟩ := isName_cons hname
  have hslash : c ≠ '/' := by
    rintro rfl
    exact absurd hc (by decide)
  have hnames : run ⟨.opening [c], before ++ textNodes pending, levels⟩ rest =
      some ⟨.opening ([c] ++ rest), before ++ textNodes pending, levels⟩ :=
    run_collect .opening (fun d hd acc => by simp [State.step, hrest d hd]) [c]
  obtain ⟨t, ht, hrun⟩ := 
    (Ready.opening (c :: rest)).attributeList hescape attributes hattributes hnodup
  refine ⟨t, ht, ?_⟩
  refine run_step (t := ⟨.markup, before ++ textNodes pending, levels⟩) rfl ?_
  refine run_step (t := ⟨.opening [c], before ++ textNodes pending, levels⟩) ?_ ?_
  · simp [State.step, hc, hslash]
  exact run_trans hnames hrun

theorem Reads.empty (hname : isName name) (hattributes : ∀ a ∈ attributes, isName a.1)
    (hnodup : (attributes.map Prod.fst).Nodup) :
    Reads (tagText escape name attributes ++ [' ', '/', '>']) [.element name attributes []] := by
  intro before pending levels
  obtain ⟨t, ht, hrun⟩ := run_tag hescape hname hattributes hnodup before pending levels
  refine run_trans hrun ?_
  refine run_step (t := ⟨.tag name attributes, before ++ textNodes pending, levels⟩) ?_ rfl
  rw [ht.step (by decide)]
  rfl

theorem Reads.element {text : Str} {children : List Node} (hname : isName name)
    (hattributes : ∀ a ∈ attributes, isName a.1) (hnodup : (attributes.map Prod.fst).Nodup)
    (h : Reads text children) :
    Reads (tagText escape name attributes ++ '>' :: (text ++ '<' :: '/' :: (name ++ ['>'])))
      [.element name attributes (merge children)] := by
  intro before pending levels
  obtain ⟨t, ht, hrun⟩ := run_tag hescape hname hattributes hnodup before pending levels
  obtain ⟨c, rest, rfl, hc, hrest⟩ := isName_cons hname
  let level : Level := ⟨c :: rest, attributes, before ++ textNodes pending⟩
  have hclosing : run ⟨.closing [c], merge children, level :: levels⟩ rest =
      some ⟨.closing (c :: rest), merge children, level :: levels⟩ :=
    run_collect (fun acc => .closing (c :: acc))
      (fun d hd acc => by simp [State.step, hrest d hd]) []
  refine run_trans hrun ?_
  refine run_step (t := ⟨.content [], [], level :: levels⟩) ?_ ?_
  · rw [ht.step (by decide)]
    rfl
  refine run_trans (h [] [] (level :: levels)) ?_
  refine run_step (t := ⟨.markup, merge children, level :: levels⟩) rfl ?_
  refine run_step (t := ⟨.closing [], merge children, level :: levels⟩) rfl ?_
  refine run_step (t := ⟨.closing [c], merge children, level :: levels⟩) ?_ ?_
  · simp [State.step, hc]
  refine run_trans hclosing (run_step ?_ rfl)
  simp only [State.step, List.cons_ne_nil, if_false, State.inEndTag, level, if_true]
  rfl

end Elements

end NaviMisc.Lib.Markup
