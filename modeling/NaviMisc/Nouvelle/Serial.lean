import Mathlib.Data.List.Lemmas
import NaviMisc.Lib.Markup
import NaviMisc.Lib.Text

/-!
The serializer of Nouvelle (Nouvelle/Serial.py): a reader finds in its text what the document says.
-/

namespace NaviMisc.Nouvelle

open Lib.Markup Lib.Text

section Objects

inductive Value
  | none
  | str (s : Str)
  | int (n : ℤ)

def strOfInt (n : ℤ) : Str := (toString n).toList

/-- What `str` makes of a value that is not `None`. -/
def Value.text : Value → Option Str
  | .none => Option.none
  | .str s => some s
  | .int n => some (strOfInt n)

def escapeToXml (text : Str) (isAttrib : Bool) : Str :=
  let text := replace ['&'] ['&', 'a', 'm', 'p', ';'] text
  let text := replace ['<'] ['&', 'l', 't', ';'] text
  let text := replace ['>'] ['&', 'g', 't', ';'] text
  if isAttrib then
    let text := replace [APOS] ['&', 'a', 'p', 'o', 's', ';'] text
    replace [QUOT] ['&', 'q', 'u', 'o', 't', ';'] text
  else text

structure Tag where
  name : Str
  attributes : List (Str × Value)
  renderedOpening : Str
  renderedEmpty : Str
  renderedClosing : Str

/-- The attributes are in the order of the dictionary, and an empty key has no first character. -/
def stringizeAttributes : List (Str × Value) → Option Str
  | [] => some []
  | ([], _) :: _ => none
  | (c :: key, value) :: attributes =>
    let key := if c = '_' then key else c :: key
    match value.text, stringizeAttributes attributes with
    | some s, some rest =>
      some (' ' :: (key ++ '=' :: QUOT :: (escapeToXml s true ++ [QUOT])) ++ rest)
    | none, rest => rest
    | some _, none => none

def tag (name : Str) (attributes : List (Str × Value)) : Option Tag :=
  (stringizeAttributes attributes).map fun attrString =>
    { name := name
      attributes := attributes
      renderedOpening := '<' :: (name ++ attrString ++ ['>'])
      renderedEmpty := '<' :: (name ++ attrString ++ [' ', '/', '>'])
      renderedClosing := '<' :: '/' :: (name ++ ['>']) }

/-- An `xml` is text that is marked up already. What a subcontext changes is only looked at by
places and functions. -/
inductive Obj
  | str (s : Str)
  | xml (s : Str)
  | int (n : ℤ)
  | list (l : List Obj)
  | tuple (l : List Obj)
  | subcontext (content : Obj)
  | quote (item : Obj)
  | tag (t : Tag) (content : Obj)

/-- `content in ('', [], ())` -/
def Obj.isEmpty : Obj → Bool
  | .str [] => true
  | .xml [] => true
  | .list [] => true
  | .tuple [] => true
  | _ => false

def Tag.render (t : Tag) (content : Obj) : Obj :=
  if content.isEmpty then .xml t.renderedEmpty
  else .list [.xml t.renderedOpening, content, .xml t.renderedClosing]

def Obj.text : Obj → Option Str
  | .str s => some s
  | .xml s => some s
  | .int n => some (strOfInt n)
  | _ => none

end Objects

section Serializer

inductive Cls
  | str
  | xml
  | int
  | list
  | tuple
  | subcontext
  | quote
  | tag
  deriving DecidableEq

def Cls.name : Cls → String
  | .str => "str"
  | .xml => "xml"
  | .int => "int"
  | .list => "list"
  | .tuple => "tuple"
  | .subcontext => "subcontext"
  | .quote => "quote"
  | .tag => "tag"

def Obj.cls : Obj → Cls
  | .str _ => .str
  | .xml _ => .xml
  | .int _ => .int
  | .list _ => .list
  | .tuple _ => .tuple
  | .subcontext _ => .subcontext
  | .quote _ => .quote
  | .tag _ _ => .tag

inductive Renderer
  | xml
  | list
  | tuple
  | quote
  | function
  | instancemethod
  | renderable
  | subcontext
  | other
  deriving DecidableEq

/-- The methods of the serializer behind `render_`. -/
def renderers : List (String × Renderer) :=
  [("xml", .xml), ("list", .list), ("tuple", .tuple), ("quote", .quote), ("function", .function),
    ("instancemethod", .instancemethod), ("renderable", .renderable), ("subcontext", .subcontext),
    ("other", .other)]

def lookupRenderer (cls : Cls) : Renderer :=
  if cls = .tag then .renderable else (renderers.lookup cls.name).getD .other

abbrev Cache := Cls → Option Renderer

def renderList (render : Cache → Obj → Option (Str × Cache)) :
    Cache → List Obj → Option (Str × Cache)
  | cache, [] => some ([], cache)
  | cache, o :: l =>
    (render cache o).bind fun r => (renderList render r.2 l).map fun rest => (r.1 ++ rest.1, rest.2)

/-- The methods, with `render` for the calls that they make. -/
def call (render : Cache → Obj → Option (Str × Cache)) (cache : Cache) :
    Renderer → Obj → Option (Str × Cache)
  | .xml, .xml s => some (s, cache)
  | .list, .list l => renderList render cache l
  | .tuple, .tuple l => renderList render cache l
  | .quote, .quote item => (render cache item).map fun r => (escapeToXml r.1 false, r.2)
  | .renderable, .tag t content => render cache (t.render content)
  | .subcontext, .subcontext content => render cache content
  | .other, obj => obj.text.map fun s => (escapeToXml s false, cache)
  | _, _ => none

/-- The text of the `xml` that is returned. The fuel is the depth of the calls. -/
def render : ℕ → Cache → Obj → Option (Str × Cache)
  | 0, _, _ => none
  | fuel + 1, cache, obj =>
    let f := (cache obj.cls).getD (lookupRenderer obj.cls)
    call (render fuel) (Function.update cache obj.cls (some f)) f obj

end Serializer

section Documents

def attributeName : Str → Str
  | [] => []
  | c :: key => if c = '_' then key else c :: key

def attributesOf (attributes : List (Str × Value)) : List (Str × Str) :=
  attributes.filterMap fun a => a.2.text.map fun s => (attributeName a.1, s)

inductive Document : Obj → Prop
  | str (s : Str) : Document (.str s)
  | int (n : ℤ) : Document (.int n)
  | list {l : List Obj} (h : ∀ o ∈ l, Document o) : Document (.list l)
  | tuple {l : List Obj} (h : ∀ o ∈ l, Document o) : Document (.tuple l)
  | subcontext {content : Obj} (h : Document content) : Document (.subcontext content)
  | quote {item : Obj} (h : Document item) : Document (.quote item)
  | tag {name : Str} {attributes : List (Str × Value)} {t : Tag} {content : Obj}
    (ht : tag name attributes = some t) (hname : isName name)
    (hattributes : ∀ a ∈ attributes, isName (attributeName a.1))
    (hnodup : (attributes.map fun a => attributeName a.1).Nodup) (h : Document content) :
    Document (.tag t content)

mutual

def serialize : Obj → Str
  | .str s => escapeToXml s false
  | .xml s => s
  | .int n => escapeToXml (strOfInt n) false
  | .list l => serializeList l
  | .tuple l => serializeList l
  | .subcontext content => serialize content
  | .quote item => escapeToXml (serialize item) false
  | .tag t content =>
    if content.isEmpty then t.renderedEmpty
    else t.renderedOpening ++ (serialize content ++ t.renderedClosing)

def serializeList : List Obj → Str
  | [] => []
  | o :: l => serialize o ++ serializeList l

end

mutual

def nodes : Obj → List Node
  | .str s => [.text s]
  | .xml _ => []
  | .int n => [.text (strOfInt n)]
  | .list l => nodesList l
  | .tuple l => nodesList l
  | .subcontext content => nodes content
  | .quote item => [.text (serialize item)]
  | .tag t content => [.element t.name (attributesOf t.attributes) (merge (nodes content))]

def nodesList : List Obj → List Node
  | [] => []
  | o :: l => nodes o ++ nodesList l

end

end Documents

section Escape

theorem escapeToXml_flatMap (s : Str) (isAttrib : Bool) :
    escapeToXml s isAttrib = s.flatMap fun c => escapeToXml [c] isAttrib := by
  cases isAttrib <;>
    simp only [escapeToXml, replace_singleton, List.flatMap_assoc, List.flatMap_cons,
      List.flatMap_nil, List.append_nil, Bool.false_eq_true, if_true, if_false]

theorem escapes_content :
    Escapes (fun c => c ≠ '<' ∧ c ≠ '&' ∧ c ≠ '>') fun c => escapeToXml [c] false := by
  intro c
  by_cases hamp : c = '&'
  · subst hamp
    exact .inr ⟨['a', 'm', 'p'], by decide, by decide, by simp⟩
  by_cases hlt : c = '<'
  · subst hlt
    exact .inr ⟨['l', 't'], by decide, by decide, by simp⟩
  by_cases hgt : c = '>'
  · subst hgt
    exact .inr ⟨['g', 't'], by decide, by decide, by simp⟩
  · refine .inl ⟨?_, hlt, hamp, hgt⟩
    simp [escapeToXml, replace_singleton, hamp, hlt, hgt]

theorem escapes_value :
    Escapes (fun c => c ≠ QUOT ∧ c ≠ '<' ∧ c ≠ '&') fun c => escapeToXml [c] true := by
  intro c
  by_cases hquot : c = QUOT
  · subst hquot
    exact .inr ⟨['q', 'u', 'o', 't'], by decide, by decide, by simp⟩
  by_cases hapos : c = APOS
  · subst hapos
    exact .inr ⟨['a', 'p', 'o', 's'], by decide, by decide, by simp⟩
  by_cases hgt : c = '>'
  · subst hgt
    exact .inr ⟨['g', 't'], by decide, by decide, by simp⟩
  by_cases hlt : c = '<'
  · subst hlt
    exact .inr ⟨['l', 't'], by decide, by decide, by simp⟩
  by_cases hamp : c = '&'
  · subst hamp
    exact .inr ⟨['a', 'm', 'p'], by decide, by decide, by simp⟩
  · refine .inl ⟨?_, hquot, hlt, hamp⟩
    simp [escapeToXml, replace_singleton, hamp, hlt, hgt, hquot, hapos]

theorem reads_escaped (s : Str) : Reads (escapeToXml s false) [.text s] := by
  rw [escapeToXml_flatMap]
  exact escapes_content.reads s

end Escape

section Tags

variable {name : Str} {attributes : List (Str × Value)} {t : Tag} {content : Obj}

def valueEscape (c : Char) : Str := escapeToXml [c] true

theorem attributesOf_cons (a : Str × Value) (attributes : List (Str × Value)) :
    attributesOf (a :: attributes) = match a.2.text with
      | none => attributesOf attributes
      | some s => (attributeName a.1, s) :: attributesOf attributes := by
  rw [attributesOf, List.filterMap_cons]
  cases a.2.text <;> rfl

theorem stringizeAttributes_eq {s : Str} (h : stringizeAttributes attributes = some s) :
    s = (attributesOf attributes).flatMap (attributeText valueEscape) := by
  induction attributes generalizing s with
  | nil => exact (Option.some.inj h).symm
  | cons a attributes ih =>
    obtain ⟨key, value⟩ := a
    cases key with
    | nil => exact absurd h (by simp [stringizeAttributes])
    | cons c key =>
      rw [stringizeAttributes] at h
      rw [attributesOf_cons]
      cases hvalue : value.text with
      | none =>
        rw [hvalue] at h
        exact ih h
      | some s =>
        rw [hvalue] at h
        cases hrest : stringizeAttributes attributes with
        | none => exact absurd h (by simp [hrest])
        | some rest =>
          rw [hrest] at h
          have hs := Option.some.inj h
          have hescape : escapeToXml s true = s.flatMap valueEscape := escapeToXml_flatMap s true
          rw [← hs, ih hrest, hescape]
          simp [attributeText, attributeName]

theorem tag_eq (h : tag name attributes = some t) :
    t.name = name ∧ t.attributes = attributes ∧
    t.renderedOpening = tagText valueEscape name (attributesOf attributes) ++ ['>'] ∧
    t.renderedEmpty = tagText valueEscape name (attributesOf attributes) ++ [' ', '/', '>'] ∧
    t.renderedClosing = '<' :: '/' :: (name ++ ['>']) := by
  obtain ⟨attrString, hattributes, rfl⟩ := Option.map_eq_some_iff.mp h
  rw [stringizeAttributes_eq hattributes]
  exact ⟨rfl, rfl, rfl, rfl, rfl⟩

theorem attributesOf_sublist (attributes : List (Str × Value)) :
    ((attributesOf attributes).map Prod.fst).Sublist
      (attributes.map fun a => attributeName a.1) := by
  induction attributes with
  | nil => exact .slnil
  | cons a attributes ih =>
    rw [attributesOf_cons]
    cases a.2.text with
    | none => exact ih.cons _
    | some s => exact ih.cons_cons _

theorem merge_nodes_of_isEmpty (h : content.isEmpty) : merge (nodes content) = [] := by
  cases content with
  | str s => cases s <;> first | rfl | exact absurd h Bool.false_ne_true
  | xml s => rfl
  | list l => cases l <;> first | rfl | exact absurd h Bool.false_ne_true
  | tuple l => cases l <;> first | rfl | exact absurd h Bool.false_ne_true
  | int n => exact absurd h Bool.false_ne_true
  | subcontext content => exact absurd h Bool.false_ne_true
  | quote item => exact absurd h Bool.false_ne_true
  | tag t content => exact absurd h Bool.false_ne_true

end Tags

section Reading

theorem reads_list {l : List Obj} (h : ∀ o ∈ l, Reads (serialize o) (nodes o)) :
    Reads (serializeList l) (nodesList l) := by
  induction l with
  | nil => exact Reads.nil
  | cons o l ih =>
    rw [serializeList, nodesList]
    exact (h o List.mem_cons_self).append (ih fun o' ho' => h o' (List.mem_cons_of_mem o ho'))

theorem Document.reads {o : Obj} (h : Document o) : Reads (serialize o) (nodes o) := by
  induction h with
  | str s => exact reads_escaped s
  | int n => exact reads_escaped _
  | list _ ih => exact reads_list ih
  | tuple _ ih => exact reads_list ih
  | subcontext _ ih => exact ih
  | quote _ ih => exact reads_escaped _
  | @tag name attributes t content ht hname hattributes hnodup _ ih =>
    have hsublist := attributesOf_sublist attributes
    have hnames : ∀ a ∈ attributesOf attributes, isName a.1 := by
      intro a ha
      obtain ⟨b, hb, hba⟩ := List.mem_map.mp (hsublist.subset (List.mem_map_of_mem ha))
      rw [← hba]
      exact hattributes b hb
    obtain ⟨rfl, rfl, hopening, hempty, hclosing⟩ := tag_eq ht
    rw [serialize, nodes]
    split_ifs with hcontent
    · rw [hempty, merge_nodes_of_isEmpty hcontent]
      exact Reads.empty escapes_value hname hnames (hnodup.sublist hsublist)
    · rw [hopening, hclosing, List.append_assoc]
      exact Reads.element escapes_value hname hnames (hnodup.sublist hsublist) ih

end Reading

section Rendering

def Valid (cache : Cache) : Prop := ∀ cls f, cache cls = some f → f = lookupRenderer cls

variable {cache : Cache} {o : Obj}

theorem Valid.getD (h : Valid cache) (cls : Cls) :
    (cache cls).getD (lookupRenderer cls) = lookupRenderer cls := by
  cases hf : cache cls with
  | none => rfl
  | some f => exact h cls f hf

theorem Valid.update (h : Valid cache) (cls : Cls) :
    Valid (Function.update cache cls (some (lookupRenderer cls))) := by
  intro cls' f hf
  rw [Function.update_apply] at hf
  split_ifs at hf with heq
  · rw [heq]
    exact (Option.some.inj hf).symm
  · exact h cls' f hf

def Renders (o : Obj) (n : ℕ) : Prop :=
  ∀ fuel cache, n ≤ fuel → Valid cache →
    ∃ cache', render fuel cache o = some (serialize o, cache') ∧ Valid cache'

theorem Renders.mono {m n : ℕ} (h : Renders o m) (hmn : m ≤ n) : Renders o n :=
  fun fuel cache hfuel => h fuel cache (Nat.le_trans hmn hfuel)

theorem Renders.of_call {n : ℕ}
    (h : ∀ fuel cache, n ≤ fuel → Valid cache →
      ∃ cache', call (render fuel) cache (lookupRenderer o.cls) o = some (serialize o, cache') ∧
        Valid cache') :
    Renders o (n + 1) := by
  intro fuel cache hfuel hcache
  obtain ⟨fuel, rfl⟩ := Nat.exists_eq_add_of_le' (Nat.le_trans (Nat.le_add_left 1 n) hfuel)
  rw [render, hcache.getD]
  exact h fuel _ (Nat.le_of_add_le_add_right hfuel) (hcache.update _)

theorem renderList_spec {l : List Obj} {n fuel : ℕ} (hl : ∀ o ∈ l, Renders o n)
    (hfuel : n ≤ fuel) (hcache : Valid cache) :
    ∃ cache', renderList (render fuel) cache l = some (serializeList l, cache') ∧
      Valid cache' := by
  induction l generalizing cache with
  | nil => exact ⟨cache, rfl, hcache⟩
  | cons o l ih =>
    obtain ⟨cache', ho, hcache'⟩ := hl o List.mem_cons_self fuel cache hfuel hcache
    obtain ⟨cache'', hrest, hcache''⟩ :=
      ih (fun o' ho' => hl o' (List.mem_cons_of_mem o ho')) hcache'
    refine ⟨cache'', ?_, hcache''⟩
    rw [renderList, ho, Option.bind_some, hrest]
    rfl

theorem exists_renders {l : List Obj} (h : ∀ o ∈ l, ∃ n, Renders o n) :
    ∃ n, ∀ o ∈ l, Renders o n := by
  induction l with
  | nil => exact ⟨0, fun _ ho => absurd ho List.not_mem_nil⟩
  | cons o l ih =>
    obtain ⟨m, hm⟩ := h o List.mem_cons_self
    obtain ⟨n, hn⟩ := ih fun o' ho' => h o' (List.mem_cons_of_mem o ho')
    refine ⟨m + n, fun o' ho' => ?_⟩
    rcases List.mem_cons.mp ho' with rfl | ho'
    · exact hm.mono (Nat.le_add_right m n)
    · exact (hn o' ho').mono (Nat.le_add_left n m)

theorem renders_xml (s : Str) : Renders (.xml s) 1 :=
  Renders.of_call fun _ cache _ hcache => ⟨cache, rfl, hcache⟩

theorem renders_list {l : List Obj} {n : ℕ} (h : ∀ o ∈ l, Renders o n) :
    Renders (.list l) (n + 1) :=
  Renders.of_call fun _ _ hfuel hcache => renderList_spec h hfuel hcache

theorem Document.renders (h : Document o) : ∃ n, Renders o n := by
  induction h with
  | str s => exact ⟨1, Renders.of_call fun _ cache _ hcache => ⟨cache, rfl, hcache⟩⟩
  | int n => exact ⟨1, Renders.of_call fun _ cache _ hcache => ⟨cache, rfl, hcache⟩⟩
  | list _ ih =>
    obtain ⟨n, hn⟩ := exists_renders ih
    exact ⟨n + 1, renders_list hn⟩
  | tuple _ ih =>
    obtain ⟨n, hn⟩ := exists_renders ih
    exact ⟨n + 1, Renders.of_call fun _ _ hfuel hcache => renderList_spec hn hfuel hcache⟩
  | subcontext _ ih =>
    obtain ⟨n, hn⟩ := ih
    exact ⟨n + 1, Renders.of_call fun fuel cache hfuel hcache => hn fuel cache hfuel hcache⟩
  | quote _ ih =>
    obtain ⟨n, hn⟩ := ih
    refine ⟨n + 1, Renders.of_call fun fuel cache hfuel hcache => ?_⟩
    obtain ⟨cache', hitem, hcache'⟩ := hn fuel cache hfuel hcache
    exact ⟨cache', congrArg (Option.map _) hitem, hcache'⟩
  | @tag name attributes t content ht _ _ _ _ ih =>
    obtain ⟨n, hn⟩ := ih
    have hparts : Renders (t.render content) (n + 1 + 1) := by
      rw [Tag.render]
      split_ifs
      · exact (renders_xml _).mono (by omega)
      · apply renders_list
        intro o ho
        simp only [List.mem_cons, List.not_mem_nil, or_false] at ho
        rcases ho with rfl | rfl | rfl
        · exact (renders_xml _).mono (by omega)
        · exact hn.mono (by omega)
        · exact (renders_xml _).mono (by omega)
    refine ⟨n + 1 + 1 + 1, Renders.of_call fun fuel cache hfuel hcache => ?_⟩
    obtain ⟨cache', hrender, hcache'⟩ := hparts fuel cache hfuel hcache
    refine ⟨cache', hrender.trans ?_, hcache'⟩
    rw [serialize, Tag.render]
    split_ifs
    · rfl
    · rw [serialize, serializeList, serializeList, serializeList, serializeList, serialize,
        serialize, List.append_nil]

end Rendering

/-- What a document is rendered to is read as the document. -/
theorem render_parse {o : Obj} (h : Document o) : ∃ n, ∀ fuel ≥ n, ∃ text cache,
    render fuel (fun _ => none) o = some (text, cache) ∧ text = serialize o ∧
      parse text = some (merge (nodes o)) := by
  obtain ⟨n, hn⟩ := h.renders
  refine ⟨n, fun fuel hfuel => ?_⟩
  obtain ⟨cache, hrender, -⟩ := hn fuel (fun _ => none) hfuel fun _ _ hf => nomatch hf
  exact ⟨serialize o, cache, hrender, rfl, h.reads.parse⟩

theorem render_parse_bold : ∃ n, ∀ fuel ≥ n, ∃ text cache,
    render fuel (fun _ => none) (.tag ⟨['b'], [(['_', 'i'], .str ['<'])], ['<', 'b', ' ', 'i', '=',
      QUOT, '&', 'l', 't', ';', QUOT, '>'], ['<', 'b', ' ', 'i', '=', QUOT, '&', 'l', 't', ';',
      QUOT, ' ', '/', '>'], ['<', '/', 'b', '>']⟩ (.quote (.str ['&']))) = some (text, cache) ∧
    text = ['<', 'b', ' ', 'i', '=', QUOT, '&', 'l', 't', ';', QUOT, '>', '&', 'a', 'm', 'p', ';',
      'a', 'm', 'p', ';', '<', '/', 'b', '>'] ∧
    parse text =
      some [.element ['b'] [(['i'], ['<'])] [.text ['&', 'a', 'm', 'p', ';']]] :=
  render_parse (@Document.tag ['b'] [(['_', 'i'], .str ['<'])] _ _ rfl (by decide) (by decide)
    (by decide) (.quote (.str ['&'])))

/-- Without its underscore a name may be none. -/
theorem underscore_fails : isName ['_', '1'] ∧
    ∃ t, tag ['a'] [(['_', '1'], .str ['x'])] = some t ∧
      ∃ text cache, render 2 (fun _ => none) (.tag t (.list [])) = some (text, cache) ∧
        parse text = none :=
  ⟨by decide, _, rfl, _, _, rfl, rfl⟩

end NaviMisc.Nouvelle
