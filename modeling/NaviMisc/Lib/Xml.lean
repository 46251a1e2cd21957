import Mathlib.Data.List.Basic

/-!
XML as a program writes it, one call after another, and the nodes that a reader reports of it.
-/

namespace NaviMisc.Lib.Xml

variable {ν τ : Type*}

inductive Call (ν τ : Type*)
  | StartDocument
  | StartElement (name : ν)
  | Attribute (name : ν) (value : τ)
  | EndElement
  | EndDocument
  deriving DecidableEq

inductive NodeType
  | XmlDeclaration
  | Element
  | EndElement
  | Other
  deriving DecidableEq

structure Node (ν τ : Type*) where
  nodeType : NodeType
  name : Option ν
  depth : ℕ
  attributes : List (ν × τ)
  deriving DecidableEq

def closing : List ν → List (Node ν τ)
  | [] => []
  | name :: within => ⟨.EndElement, some name, within.length, []⟩ :: closing within

/-- The elements within which the reader is stand with the innermost first, and `tag` is the start
tag that is still open. An element that ends before anything else is one node. -/
def report : List ν → Option (ν × List (ν × τ)) → List (Call ν τ) → List (Node ν τ)
  | _, none, [] => []
  | within, some (name, attributes), [] => [⟨.Element, some name, within.length, attributes⟩]
  | within, some (name, attributes), .Attribute k v :: rest =>
    report within (some (name, attributes ++ [(k, v)])) rest
  | within, some (name, attributes), .EndElement :: rest =>
    ⟨.Element, some name, within.length, attributes⟩ :: report within none rest
  | within, some (name, attributes), .StartElement name' :: rest =>
    ⟨.Element, some name, within.length, attributes⟩ ::
      report (name :: within) (some (name', [])) rest
  | within, some (name, attributes), .EndDocument :: rest =>
    ⟨.Element, some name, within.length, attributes⟩ :: (closing within ++ report [] none rest)
  | within, tag, .StartDocument :: rest =>
    ⟨.XmlDeclaration, none, within.length, []⟩ :: report within tag rest
  | within, none, .StartElement name :: rest => report within (some (name, [])) rest
  | within, none, .Attribute _ _ :: rest => report within none rest
  | [], none, .EndElement :: rest => report [] none rest
  | name :: within, none, .EndElement :: rest =>
    ⟨.EndElement, some name, within.length, []⟩ :: report within none rest
  | within, none, .EndDocument :: rest => closing within ++ report [] none rest

def nodes (calls : List (Call ν τ)) : List (Node ν τ) := report [] none calls

def leaf (e : ν × List (ν × τ)) : List (Call ν τ) :=
  .StartElement e.1 :: e.2.map (fun a => .Attribute a.1 a.2) ++ [.EndElement]

section Report

variable (within : List ν) (name : ν)

theorem report_attributes (attributes attributes' : List (ν × τ)) (rest : List (Call ν τ)) :
    report within (some (name, attributes))
        (attributes'.map (fun a => .Attribute a.1 a.2) ++ rest) =
      report within (some (name, attributes ++ attributes')) rest := by
  induction attributes' generalizing attributes with
  | nil => simp
  | cons a attributes' ih => simp [report, ih]

theorem report_leaf (e : ν × List (ν × τ)) (rest : List (Call ν τ)) :
    report within none (leaf e ++ rest) =
      ⟨.Element, some e.1, within.length, e.2⟩ :: report within none rest := by
  simp only [leaf, List.cons_append, List.append_assoc, report]
  rw [report_attributes]
  simp [report]

theorem report_leaves (es : List (ν × List (ν × τ))) (rest : List (Call ν τ)) :
    report within none (es.flatMap leaf ++ rest) =
      es.map (fun e => ⟨.Element, some e.1, within.length, e.2⟩) ++ report within none rest := by
  induction es with
  | nil => simp
  | cons e es ih =>
    rw [List.flatMap_cons, List.append_assoc, report_leaf, ih]
    simp

/-- An element with elements in it is one node when there are none, and else has an end node. -/
theorem report_section (es : List (ν × List (ν × τ))) (rest : List (Call ν τ)) :
    report within (some (name, [])) (es.flatMap leaf ++ .EndElement :: rest) =
      ⟨.Element, some name, within.length, []⟩ ::
        (if es = [] then report within none rest
        else es.map (fun e => ⟨.Element, some e.1, within.length + 1, e.2⟩) ++
          ⟨.EndElement, some name, within.length, []⟩ :: report within none rest) := by
  cases es with
  | nil => simp [report]
  | cons e es =>
    have hopen : ∀ calls : List (Call ν τ), report within (some (name, [])) (leaf e ++ calls) =
        ⟨.Element, some name, within.length, []⟩ ::
          report (name :: within) none (leaf e ++ calls) := by
      intro calls
      simp [leaf, report]
    rw [List.flatMap_cons, List.append_assoc, hopen, report_leaf, report_leaves, if_neg (by simp)]
    simp [report]

end Report

/-- A reader at a node or, after a move, at one of its attributes. -/
structure Cursor (ν σ : Type*) where
  node : Node ν (List σ)
  moved : Option (ν × List σ)

namespace Cursor

variable {σ : Type*} [DecidableEq ν] (c : Cursor ν σ)

/-- Without the attribute the reader stays where it is. -/
def MoveToAttribute (name : ν) : Cursor ν σ :=
  match c.node.attributes.find? fun a => a.1 = name with
  | some a => { c with moved := some a }
  | none => c

def Value : List σ := c.moved.elim [] Prod.snd

end Cursor

end NaviMisc.Lib.Xml
