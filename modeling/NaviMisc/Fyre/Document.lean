import NaviMisc.Lib.Table
import NaviMisc.Lib.Xml
import NaviMisc.Fyre.SystemTypes

/-!
The documents of fyre and their files (Document.cs, Pipeline.cs, Layout.cs, Element.cs,
CanvasElement.cs, ElementFactory.cs), with the plugins of src/Plugins.
-/

namespace NaviMisc.Fyre.Files

open Lib Lib.Xml

abbrev XmlCall := Call (List Char) (List Char)
abbrev XmlNode := Node (List Char) (List Char)

inductive Plugin
  | StochasticBlur
  | Gradient
  | Transform
  | Iterative
  | Input (type : Int32)
  | Equation
  | Pixmap
  | CartesianProduct
  | MatrixMultiply
  | HistogramImager
  deriving DecidableEq

namespace Plugin

def Name : Plugin → String
  | StochasticBlur => "Stochastic Blur"
  | Gradient => "Gradient"
  | Transform => "2D Transform"
  | Iterative => "Iterative"
  | Input _ => "Input"
  | Equation => "Equation"
  | Pixmap => "Pixmap"
  | CartesianProduct => "Cartesian Product"
  | MatrixMultiply => "Matrix Multiply"
  | HistogramImager => "Histogram Imager"

def digitNames : List String :=
  ["zero", "one", "two", "three", "four", "five", "six", "seven", "eight", "nine"]

def XmlName (p : Plugin) : List Char :=
  let name := Text.replace " ".toList "-".toList (p.Name.toList.map Char.toLower)
  digitNames.zipIdx.foldl (fun name d => Text.replace [Nat.digitChar d.2] d.1.toList name) name

def Serialize : Plugin → List XmlCall
  | Input type => [.Attribute "type".toList (Int32.ToString type)]
  | _ => []

def DeSerialize : Plugin → XmlNode → Option Plugin
  | Input _, node =>
    (Int32.Parse ((Cursor.mk node none).MoveToAttribute "type".toList).Value).map Input
  | p, _ => some p

def registered : List Plugin :=
  [StochasticBlur, Gradient, Transform, Iterative, Input 0, Equation, Pixmap, CartesianProduct,
    MatrixMultiply, HistogramImager]

end Plugin

structure Element where
  plugin : Plugin
  id : Guid
  comment : Option (List Char)
  deriving DecidableEq

/-- A name that is not registered is an error. -/
def ElementFactory.CreateFromXml (NewID : Guid) (name : Option (List Char)) : Option Element :=
  (Plugin.registered.find? fun p => some p.XmlName = name).map fun p => ⟨p, NewID, none⟩

namespace Element

def Write (e : Element) : List XmlCall :=
  [.StartElement e.plugin.XmlName, .Attribute "id".toList e.id.ToString,
    .Attribute "comment".toList (e.comment.getD [])] ++ e.plugin.Serialize ++ [.EndElement]

def readAttribute (e : Element) (a : List Char × List Char) : Option Element :=
  if a.1 = "id".toList then (Guid.new a.2).map fun id => { e with id := id }
  else if a.1 = "comment".toList then some { e with comment := some a.2 }
  else some e

def Read (e : Element) (node : XmlNode) : Option Element := do
  let plugin ← e.plugin.DeSerialize node
  node.attributes.foldlM readAttribute { e with plugin := plugin }

end Element

structure PadConnection where
  source_element : Guid
  source_pad : Int32
  sink_element : Guid
  sink_pad : Int32
  deriving DecidableEq

namespace PadConnection

def Format (id : Guid) (pad : Int32) : List Char := id.ToString ++ ':' :: Int32.ToString pad

def Write (pc : PadConnection) : List XmlCall :=
  [.StartElement "connection".toList,
    .Attribute "from".toList (Format pc.source_element pc.source_pad),
    .Attribute "to".toList (Format pc.sink_element pc.sink_pad), .EndElement]

def ofValue (value : List Char) : Option (Guid × Int32) := do
  let s := value.splitOn ':'
  let id ← Guid.new (← s[0]?)
  let pad ← Int32.Parse (← s[1]?)
  return (id, pad)

def CreateFromXml (node : XmlNode) : Option PadConnection := do
  let reader := (Cursor.mk node none).MoveToAttribute "from".toList
  let source ← ofValue reader.Value
  let reader := reader.MoveToAttribute "to".toList
  let sink ← ofValue reader.Value
  return ⟨source.1, source.2, sink.1, sink.2⟩

end PadConnection

structure Pipeline where
  element_store : Hashtable (List Char) Element
  connections : List PadConnection

structure CanvasElement where
  element : Element
  X : Int32
  Y : Int32
  deriving DecidableEq

structure Layout where
  elements : Hashtable (List Char) CanvasElement

structure Document where
  pipeline : Pipeline
  layout : Layout
  filename : Option (List Char)
  saved : Bool

def Document.new : Document := ⟨⟨.empty, []⟩, ⟨.empty⟩, none, true⟩

/-- Elements are read until a node is none at depth 2, and that node has been read too. What `Read`
throws at is `none`. -/
def readSection {σ : Type} (add : σ → XmlNode → Option σ) :
    σ → List (Option XmlNode) → σ × Option (List (Option XmlNode))
  | s, [] => (s, some [])
  | s, none :: _ => (s, none)
  | s, some node :: rest =>
    if node.nodeType = .Element ∧ node.depth = 2 then
      match add s node with
      | none => (s, none)
      | some s' => readSection add s' rest
    else (s, some rest)

namespace CanvasElement

def Write (ce : CanvasElement) : List XmlCall :=
  [.StartElement "element".toList, .Attribute "id".toList ce.element.id.ToString,
    .Attribute "x".toList (Int32.ToString ce.X), .Attribute "y".toList (Int32.ToString ce.Y),
    .EndElement]

def CreateFromXml (node : XmlNode) (pipeline : Pipeline) : Option CanvasElement := do
  let reader := (Cursor.mk node none).MoveToAttribute "id".toList
  let id := reader.Value
  let reader := reader.MoveToAttribute "x".toList
  let x ← Int32.Parse reader.Value
  let reader := reader.MoveToAttribute "y".toList
  let y ← Int32.Parse reader.Value
  let e ← pipeline.element_store.get id
  return ⟨e, x, y⟩

end CanvasElement

namespace Pipeline

def Serialize (p : Pipeline) (elements : List (List Char × Element)) : List XmlCall :=
  elements.flatMap (fun entry => entry.2.Write) ++ p.connections.flatMap PadConnection.Write

variable (NewGuid : ℕ → Guid)

def read (s : Pipeline × ℕ) (node : XmlNode) : Option (Pipeline × ℕ) :=
  if node.name = some "connection".toList then do
    let connection ← PadConnection.CreateFromXml node
    return ({ s.1 with connections := s.1.connections ++ [connection] }, s.2)
  else do
    let e ← ElementFactory.CreateFromXml (NewGuid s.2) node.name
    let e ← e.Read node
    let element_store ← s.1.element_store.Add e.id.ToString e
    return ({ s.1 with element_store := element_store }, s.2 + 1)

def DeSerialize : Pipeline × ℕ → List (Option XmlNode) →
    (Pipeline × ℕ) × Option (List (Option XmlNode)) :=
  readSection (read NewGuid)

end Pipeline

namespace Layout

def Serialize (elements : List (List Char × CanvasElement)) : List XmlCall :=
  elements.flatMap fun entry => entry.2.Write

def read (pipeline : Pipeline) (l : Layout) (node : XmlNode) : Option Layout := do
  let ce ← CanvasElement.CreateFromXml node pipeline
  let elements ← l.elements.Add ce.element.id.ToString ce
  return ⟨elements⟩

def DeSerialize (pipeline : Pipeline) : Layout → List (Option XmlNode) →
    Layout × Option (List (Option XmlNode)) :=
  readSection (read pipeline)

end Layout

namespace Document

variable (d : Document)

def Save (filename : List Char) (elements : List (List Char × Element))
    (layout : List (List Char × CanvasElement)) : Document × List XmlCall :=
  ({ d with filename := some filename, saved := true },
    [.StartDocument, .StartElement "fyre-pipeline".toList, .StartElement "pipeline".toList] ++
      d.pipeline.Serialize elements ++ [.EndElement, .StartElement "layout".toList] ++
      Layout.Serialize layout ++ [.EndElement, .EndDocument])

variable (NewGuid : ℕ → Guid)

/-- The document, and whether the end of the file was reached without an exception. -/
def loadNodes : ℕ → Document → ℕ → List (Option XmlNode) → Document × Bool
  | 0, d, _, _ => (d, true)
  | _ + 1, d, _, [] => (d, true)
  | _ + 1, d, _, none :: _ => (d, false)
  | fuel + 1, d, created, some node :: rest =>
    if node.nodeType = .Element ∧ node.depth = 1 then
      if node.name = some "pipeline".toList then
        match Pipeline.DeSerialize NewGuid (d.pipeline, created) rest with
        | (s, none) => ({ d with pipeline := s.1 }, false)
        | (s, some rest) => loadNodes fuel { d with pipeline := s.1 } s.2 rest
      else if node.name = some "layout".toList then
        match Layout.DeSerialize d.pipeline d.layout rest with
        | (layout, none) => ({ d with layout := layout }, false)
        | (layout, some rest) => loadNodes fuel { d with layout := layout } created rest
      else loadNodes fuel d created rest
    else loadNodes fuel d created rest

/-- What the file holds is added to the document. An exception is only shown. -/
def Load (filename : List Char) (file : List (Option XmlNode)) : Document × Bool :=
  match loadNodes NewGuid (file.length + 1) d 0 file with
  | (d, true) => ({ d with filename := some filename, saved := true }, true)
  | (d, false) => (d, false)

structure Sound : Prop where
  key : ∀ entry ∈ d.pipeline.element_store.entries, entry.1 = entry.2.id.ToString
  placed : ∀ entry ∈ d.layout.elements.entries,
    (entry.1, entry.2.element) ∈ d.pipeline.element_store.entries

end Document

end NaviMisc.Fyre.Files
