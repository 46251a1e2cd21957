import Mathlib.Data.List.Basic
import NaviMisc.Lib.Runs

/-!
The commands of the fyre editor, with undo and redo (CommandManager.cs), and how the editor builds
them (PipelineDrawing.cs, PipelineEditor.cs).
-/

namespace NaviMisc.Fyre

variable (Guid : Type)

structure PadConnection where
  source_element : Guid
  source_pad : ℤ
  sink_element : Guid
  sink_pad : ℤ
  deriving DecidableEq

structure Document where
  element_store : Guid → Bool
  connections : List (PadConnection Guid)
  elements : Guid → Option (ℤ × ℤ)

inductive Command
  | Add (id : Guid) (x y : ℤ)
  | Delete (id : Guid) (x y : ℤ) (connections : List (PadConnection Guid))
  | Move (id : Guid) (old_x old_y new_x new_y : ℤ)
  | Connect (pc : PadConnection Guid)

/-- A command on a stack. What the document was before and after it, and where the view was, is not
remembered by the program. -/
structure Entry where
  command : Command Guid
  before : Document Guid
  after : Document Guid
  extents : ℤ × ℤ

/-- The document, the upper left corner of DrawingExtents, and the stacks of the CommandManager with
the last command first. -/
structure Editor where
  document : Document Guid
  extents : ℤ × ℤ
  undo_stack : List (Entry Guid)
  redo_stack : List (Entry Guid)

inductive Action
  | scroll (x y : ℤ)
  | add (id : Guid) (x y : ℤ)
  | delete (id : Guid)
  | move (id : Guid) (x y : ℤ)
  | connect (pc : PadConnection Guid)
  | undo
  | redo

variable {Guid} [DecidableEq Guid]

def PadConnection.Touches (id : Guid) (pc : PadConnection Guid) : Prop :=
  pc.source_element = id ∨ pc.sink_element = id

instance (id : Guid) : DecidablePred (PadConnection.Touches id) :=
  fun _ => inferInstanceAs (Decidable (_ ∨ _))

namespace Document

variable (d : Document Guid)

def addElement (id : Guid) (x y : ℤ) : Document Guid :=
  { d with
    element_store := Function.update d.element_store id true
    elements := Function.update d.elements id (some (x, y)) }

def removeElement (id : Guid) : Document Guid :=
  { d with
    element_store := Function.update d.element_store id false
    elements := Function.update d.elements id none }

def SetElementPosition (id : Guid) (x y : ℤ) : Document Guid :=
  { d with elements := Function.update d.elements id (some (x, y)) }

end Document

namespace Command

def Do (extents : ℤ × ℤ) (d : Document Guid) : Command Guid → Command Guid × Document Guid
  | Add id x y => (Add id x y, d.addElement id (extents.1 + x) (extents.2 + y))
  | Delete id x y connections =>
    let connections := connections ++ d.connections.filter (PadConnection.Touches id)
    (Delete id x y connections,
      { d with connections := d.connections.diff connections }.removeElement id)
  | Move id old_x old_y new_x new_y =>
    (Move id old_x old_y new_x new_y, d.SetElementPosition id new_x new_y)
  | Connect pc => (Connect pc, { d with connections := d.connections ++ [pc] })

def Undo (extents : ℤ × ℤ) (d : Document Guid) : Command Guid → Document Guid
  | Add id _ _ => d.removeElement id
  | Delete id x y connections =>
    { d with connections := d.connections ++ connections }.addElement id
      (extents.1 + x) (extents.2 + y)
  | Move id old_x old_y _ _ => d.SetElementPosition id old_x old_y
  | Connect pc => { d with connections := d.connections.erase pc }

end Command

namespace Editor

variable (s : Editor Guid)

def Do (command : Command Guid) : Editor Guid :=
  let (command, document) := command.Do s.extents s.document
  { s with
    document := document
    undo_stack := ⟨command, s.document, document, s.extents⟩ :: s.undo_stack
    redo_stack := [] }

def Undo : Editor Guid :=
  match s.undo_stack with
  | [] => s
  | e :: undo_stack =>
    { s with
      document := e.command.Undo s.extents s.document
      undo_stack := undo_stack
      redo_stack := e :: s.redo_stack }

def Redo : Editor Guid :=
  match s.redo_stack with
  | [] => s
  | e :: redo_stack =>
    let (command, document) := e.command.Do s.extents s.document
    { s with
      document := document
      undo_stack := { e with command := command } :: s.undo_stack
      redo_stack := redo_stack }

/-- A new element is added, the selected one is deleted or was dragged to where it is now, and an
output is dragged to an input. -/
def step : Action Guid → Editor Guid
  | .scroll x y => { s with extents := (x, y) }
  | .add id x y =>
    if s.document.element_store id = false ∧ s.document.elements id = none then s.Do (.Add id x y)
    else s
  | .delete id =>
    match s.document.element_store id, s.document.elements id with
    | true, some (x, y) => s.Do (.Delete id x y [])
    | _, _ => s
  | .move id x y =>
    match s.document.elements id with
    | some (old_x, old_y) =>
      if old_x = x ∧ old_y = y then s else s.Do (.Move id old_x old_y x y)
    | none => s
  | .connect pc =>
    if s.document.element_store pc.source_element = true ∧
        s.document.element_store pc.sink_element = true then s.Do (.Connect pc)
    else s
  | .undo => s.Undo
  | .redo => s.Redo

end Editor

structure Document.Same (d d' : Document Guid) : Prop where
  element_store : d.element_store = d'.element_store
  connections : d.connections.Perm d'.connections
  elements : d.elements = d'.elements

def Document.Connected (d : Document Guid) : Prop :=
  ∀ pc ∈ d.connections,
    d.element_store pc.source_element = true ∧ d.element_store pc.sink_element = true

section Extents

variable (e : Entry Guid) (extents : ℤ × ℤ)

def Entry.UndoesAt : Prop :=
  match e.command with
  | .Delete .. => extents = (0, 0)
  | _ => True

def Entry.RedoesAt : Prop :=
  match e.command with
  | .Add .. => extents = e.extents
  | .Delete _ _ _ connections => connections = []
  | _ => True

instance : Decidable (e.UndoesAt extents) :=
  match e with
  | ⟨.Delete .., _, _, _⟩ => inferInstanceAs (Decidable (extents = (0, 0)))
  | ⟨.Add .., _, _, _⟩ | ⟨.Move .., _, _, _⟩ | ⟨.Connect _, _, _, _⟩ =>
    inferInstanceAs (Decidable True)

instance : Decidable (e.RedoesAt extents) :=
  match e with
  | ⟨.Add .., _, _, extents'⟩ => inferInstanceAs (Decidable (extents = extents'))
  | ⟨.Delete _ _ _ connections, _, _, _⟩ => inferInstanceAs (Decidable (connections = []))
  | ⟨.Move .., _, _, _⟩ | ⟨.Connect _, _, _, _⟩ => inferInstanceAs (Decidable True)

end Extents

namespace Editor

variable (s : Editor Guid)

def Restores : Action Guid → Prop
  | .undo => ∀ e ∈ s.undo_stack.head?, s.Undo.document.Same e.before
  | .redo => ∀ e ∈ s.redo_stack.head?, s.Redo.document.Same e.after
  | _ => True

/-- A Delete is undone with the view at the origin, an Add redone with the view where it was, and a
Delete is not redone that took connections with it. -/
def Unmoved : Action Guid → Prop
  | .undo => ∀ e ∈ s.undo_stack.head?, e.UndoesAt s.extents
  | .redo => ∀ e ∈ s.redo_stack.head?, e.RedoesAt s.extents
  | _ => True

instance decidableUnmoved : ∀ a, Decidable (s.Unmoved a)
  | .undo => inferInstanceAs (Decidable (∀ e ∈ s.undo_stack.head?, e.UndoesAt s.extents))
  | .redo => inferInstanceAs (Decidable (∀ e ∈ s.redo_stack.head?, e.RedoesAt s.extents))
  | .scroll .. | .add .. | .delete .. | .move .. | .connect .. => inferInstanceAs (Decidable True)

end Editor

def Editor.opened (document : Document Guid) (extents : ℤ × ℤ) : Editor Guid :=
  ⟨document, extents, [], []⟩

end NaviMisc.Fyre
