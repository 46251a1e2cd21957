import Mathlib.Data.List.Perm.Basic
import NaviMisc.Fyre.CommandManager

/-!
Undo and redo are inverse, where the view stays in place and no Delete is redone that took
connections with it.
-/

namespace NaviMisc.Fyre

open NaviMisc.Lib.Runs

variable {Guid : Type} {d d' d'' : Document Guid}

namespace Document.Same

theorem refl (d : Document Guid) : d.Same d := ⟨rfl, .refl _, rfl⟩

theorem symm (h : d.Same d') : d'.Same d :=
  ⟨h.element_store.symm, h.connections.symm, h.elements.symm⟩

theorem trans (h : d.Same d') (h' : d'.Same d'') : d.Same d'' :=
  ⟨h.element_store.trans h'.element_store, h.connections.trans h'.connections,
    h.elements.trans h'.elements⟩

theorem connected (h : d.Same d') (hd : d'.Connected) : d.Connected := by
  intro pc hpc
  rw [h.element_store]
  exact hd pc (h.connections.mem_iff.mp hpc)

theorem append (h : d.Same d') {connections connections' : List (PadConnection Guid)}
    (hconnections : connections.Perm connections') :
    Document.Same { d with connections := d.connections ++ connections }
      { d' with connections := d'.connections ++ connections' } :=
  ⟨h.element_store, h.connections.append hconnections, h.elements⟩

variable [DecidableEq Guid]

theorem addElement (h : d.Same d') (id : Guid) (x y : ℤ) :
    (d.addElement id x y).Same (d'.addElement id x y) :=
  ⟨by simp only [Document.addElement, h.element_store], h.connections,
    by simp only [Document.addElement, h.elements]⟩

theorem removeElement (h : d.Same d') (id : Guid) :
    (d.removeElement id).Same (d'.removeElement id) :=
  ⟨by simp only [Document.removeElement, h.element_store], h.connections,
    by simp only [Document.removeElement, h.elements]⟩

theorem setElementPosition (h : d.Same d') (id : Guid) (x y : ℤ) :
    (d.SetElementPosition id x y).Same (d'.SetElementPosition id x y) :=
  ⟨h.element_store, h.connections, by simp only [Document.SetElementPosition, h.elements]⟩

theorem erase (h : d.Same d') (pc : PadConnection Guid) :
    Document.Same { d with connections := d.connections.erase pc }
      { d' with connections := d'.connections.erase pc } :=
  ⟨h.element_store, h.connections.erase pc, h.elements⟩

end Document.Same

section Elements

variable [DecidableEq Guid]

theorem removeElement_addElement {id : Guid} (hstore : d.element_store id = false)
    (helements : d.elements id = none) (x y : ℤ) :
    (d.addElement id x y).removeElement id = d := by
  simp [Document.addElement, Document.removeElement, ← hstore, ← helements]

theorem addElement_removeElement {id : Guid} {x y : ℤ} (hstore : d.element_store id = true)
    (helements : d.elements id = some (x, y)) :
    (d.removeElement id).addElement id x y = d := by
  simp [Document.addElement, Document.removeElement, ← hstore, ← helements]

theorem setElementPosition_setElementPosition {id : Guid} {x y : ℤ}
    (helements : d.elements id = some (x, y)) (x' y' : ℤ) :
    (d.SetElementPosition id x' y').SetElementPosition id x y = d := by
  simp [Document.SetElementPosition, ← helements]

def Document.untouched (d : Document Guid) (id : Guid) : Document Guid :=
  { d with connections := d.connections.filter fun pc => ¬pc.Touches id }

theorem diff_filter {α : Type*} [DecidableEq α] (p : α → Prop) [DecidablePred p] (l : List α) :
    l.diff (l.filter fun a => p a) = l.filter fun a => ¬p a := by
  induction l with
  | nil => rfl
  | cons a l ih =>
    by_cases ha : p a
    · simp [ha, ih]
    · have hmem : a ∉ l.filter fun a => p a := by simp [ha]
      simp [ha, List.cons_diff_of_not_mem hmem, ih]

end Elements

variable [DecidableEq Guid]

def Entry.Records (e : Entry Guid) : Prop :=
  match e.command with
  | .Add id x y => e.before.element_store id = false ∧ e.before.elements id = none ∧
      e.after.Same (e.before.addElement id (e.extents.1 + x) (e.extents.2 + y))
  | .Delete id x y connections => e.before.element_store id = true ∧
      e.before.elements id = some (x, y) ∧
      connections.Perm (e.before.connections.filter (PadConnection.Touches id)) ∧
      e.after.Same ((e.before.untouched id).removeElement id)
  | .Move id old_x old_y new_x new_y => e.before.elements id = some (old_x, old_y) ∧
      e.after.Same (e.before.SetElementPosition id new_x new_y)
  | .Connect pc => e.after.Same { e.before with connections := e.before.connections ++ [pc] }

theorem delete_same (h : d.Same d') (extents : ℤ × ℤ) (id : Guid) (x y : ℤ) :
    ((Command.Delete id x y []).Do extents d).2.Same ((d'.untouched id).removeElement id) := by
  have huntouched : Document.Same
      { d with connections := d.connections.diff ([] ++ d.connections.filter fun pc => pc.Touches id) }
      (d'.untouched id) := by
    refine ⟨h.element_store, ?_, h.elements⟩
    simp only [List.nil_append, Document.untouched]
    rw [diff_filter]
    exact h.connections.filter _
  exact huntouched.removeElement id

namespace Entry.Records

variable {e : Entry Guid} {extents : ℤ × ℤ} (h : e.Records)
include h

theorem undo (hd : d.Same e.after) (hextents : e.UndoesAt extents) :
    (e.command.Undo extents d).Same e.before := by
  unfold Entry.Records at h
  unfold Entry.UndoesAt at hextents
  cases hcommand : e.command with
  | Add id x y =>
    simp only [hcommand] at h
    obtain ⟨hstore, helements, hafter⟩ := h
    have hremoved := (hd.trans hafter).removeElement id
    rwa [removeElement_addElement hstore helements] at hremoved
  | Delete id x y connections =>
    simp only [hcommand] at h hextents
    obtain ⟨hstore, helements, hconnections, hafter⟩ := h
    rw [hextents]
    have hperm : ((e.before.connections.filter fun pc => ¬pc.Touches id) ++
        e.before.connections.filter fun pc => pc.Touches id).Perm e.before.connections := by
      refine List.perm_append_comm.trans ?_
      simpa using List.filter_append_perm (fun pc => decide (pc.Touches id)) e.before.connections
    have happend := (hd.trans hafter).append hconnections
    have hremoved : Document.Same { d with connections := d.connections ++ connections }
        (e.before.removeElement id) := happend.trans ⟨rfl, hperm, rfl⟩
    have hadded := hremoved.addElement id x y
    rw [addElement_removeElement hstore helements] at hadded
    simpa only [Command.Undo, Int.zero_add] using hadded
  | Move id old_x old_y new_x new_y =>
    simp only [hcommand] at h
    obtain ⟨helements, hafter⟩ := h
    have hmoved := (hd.trans hafter).setElementPosition id old_x old_y
    rwa [setElementPosition_setElementPosition helements] at hmoved
  | Connect pc =>
    simp only [hcommand] at h
    refine ((hd.trans h).erase pc).trans ⟨rfl, ?_, rfl⟩
    have hperm := (List.perm_append_singleton pc e.before.connections).erase pc
    rwa [List.erase_cons_head] at hperm

theorem redo (hd : d.Same e.before) (hextents : e.RedoesAt extents) :
    (e.command.Do extents d).2.Same e.after ∧
      Records { e with command := (e.command.Do extents d).1 } := by
  unfold Entry.Records at h ⊢
  unfold Entry.RedoesAt at hextents
  cases hcommand : e.command with
  | Add id x y =>
    simp only [hcommand] at h hextents
    rw [hextents]
    exact ⟨(hd.addElement id _ _).trans h.2.2.symm, h⟩
  | Delete id x y connections =>
    simp only [hcommand] at h hextents
    rw [hextents]
    exact ⟨(delete_same hd extents id x y).trans h.2.2.2.symm, h.1, h.2.1,
      hd.connections.filter _, h.2.2.2⟩
  | Move id old_x old_y new_x new_y =>
    simp only [hcommand] at h
    exact ⟨(hd.setElementPosition id new_x new_y).trans h.2.symm, h⟩
  | Connect pc =>
    simp only [hcommand] at h
    exact ⟨(hd.append (.refl [pc])).trans h.symm, h⟩

end Entry.Records

structure Entry.Sound (e : Entry Guid) : Prop where
  records : e.Records
  before : e.before.Connected
  after : e.after.Connected

def Undoes : Document Guid → List (Entry Guid) → Prop
  | _, [] => True
  | d, e :: l => d.Same e.after ∧ e.Sound ∧ Undoes e.before l

def Redoes : Document Guid → List (Entry Guid) → Prop
  | _, [] => True
  | d, e :: l => d.Same e.before ∧ e.Sound ∧ Redoes e.after l

theorem Undoes.of_same {l : List (Entry Guid)} (h : d.Same d') (hl : Undoes d' l) :
    Undoes d l := by
  cases l with
  | nil => trivial
  | cons e l => exact ⟨h.trans hl.1, hl.2⟩

theorem Redoes.of_same {l : List (Entry Guid)} (h : d.Same d') (hl : Redoes d' l) :
    Redoes d l := by
  cases l with
  | nil => trivial
  | cons e l => exact ⟨h.trans hl.1, hl.2⟩

namespace Editor

structure Consistent (s : Editor Guid) : Prop where
  connected : s.document.Connected
  undoes : Undoes s.document s.undo_stack
  redoes : Redoes s.document s.redo_stack

namespace Consistent

variable {s : Editor Guid} (h : Consistent s)
include h

theorem undo (hq : s.Unmoved .undo) : s.Restores .undo ∧ Consistent s.Undo := by
  unfold Restores Editor.Undo
  cases hstack : s.undo_stack with
  | nil => exact ⟨by simp, h⟩
  | cons e undo_stack =>
    obtain ⟨hafter, hsound, hundoes⟩ := hstack ▸ h.undoes
    have hbefore : (e.command.Undo s.extents s.document).Same e.before :=
      hsound.records.undo hafter (hq e (by simp [hstack]))
    refine ⟨?_, hbefore.connected hsound.before, hundoes.of_same hbefore, hbefore, hsound,
      h.redoes.of_same hafter.symm⟩
    simpa using hbefore

theorem redo (hq : s.Unmoved .redo) : s.Restores .redo ∧ Consistent s.Redo := by
  unfold Restores Editor.Redo
  cases hstack : s.redo_stack with
  | nil => exact ⟨by simp, h⟩
  | cons e redo_stack =>
    obtain ⟨hbefore, hsound, hredoes⟩ := hstack ▸ h.redoes
    obtain ⟨hafter, hrecords⟩ := hsound.records.redo hbefore (hq e (by simp [hstack]))
    refine ⟨?_, hafter.connected hsound.after,
      ⟨hafter, ⟨hrecords, hsound.before, hsound.after⟩, h.undoes.of_same hbefore.symm⟩,
      hredoes.of_same hafter⟩
    simpa using hafter

theorem do_ (command : Command Guid)
    (hrecords : Entry.Records ⟨(command.Do s.extents s.document).1, s.document,
      (command.Do s.extents s.document).2, s.extents⟩)
    (hconnected : (command.Do s.extents s.document).2.Connected) : Consistent (s.Do command) :=
  ⟨hconnected, ⟨.refl _, ⟨hrecords, h.connected, hconnected⟩, h.undoes⟩, trivial⟩

theorem add {id : Guid} (x y : ℤ) (hstore : s.document.element_store id = false)
    (helements : s.document.elements id = none) : Consistent (s.Do (.Add id x y)) := by
  apply h.do_ (.Add id x y) ⟨hstore, helements, .refl _⟩
  intro pc hpc
  obtain ⟨hsource, hsink⟩ := h.connected pc hpc
  simp only [Command.Do, Document.addElement, Function.update_apply]
  constructor
  · split_ifs
    · rfl
    · exact hsource
  · split_ifs
    · rfl
    · exact hsink

theorem delete {id : Guid} {x y : ℤ} (hstore : s.document.element_store id = true)
    (helements : s.document.elements id = some (x, y)) :
    Consistent (s.Do (.Delete id x y [])) := by
  have hsame := delete_same (.refl s.document) s.extents id x y
  apply h.do_ (.Delete id x y []) ⟨hstore, helements, .refl _, hsame⟩
  apply hsame.connected
  intro pc hpc
  obtain ⟨hpc, htouches⟩ := List.mem_filter.mp hpc
  obtain ⟨hsource, hsink⟩ := h.connected pc hpc
  rw [decide_eq_true_iff, PadConnection.Touches, not_or] at htouches
  simp only [Document.removeElement, Document.untouched]
  rw [Function.update_of_ne htouches.1, Function.update_of_ne htouches.2]
  exact ⟨hsource, hsink⟩

theorem move {id : Guid} {old_x old_y : ℤ}
    (helements : s.document.elements id = some (old_x, old_y)) (x y : ℤ) :
    Consistent (s.Do (.Move id old_x old_y x y)) :=
  h.do_ (.Move id old_x old_y x y) ⟨helements, .refl _⟩ h.connected

theorem connect {pc : PadConnection Guid}
    (hsource : s.document.element_store pc.source_element = true)
    (hsink : s.document.element_store pc.sink_element = true) :
    Consistent (s.Do (.Connect pc)) := by
  apply h.do_ (.Connect pc) (Document.Same.refl _)
  intro pc' hpc'
  rcases List.mem_append.mp hpc' with hpc' | hpc'
  · exact h.connected pc' hpc'
  · rw [List.mem_singleton.mp hpc']
    exact ⟨hsource, hsink⟩

theorem step (a : Action Guid) (hq : s.Unmoved a) : s.Restores a ∧ Consistent (s.step a) := by
  cases a with
  | scroll x y => exact ⟨trivial, h.connected, h.undoes, h.redoes⟩
  | add id x y =>
    refine ⟨trivial, ?_⟩
    unfold Editor.step
    dsimp only
    split_ifs with hnew
    · exact h.add x y hnew.1 hnew.2
    · exact h
  | delete id =>
    refine ⟨trivial, ?_⟩
    unfold Editor.step
    dsimp only
    split
    next x y hstore helements => exact h.delete hstore helements
    next => exact h
  | move id x y =>
    refine ⟨trivial, ?_⟩
    unfold Editor.step
    dsimp only
    split
    next old_x old_y helements =>
      split_ifs
      · exact h
      · exact h.move helements x y
    next => exact h
  | connect pc =>
    refine ⟨trivial, ?_⟩
    unfold Editor.step
    dsimp only
    split_ifs with hends
    · exact h.connect hends.1 hends.2
    · exact h
  | undo => exact h.undo hq
  | redo => exact h.redo hq

end Consistent

/-- Every Undo and every Redo of a run restores the document, and no connection has lost an end. -/
theorem undo_redo_inverse {document : Document Guid} (hdocument : document.Connected)
    (extents : ℤ × ℤ) {actions : List (Action Guid)}
    (hl : Meets step Unmoved (opened document extents) actions) :
    Meets step Restores (opened document extents) actions ∧
      Always step (fun s => s.document.Connected) (opened document extents) actions := by
  have hconsistent : Always step Consistent (opened document extents) actions :=
    hl.always (fun _ a h hq => (h.step a hq).2) ⟨hdocument, trivial, trivial⟩
  exact ⟨hl.mono_of hconsistent fun _ a h hq => (h.step a hq).1,
    hconsistent.mono fun _ h => h.connected⟩

def empty : Document ℕ := ⟨fun _ => false, [], fun _ => none⟩

def twoElements : List (Action ℕ) := [.add 1 30 40, .add 2 50 60, .connect ⟨1, 0, 2, 0⟩]

theorem undo_redo_inverse_two :
    empty.Connected ∧
    Meets step Unmoved (opened empty (0, 0))
      (twoElements ++ [.move 1 70 80, .undo, .redo, .delete 1, .undo, .undo, .undo, .redo]) ∧
    Meets step Restores (opened empty (0, 0))
      (twoElements ++ [.move 1 70 80, .undo, .redo, .delete 1, .undo, .undo, .undo, .redo]) ∧
    Always step (fun s => s.document.Connected) (opened empty (0, 0))
      (twoElements ++ [.move 1 70 80, .undo, .redo, .delete 1, .undo, .undo, .undo, .redo]) :=
  have hempty : empty.Connected := fun _ hpc => absurd hpc List.not_mem_nil
  have hmeets : Meets step Unmoved (opened empty (0, 0))
      (twoElements ++ [.move 1 70 80, .undo, .redo, .delete 1, .undo, .undo, .undo, .redo]) := by
    decide
  ⟨hempty, hmeets, undo_redo_inverse hempty (0, 0) hmeets⟩

/-- With the view at 5, 6 a Delete that is undone moves the element, an Add that is redone puts it
where the view is then, and after Undo and Redo of a Delete a further Undo doubles the connection
and Undo of all that was before leaves one without its ends. -/
theorem undo_redo_moved :
    (([.add 1 30 40, .scroll 5 6, .delete 1, .undo] : List (Action ℕ)).foldl step
      (opened empty (0, 0))).document.elements 1 = some (35, 46) ∧
    (([.add 1 30 40, .undo, .scroll 5 6, .redo] : List (Action ℕ)).foldl step
      (opened empty (0, 0))).document.elements 1 = some (35, 46) ∧
    ((twoElements ++ [Action.delete 1, .undo, .redo, .undo]).foldl step
      (opened empty (0, 0))).document.connections = [⟨1, 0, 2, 0⟩, ⟨1, 0, 2, 0⟩] ∧
    ¬((twoElements ++ [Action.delete 1, .undo, .redo, .undo, .undo, .undo]).foldl step
      (opened empty (0, 0))).document.Connected := by
  refine ⟨by decide, by decide, by decide, fun h => ?_⟩
  have hends := h ⟨1, 0, 2, 0⟩ (by decide)
  revert hends
  decide

end Editor

end NaviMisc.Fyre
