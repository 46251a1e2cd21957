import NaviMisc.Fyre.UndoRedo

/-!
The Saved flag of a document, which Do, Undo, Redo, Save and Load set (CommandManager.cs,
Document.cs).
-/

namespace NaviMisc.Fyre

open NaviMisc.Lib.Runs

/-- What DeSerialize reads from a node of a file, or that it throws at the node. -/
inductive FileNode (Guid : Type)
  | element (id : Guid)
  | connection (pc : PadConnection Guid)
  | position (id : Guid) (x y : ℤ)
  | malformed
  deriving DecidableEq

variable {Guid : Type} [DecidableEq Guid]

namespace FileNode

def connection? : FileNode Guid → Option (PadConnection Guid)
  | connection pc => some pc
  | _ => none

def position? (id : Guid) : FileNode Guid → Option (ℤ × ℤ)
  | position id' x y => if id' = id then some (x, y) else none
  | _ => none

end FileNode

namespace Document

def new : Document Guid := ⟨fun _ => false, [], fun _ => none⟩

variable (d : Document Guid)

def read : FileNode Guid → Option (Document Guid)
  | .element id =>
    if d.element_store id = true then none
    else some { d with element_store := Function.update d.element_store id true }
  | .connection pc => some { d with connections := d.connections ++ [pc] }
  | .position id x y =>
    if d.element_store id = true ∧ d.elements id = none then some (d.SetElementPosition id x y)
    else none
  | .malformed => none

/-- The document, and whether it was read without an exception. -/
def Load : Document Guid → List (FileNode Guid) → Document Guid × Bool
  | d, [] => (d, true)
  | d, n :: file =>
    match d.read n with
    | none => (d, false)
    | some d => Load d file

def merge (file : List (FileNode Guid)) : Document Guid :=
  { element_store := fun id => d.element_store id || decide (.element id ∈ file)
    connections := d.connections ++ file.filterMap FileNode.connection?
    elements := fun id => (d.elements id).or (file.findSome? (FileNode.position? id)) }

end Document

namespace Command

/-- The document after Do, and whether Do returned. Adding an id that is there throws, and so does
moving an element that is not. -/
def carryOut (extents : ℤ × ℤ) (d : Document Guid) (command : Command Guid) :
    Document Guid × Bool :=
  match command with
  | Add id _ _ =>
    if d.element_store id = true then (d, false)
    else if d.elements id ≠ none then
      ({ d with element_store := Function.update d.element_store id true }, false)
    else ((command.Do extents d).2, true)
  | Move id _ _ _ _ =>
    if d.elements id = none then (d, false) else ((command.Do extents d).2, true)
  | Delete .. | Connect _ => ((command.Do extents d).2, true)

def takeBack (extents : ℤ × ℤ) (d : Document Guid) (command : Command Guid) :
    Document Guid × Bool :=
  match command with
  | Delete id _ _ connections =>
    if d.element_store id = true then (d, false)
    else if d.elements id ≠ none then
      ({ d with
        element_store := Function.update d.element_store id true
        connections := d.connections ++ connections }, false)
    else (command.Undo extents d, true)
  | Move id _ _ _ _ =>
    if d.elements id = none then (d, false) else (command.Undo extents d, true)
  | Add .. | Connect _ => (command.Undo extents d, true)

end Command

/-- The editor of a document with its Saved flag, and what was last saved or read, which the program
does not remember. -/
structure Session (Guid : Type) where
  document : Document Guid
  extents : ℤ × ℤ
  undo_stack : List (Entry Guid)
  redo_stack : List (Entry Guid)
  Saved : Bool
  written : Document Guid

inductive Operation (Guid : Type)
  | scroll (x y : ℤ)
  | Do (command : Command Guid)
  | Undo
  | Redo
  | Save
  | Load (file : List (FileNode Guid))

namespace Session

def opened (extents : ℤ × ℤ) : Session Guid := ⟨.new, extents, [], [], true, .new⟩

variable (s : Session Guid)

/-- Where the command throws, nothing is put on a stack, and the flag stays. -/
def perform (command : Command Guid) (redo_stack : List (Entry Guid)) : Session Guid :=
  match command.carryOut s.extents s.document with
  | (document, false) => { s with document := document }
  | (document, true) =>
    { s with
      document := document
      undo_stack :=
        ⟨(command.Do s.extents s.document).1, s.document, document, s.extents⟩ :: s.undo_stack
      redo_stack := redo_stack
      Saved := false }

def Undo : Session Guid :=
  match s.undo_stack with
  | [] => s
  | e :: undo_stack =>
    match e.command.takeBack s.extents s.document with
    | (document, false) => { s with document := document, undo_stack := undo_stack }
    | (document, true) =>
      { s with
        document := document
        undo_stack := undo_stack
        redo_stack := e :: s.redo_stack
        Saved := if undo_stack.length = 0 then true else s.Saved }

def Redo : Session Guid :=
  match s.redo_stack with
  | [] => s
  | e :: redo_stack => { s with redo_stack := redo_stack }.perform e.command redo_stack

/-- Load shows the exception, and the document keeps what was read before it. -/
def step : Operation Guid → Session Guid
  | .scroll x y => { s with extents := (x, y) }
  | .Do command => s.perform command []
  | .Undo => s.Undo
  | .Redo => s.Redo
  | .Save => { s with Saved := true, written := s.document }
  | .Load file =>
    match s.document.Load file with
    | (document, false) => { s with document := document }
    | (document, true) =>
      { s with document := document, Saved := true, written := Document.new.merge file }

def Truthful : Prop := s.Saved = true → s.document.Same s.written

def TakesBack : Operation Guid → Prop
  | .Undo => ∀ e ∈ s.undo_stack.head?, s.Saved = true ∨ s.undo_stack.tail = [] →
      s.document.Same e.after ∧ e.Records ∧ e.UndoesAt s.extents
  | _ => True

/-- An Undo that sets the flag or finds it set returns to what was saved, a Load that sets it is of
an empty document, and one that finds it set and fails does so at once. -/
def Returns : Operation Guid → Prop
  | .Undo => ∀ e ∈ s.undo_stack.head?, s.Saved = true ∨ s.undo_stack.tail = [] →
      e.before.Same s.written
  | .Load file =>
    if (s.document.Load file).2 = true then s.document.Same .new
    else s.Saved = true → ∀ n ∈ file.head?, s.document.read n = none
  | _ => True

end Session

namespace Document

def Placed (d : Document Guid) : Prop :=
  ∀ id, d.elements id ≠ none → d.element_store id = true

omit [DecidableEq Guid] in
theorem placed_new : (new : Document Guid).Placed := fun _ h => absurd rfl h

variable {d d' : Document Guid}

namespace Placed

variable (h : d.Placed)
include h

theorem addElement (id : Guid) (x y : ℤ) : (d.addElement id x y).Placed := by
  intro id' hid'
  simp only [Document.addElement, Function.update_apply] at hid' ⊢
  split_ifs at hid' ⊢
  · rfl
  · exact h id' hid'

theorem removeElement (id : Guid) : (d.removeElement id).Placed := by
  intro id' hid'
  simp only [Document.removeElement, Function.update_apply] at hid' ⊢
  split_ifs at hid' ⊢
  · exact absurd rfl hid'
  · exact h id' hid'

theorem setElementPosition {id : Guid} (hid : d.element_store id = true) (x y : ℤ) :
    (d.SetElementPosition id x y).Placed := by
  intro id' hid'
  simp only [Document.SetElementPosition, Function.update_apply] at hid' ⊢
  split_ifs at hid' with heq
  · rw [heq]
    exact hid
  · exact h id' hid'

theorem store (id : Guid) :
    Placed { d with element_store := Function.update d.element_store id true } := by
  intro id' hid'
  simp only [Function.update_apply]
  split_ifs
  · rfl
  · exact h id' hid'

omit [DecidableEq Guid] in
theorem free {id : Guid} (hid : ¬d.element_store id = true) : d.elements id = none := by
  by_contra hplaced
  exact hid (h id hplaced)

theorem read {n : FileNode Guid} (hread : d.read n = some d') : d'.Placed := by
  cases n with
  | element id =>
    simp only [Document.read, Option.ite_none_left_eq_some, Option.some.injEq] at hread
    rw [← hread.2]
    exact h.store id
  | connection pc =>
    simp only [Document.read, Option.some.injEq] at hread
    rw [← hread]
    exact h
  | position id x y =>
    simp only [Document.read, Option.ite_none_right_eq_some, Option.some.injEq] at hread
    rw [← hread.2]
    exact h.setElementPosition hread.1.1 x y
  | malformed => cases hread

theorem load (file : List (FileNode Guid)) : (d.Load file).1.Placed := by
  induction file generalizing d with
  | nil => exact h
  | cons n file ih =>
    rw [Document.Load]
    split
    · exact h
    · next hread => exact ih (h.read hread)

theorem carryOut (extents : ℤ × ℤ) (command : Command Guid) :
    (command.carryOut extents d).1.Placed := by
  cases command with
  | Add id x y =>
    rw [Command.carryOut]
    split_ifs
    · exact h
    · exact h.store id
    · exact h.addElement id _ _
  | Delete id x y connections => exact removeElement (d := { d with connections := _ }) h id
  | Move id old_x old_y new_x new_y =>
    rw [Command.carryOut]
    split_ifs with hid
    · exact h
    · exact h.setElementPosition (h id hid) new_x new_y
  | Connect pc => exact h

theorem takeBack (extents : ℤ × ℤ) (command : Command Guid) :
    (command.takeBack extents d).1.Placed := by
  cases command with
  | Add id x y => exact h.removeElement id
  | Delete id x y connections =>
    rw [Command.takeBack]
    split_ifs
    · exact h
    · exact store (d := { d with connections := _ }) h id
    · exact addElement (d := { d with connections := _ }) h id _ _
  | Move id old_x old_y new_x new_y =>
    rw [Command.takeBack]
    split_ifs with hid
    · exact h
    · exact h.setElementPosition (h id hid) old_x old_y
  | Connect pc => exact h

theorem carryOut_throws {extents : ℤ × ℤ} {command : Command Guid}
    (hthrows : (command.carryOut extents d).2 = false) :
    (command.carryOut extents d).1 = d := by
  cases command with
  | Add id x y =>
    rw [Command.carryOut] at hthrows ⊢
    split_ifs at hthrows ⊢ with hid hplaced
    · rfl
    · exact absurd (h.free hid) hplaced
  | Delete id x y connections => cases hthrows
  | Move id old_x old_y new_x new_y =>
    rw [Command.carryOut] at hthrows ⊢
    split_ifs at hthrows ⊢
    rfl
  | Connect pc => cases hthrows

end Placed

end Document

theorem Entry.Records.takeBack {e : Entry Guid} {extents : ℤ × ℤ} {d : Document Guid}
    (h : e.Records) (hd : d.Same e.after) (hextents : e.UndoesAt extents) :
    (e.command.takeBack extents d).2 = true ∧
      (e.command.takeBack extents d).1.Same e.before := by
  have hundo : (e.command.Undo extents d).Same e.before := h.undo hd hextents
  unfold Entry.Records at h
  cases hcommand : e.command with
  | Add id x y =>
    rw [hcommand] at hundo
    exact ⟨rfl, hundo⟩
  | Delete id x y connections =>
    simp only [hcommand] at h hundo
    have hremoved := hd.trans h.2.2.2
    have hstore : d.element_store id = false := by
      simp [hremoved.element_store, Document.removeElement]
    have helements : d.elements id = none := by
      simp [hremoved.elements, Document.removeElement]
    rw [Command.takeBack, if_neg (by simp [hstore]), if_neg (by simp [helements])]
    exact ⟨rfl, hundo⟩
  | Move id old_x old_y new_x new_y =>
    simp only [hcommand] at h hundo
    have hmoved := hd.trans h.2
    have helements : d.elements id = some (new_x, new_y) := by
      simp [hmoved.elements, Document.SetElementPosition]
    rw [Command.takeBack, if_neg (by simp [helements])]
    exact ⟨rfl, hundo⟩
  | Connect pc =>
    rw [hcommand] at hundo
    exact ⟨rfl, hundo⟩

namespace Document

variable {d d' : Document Guid} {file : List (FileNode Guid)}

theorem read_spec {n : FileNode Guid} (h : d.read n = some d') :
    d' = d.merge [n] ∧ (∀ id, d.element_store id = true → n ≠ .element id) ∧
      ∀ id, d.elements id ≠ none → n.position? id = none := by
  cases n with
  | element id =>
    simp only [read, Option.ite_none_left_eq_some, Option.some.injEq] at h
    obtain ⟨hid, rfl⟩ := h
    refine ⟨?_, fun id' hid' heq => hid (FileNode.element.inj heq ▸ hid'), fun _ _ => rfl⟩
    simp only [merge, List.filterMap_cons, List.findSome?_cons, List.findSome?_nil,
      List.filterMap_nil, FileNode.connection?, FileNode.position?, List.append_nil, Option.or_none,
      List.mem_singleton, FileNode.element.injEq]
    congr 1
    funext id'
    by_cases heq : id' = id <;> simp [heq]
  | connection pc =>
    simp only [read, Option.some.injEq] at h
    subst h
    refine ⟨?_, fun _ _ => by simp, fun _ _ => rfl⟩
    simp [merge, FileNode.connection?, FileNode.position?]
  | position id x y =>
    simp only [read, Option.ite_none_right_eq_some, Option.some.injEq] at h
    obtain ⟨⟨hstore, helements⟩, rfl⟩ := h
    refine ⟨?_, fun _ _ => by simp, ?_⟩
    · simp only [merge, SetElementPosition, List.filterMap_cons, List.findSome?_cons,
        List.findSome?_nil, List.filterMap_nil, FileNode.connection?, FileNode.position?,
        List.append_nil, List.mem_singleton, reduceCtorEq, decide_false, Bool.or_false]
      congr 1
      funext id'
      by_cases heq : id' = id
      · simp [heq, helements]
      · simp [heq, Ne.symm heq]
    · intro id' hid'
      simp only [FileNode.position?, ite_eq_right_iff, reduceCtorEq, imp_false]
      rintro rfl
      exact hid' helements
  | malformed => cases h

theorem merge_nil : d.merge [] = d := by simp [merge]

theorem merge_append (file' : List (FileNode Guid)) :
    d.merge (file ++ file') = (d.merge file).merge file' := by
  simp only [merge, List.mem_append, Bool.decide_or, Bool.or_assoc, List.filterMap_append,
    List.append_assoc, List.findSome?_append, Option.or_assoc]

structure New (d : Document Guid) (file : List (FileNode Guid)) : Prop where
  element : ∀ id, d.element_store id = true → .element id ∉ file
  position : ∀ id, d.elements id ≠ none → file.findSome? (FileNode.position? id) = none
  formed : .malformed ∉ file

theorem New.nil (d : Document Guid) : d.New [] := ⟨by simp, by simp, by simp⟩

theorem New.cons {n : FileNode Guid} (hread : d.read n = some d') (h : d'.New file) :
    d.New (n :: file) := by
  obtain ⟨rfl, helement, hposition⟩ := read_spec hread
  refine ⟨fun id hid => ?_, fun id hid => ?_, ?_⟩
  · have hrest : FileNode.element id ∉ file := h.element id (by simp [merge, hid])
    exact List.not_mem_cons_of_ne_of_not_mem (helement id hid).symm hrest
  · have hrest : file.findSome? (FileNode.position? id) = none :=
      h.position id (by simp [merge, hid])
    rw [List.findSome?_cons, hposition id hid]
    exact hrest
  · refine List.not_mem_cons_of_ne_of_not_mem ?_ h.formed
    rintro rfl
    cases hread

theorem load_spec (d : Document Guid) (file : List (FileNode Guid)) :
    ∃ front back, file = front ++ back ∧ (d.Load file).1 = d.merge front ∧ d.New front ∧
      ((d.Load file).2 = true → back = []) ∧
      ((d.Load file).2 = false → ∃ n ∈ back.head?, (d.merge front).read n = none) := by
  induction file generalizing d with
  | nil => exact ⟨[], [], rfl, merge_nil.symm, New.nil d, fun _ => rfl, by simp [Load]⟩
  | cons n file ih =>
    cases hread : d.read n with
    | none =>
      rw [Load, hread]
      exact ⟨[], n :: file, rfl, merge_nil.symm, New.nil d, by simp,
        fun _ => ⟨n, rfl, by rw [merge_nil, hread]⟩⟩
    | some d' =>
      obtain ⟨front, back, hfile, hmerge, hnew, hback⟩ := ih d'
      have hd' : d' = d.merge [n] := (read_spec hread).1
      have hfront : d.merge (n :: front) = d'.merge front := by
        rw [hd', ← merge_append, List.singleton_append]
      rw [Load, hread]
      refine ⟨n :: front, back, by rw [hfile, List.cons_append], ?_, hnew.cons hread, ?_⟩
      · rw [hfront]
        exact hmerge
      · rw [hfront]
        exact hback

theorem New.eq_nil (h : d.New file) (hsame : (d.merge file).Same d) : file = [] := by
  apply List.eq_nil_iff_forall_not_mem.mpr
  intro n hn
  cases n with
  | element id =>
    have hid : d.element_store id = true := by
      rw [← hsame.element_store]
      simp [merge, hn]
    exact h.element id hid hn
  | connection pc =>
    have hlength := hsame.connections.length_eq
    rw [merge, List.length_append, Nat.add_eq_left, List.length_eq_zero_iff] at hlength
    have hpc : pc ∈ file.filterMap FileNode.connection? := List.mem_filterMap.mpr ⟨_, hn, rfl⟩
    rw [hlength] at hpc
    cases hpc
  | position id x y =>
    have hsome : file.findSome? (FileNode.position? id) ≠ none := by
      rw [ne_eq, List.findSome?_eq_none_iff]
      intro hnone
      exact absurd (hnone _ hn) (by simp [FileNode.position?])
    have hid := congrFun hsame.elements id
    cases helements : d.elements id with
    | none =>
      simp only [merge, helements, Option.none_or] at hid
      exact hsome hid
    | some position => exact hsome (h.position id (by simp [helements]))
  | malformed => exact h.formed hn

theorem New.same_iff (h : d.New file) : (d.merge file).Same (new.merge file) ↔ d.Same new := by
  constructor
  · intro hsame
    refine ⟨funext fun id => ?_, ?_, funext fun id => ?_⟩
    · have hid := congrFun hsame.element_store id
      cases hstore : d.element_store id with
      | false => rfl
      | true => simp [merge, new, hstore, h.element id hstore] at hid
    · have hlength := hsame.connections.length_eq
      simp only [merge, new, List.length_append, List.length_nil, Nat.add_right_cancel_iff,
        List.length_eq_zero_iff] at hlength
      rw [hlength]
      exact .refl _
    · have hid := congrFun hsame.elements id
      cases helements : d.elements id with
      | none => rfl
      | some position =>
        have hnone := h.position id (by simp [helements])
        simp [merge, new, helements, hnone] at hid
  · intro hsame
    exact ⟨by simp only [merge, hsame.element_store], hsame.connections.append (.refl _),
      by simp only [merge, hsame.elements]⟩

end Document

namespace Session

variable {s : Session Guid}

theorem undo_cons {e : Entry Guid} {undo_stack : List (Entry Guid)}
    (hstack : s.undo_stack = e :: undo_stack) :
    s.Undo.document = (e.command.takeBack s.extents s.document).1 ∧ s.Undo.written = s.written ∧
      s.Undo.Saved = if (e.command.takeBack s.extents s.document).2 = true ∧ undo_stack = []
        then true else s.Saved := by
  unfold Undo
  rw [hstack]
  dsimp only
  rcases e.command.takeBack s.extents s.document with ⟨document, _ | _⟩
  · exact ⟨rfl, rfl, rfl⟩
  · simp

theorem load_document (file : List (FileNode Guid)) :
    (s.step (.Load file)).document = (s.document.Load file).1 := by
  unfold step
  dsimp only
  rcases s.document.Load file with ⟨document, _ | _⟩ <;> rfl

section Step

variable (hplaced : s.document.Placed)
include hplaced

theorem placed_perform (command : Command Guid) (redo_stack : List (Entry Guid)) :
    (s.perform command redo_stack).document.Placed := by
  have hcarried := hplaced.carryOut s.extents command
  unfold perform
  split
  · next hcarry => simpa only [hcarry] using hcarried
  · next hcarry => simpa only [hcarry] using hcarried

theorem placed_undo : s.Undo.document.Placed := by
  cases hstack : s.undo_stack with
  | nil =>
    unfold Undo
    rw [hstack]
    exact hplaced
  | cons e undo_stack =>
    rw [(undo_cons hstack).1]
    exact hplaced.takeBack s.extents e.command

theorem placed_redo : s.Redo.document.Placed := by
  unfold Redo
  split
  · exact hplaced
  · next e redo_stack _ =>
    exact placed_perform (s := { s with redo_stack := redo_stack }) hplaced e.command redo_stack

theorem placed_step (o : Operation Guid) : (s.step o).document.Placed := by
  cases o with
  | scroll x y => exact hplaced
  | Do command => exact placed_perform hplaced command []
  | Undo => exact placed_undo hplaced
  | Redo => exact placed_redo hplaced
  | Save => exact hplaced
  | Load file =>
    rw [load_document]
    exact hplaced.load file

variable (h : s.Truthful)
include h

theorem truthful_perform (command : Command Guid) (redo_stack : List (Entry Guid)) :
    (s.perform command redo_stack).Truthful := by
  unfold perform
  split
  · next document hcarry =>
    have hfalse : (command.carryOut s.extents s.document).2 = false := by rw [hcarry]
    have hthrows := hplaced.carryOut_throws hfalse
    rw [hcarry] at hthrows
    cases hthrows
    exact h
  · exact fun hsaved => Bool.noConfusion hsaved

theorem truthful_redo : s.Redo.Truthful := by
  unfold Redo
  split
  · exact h
  · next e redo_stack _ =>
    exact truthful_perform (s := { s with redo_stack := redo_stack }) hplaced h e.command redo_stack

omit hplaced in
theorem truthful_undo_iff (ha : s.TakesBack .Undo) : s.Undo.Truthful ↔ s.Returns .Undo := by
  cases hstack : s.undo_stack with
  | nil =>
    have hundo : s.Undo = s := by
      unfold Undo
      rw [hstack]
    rw [hundo]
    exact iff_of_true h (by simp [Returns, hstack])
  | cons e undo_stack =>
    obtain ⟨hdocument, hwritten, hsaved⟩ := undo_cons hstack
    have hreturns : s.Returns .Undo ↔
        (s.Saved = true ∨ undo_stack = [] → e.before.Same s.written) := by
      simp [Returns, hstack]
    rw [hreturns, Truthful, hdocument, hwritten]
    by_cases hset : s.Saved = true ∨ undo_stack = []
    · obtain ⟨hafter, hrecords, hextents⟩ := ha e (by simp [hstack]) (by simpa [hstack] using hset)
      obtain ⟨hreturned, hbefore⟩ := hrecords.takeBack hafter hextents
      have hsaved' : s.Undo.Saved = true := by
        rw [hsaved, hreturned]
        rcases hset with hset | hset <;> simp [hset]
      rw [imp_iff_right hsaved', imp_iff_right hset]
      exact ⟨hbefore.symm.trans, hbefore.trans⟩
    · obtain ⟨hnot, hrest⟩ := not_or.mp hset
      have hsaved' : ¬s.Undo.Saved = true := by
        rw [hsaved, if_neg fun hlast => hrest hlast.2]
        exact hnot
      exact iff_of_true (fun hsaved => absurd hsaved hsaved') (fun hset' => absurd hset' hset)

omit hplaced in
theorem truthful_load_iff (file : List (FileNode Guid)) :
    (s.step (.Load file)).Truthful ↔ s.Returns (.Load file) := by
  obtain ⟨front, back, hfile, hmerge, hnew, hwhole, hpart⟩ := s.document.load_spec file
  unfold Returns step
  dsimp only
  cases hload : s.document.Load file with
  | mk document returned =>
  rw [hload] at hmerge hwhole hpart
  dsimp only at hmerge hwhole hpart ⊢
  rw [hmerge]
  cases returned with
  | true =>
    rw [hwhole rfl, List.append_nil] at hfile
    rw [if_pos rfl, hfile, ← hnew.same_iff, Truthful]
    exact imp_iff_right rfl
  | false =>
    rw [if_neg Bool.false_ne_true, Truthful]
    refine imp_congr_right fun hsaved => ?_
    have hsame : s.document.Same s.written := h hsaved
    constructor
    · intro hkept
      have hfront : front = [] := hnew.eq_nil (hkept.trans hsame.symm)
      obtain ⟨n, hn, hread⟩ := hpart rfl
      rw [hfront, Document.merge_nil] at hread
      rw [hfile, hfront, List.nil_append]
      intro n' hn'
      rw [Option.mem_unique hn' hn]
      exact hread
    · intro hhead
      have hdocument : document = s.document := by
        cases file with
        | nil => simp [Document.Load] at hload
        | cons n file =>
          rw [Document.Load, hhead n rfl] at hload
          exact (Prod.mk.inj hload).1.symm
      rw [← hmerge, hdocument]
      exact hsame

theorem truthful_step_iff (o : Operation Guid) (ha : s.TakesBack o) :
    (s.step o).Truthful ↔ s.Returns o := by
  cases o with
  | scroll x y => exact iff_of_true h trivial
  | Do command => exact iff_of_true (truthful_perform hplaced h command []) trivial
  | Undo => exact truthful_undo_iff h ha
  | Redo => exact iff_of_true (truthful_redo hplaced h) trivial
  | Save => exact iff_of_true (fun _ => .refl s.document) trivial
  | Load file => exact truthful_load_iff h file

end Step

/-- Where the Undos that set the flag or find it set take their commands back, it is right in all of
a run exactly if they return to what was saved, and no Load adds to what is there. -/
theorem saved_iff (extents : ℤ × ℤ) {operations : List (Operation Guid)}
    (hl : Meets step TakesBack (opened extents) operations) :
    Always step Truthful (opened extents) operations ↔
      Meets step Returns (opened extents) operations :=
  always_iff_meets_of (I := fun s => s.document.Placed)
    (fun _ o hplaced _ _ => placed_step hplaced o)
    (fun _ o hplaced h ha => truthful_step_iff hplaced h o ha)
    Document.placed_new (fun _ => .refl _) hl

def readAndMoved : List (Operation ℕ) :=
  [.Do (.Add 1 30 40), .Undo, .Load [.element 2, .position 2 5 6], .Do (.Move 2 5 6 7 8), .Save]

theorem saved_iff_moved :
    Meets step TakesBack (opened (0, 0)) readAndMoved ∧
      (Always step Truthful (opened (0, 0)) readAndMoved ↔
        Meets step Returns (opened (0, 0)) readAndMoved) :=
  have htakes : Meets step TakesBack (opened (0, 0)) readAndMoved := by
    refine ⟨trivial, ?_, trivial, trivial, trivial, trivial⟩
    intro e he _
    cases he
    exact ⟨.refl _, ⟨rfl, rfl, .refl _⟩, trivial⟩
  ⟨htakes, saved_iff (0, 0) htakes⟩

/-- After Save the one command is undone, which sets the flag again. -/
theorem not_saved :
    ¬∀ (extents : ℤ × ℤ) (operations : List (Operation ℕ)),
      Always step Truthful (opened extents) operations := by
  intro h
  have hundone := (h (0, 0) [.Do (.Add 1 30 40), .Save, .Undo]).last rfl
  exact absurd (congrFun hundone.element_store 1) (by decide)

end Session

end NaviMisc.Fyre
