import Mathlib.Data.BitVec
import Mathlib.Tactic.Ring
import NaviMisc.Lib.Chain

/-!
`ROWorld` of include/roData.h: the room lists threaded through
`objects.nextInRoom`, and `setObjectRoom` of source/roData.cpp.
-/

namespace NaviMisc.RobotOdyssey

open Lib.Chain

abbrev Byte := Fin 0x100

local instance neZeroByte : NeZero 0x100 := ⟨by decide⟩

def RO_OBJ_NONE : Byte := 0xFF

def RO_ROOM_NONE : Byte := 0x3F

/-- The three tables the room lists live in. `rooms.objectListHead` has 0x40 entries, but an
object's room is any byte: the table goes on into the bytes that follow it in the packed structure. -/
structure ROWorld where
  nextInRoom : Byte → Byte
  room : Byte → Byte
  objectListHead : Byte → Byte

namespace ROWorld

def init : ROWorld where
  nextInRoom := fun _ => RO_OBJ_NONE
  room := fun _ => RO_ROOM_NONE
  objectListHead := fun r => if r.val < 0x40 then RO_OBJ_NONE else 0

def heap (w : ROWorld) : Heap Byte Byte := ⟨w.objectListHead, w.nextInRoom⟩

def load (w : ROWorld) : Cell Byte Byte → Byte
  | .head r => w.objectListHead r
  | .next o => w.nextInRoom o

def store (w : ROWorld) (c : Cell Byte Byte) (v : Byte) : ROWorld :=
  match c with
  | .head r => { w with objectListHead := Function.update w.objectListHead r v }
  | .next o => { w with nextInRoom := Function.update w.nextInRoom o v }

def removeLoop (w : ROWorld) (obj : Byte) (memo : Finset Byte) (head : Cell Byte Byte) : ROWorld :=
  if w.load head = RO_OBJ_NONE then w
  else if w.load head ∈ memo then w
  else if w.load head = obj then w.store head (w.nextInRoom obj)
  else removeLoop w obj (insert (w.load head) memo) (.next (w.load head))
termination_by (Finset.univ \ memo).card
decreasing_by
  rename_i hmemo _
  rw [Finset.sdiff_insert]
  exact Finset.card_erase_lt_of_mem (Finset.mem_sdiff.mpr ⟨Finset.mem_univ _, hmemo⟩)

def removeObjectFromRoom (w : ROWorld) (obj room : Byte) : ROWorld :=
  if room = RO_ROOM_NONE then w else w.removeLoop obj ∅ (.head room)

def addObjectToRoom (w : ROWorld) (obj room : Byte) : ROWorld :=
  if room = RO_ROOM_NONE then w
  else (w.store (.next obj) (w.objectListHead room)).store (.head room) obj

def getObjectRoom (w : ROWorld) (obj : Byte) : Byte := w.room obj

def setObjectRoom (w : ROWorld) (obj room : Byte) : ROWorld :=
  let w := w.removeObjectFromRoom obj (w.getObjectRoom obj)
  let w := { w with room := Function.update w.room obj room }
  w.addObjectToRoom obj room

@[simp] theorem heap_store (w : ROWorld) (c : Cell Byte Byte) (v : Byte) :
    (w.store c v).heap = w.heap.store c v := by
  cases c <;> rfl

@[simp] theorem room_store (w : ROWorld) (c : Cell Byte Byte) (v : Byte) :
    (w.store c v).room = w.room := by
  cases c <;> rfl

/-- The lists of rooms 0 to 0x3E: linked up, free of duplicates, and each made of
the objects in that room. -/
structure RoomLists (w : ROWorld) (lists : Byte → List Byte) : Prop where
  links : ∀ r, r < RO_ROOM_NONE → w.heap.Links RO_OBJ_NONE (w.objectListHead r) (lists r)
  nodup : ∀ r, r < RO_ROOM_NONE → (lists r).Nodup
  mem_iff : ∀ r, r < RO_ROOM_NONE → ∀ o, o ∈ lists r ↔ o ≠ RO_OBJ_NONE ∧ w.room o = r

theorem roomLists_init : init.RoomLists fun _ => [] := by
  constructor
  · intro r hr
    have hlt : r.val < 0x40 := by
      have : r.val < 0x3F := hr
      omega
    exact if_pos hlt
  · exact fun r _ => List.nodup_nil
  · intro r hr o
    have hne : RO_ROOM_NONE ≠ r := ne_of_gt hr
    simp only [List.not_mem_nil, false_iff, not_and]
    exact fun _ => hne

theorem removeLoop_cases (w : ROWorld) (obj : Byte) (memo : Finset Byte) (head : Cell Byte Byte) :
    w.removeLoop obj memo head = w ∨ ∃ c, (c = head ∨ ∃ o, c = .next o) ∧ w.load c = obj ∧
      w.removeLoop obj memo head = w.store c (w.nextInRoom obj) := by
  induction memo, head using removeLoop.induct w obj with
  | case1 memo head hnone => rw [removeLoop, if_pos hnone]; exact .inl rfl
  | case2 memo head hnone hmemo => rw [removeLoop, if_neg hnone, if_pos hmemo]; exact .inl rfl
  | case3 memo head hnone hmemo hobj =>
    rw [removeLoop, if_neg hnone, if_neg hmemo, if_pos hobj]
    exact .inr ⟨head, .inl rfl, hobj, rfl⟩
  | case4 memo head hnone hmemo hobj ih =>
    rw [removeLoop, if_neg hnone, if_neg hmemo, if_neg hobj]
    rcases ih with h | ⟨c, hc, hload, h⟩
    · exact .inl h
    · refine .inr ⟨c, .inr ?_, hload, h⟩
      rcases hc with rfl | hc
      · exact ⟨_, rfl⟩
      · exact hc

theorem removeLoop_links {w : ROWorld} {obj : Byte} {l₁ l₂ : List Byte} {memo : Finset Byte}
    {head : Cell Byte Byte}
    (hl : w.heap.Links RO_OBJ_NONE (w.load head) (l₁ ++ obj :: l₂)) (hn : (l₁ ++ obj :: l₂).Nodup)
    (hmemo : ∀ o ∈ l₁ ++ obj :: l₂, o ∉ memo) :
    w.removeLoop obj memo head = w.store (Heap.lastCell head l₁) (w.nextInRoom obj) := by
  induction l₁ generalizing memo head with
  | nil =>
    obtain ⟨hobj, hnone, -⟩ := hl
    have hnot := hmemo obj (List.mem_cons_self ..)
    rw [removeLoop, hobj, if_neg hnone, if_neg hnot, if_pos rfl]
    rfl
  | cons o l₁ ih =>
    obtain ⟨ho, hnone, htail⟩ := hl
    obtain ⟨hnotin, hn⟩ := List.nodup_cons.mp hn
    have hnot := hmemo o (List.mem_cons_self ..)
    have hne : o ≠ obj := fun h => hnotin (h ▸ List.mem_append_right _ (List.mem_cons_self ..))
    rw [removeLoop, ho, if_neg hnone, if_neg hnot, if_neg hne]
    have htail' : w.heap.Links RO_OBJ_NONE (w.load (.next o)) (l₁ ++ obj :: l₂) := htail
    apply ih htail' hn
    intro x hx hins
    rcases Finset.mem_insert.mp hins with rfl | hin
    · exact hnotin hx
    · exact hmemo x (List.mem_cons_of_mem _ hx) hin

theorem links_store {w : ROWorld} {r : Byte} {l : List Byte} {c : Cell Byte Byte}
    (hl : w.heap.Links RO_OBJ_NONE (w.objectListHead r) l) (hhead : c ≠ .head r)
    (hnext : ∀ o ∈ l, c ≠ .next o) (v : Byte) :
    (w.store c v).heap.Links RO_OBJ_NONE ((w.store c v).objectListHead r) l := by
  have hload : (w.store c v).objectListHead r = w.objectListHead r := by
    have h := Heap.load_store_of_ne (h := w.heap) (Ne.symm hhead) v
    rwa [← heap_store] at h
  rw [hload, heap_store]
  exact hl.store hnext v

theorem room_removeObjectFromRoom (w : ROWorld) (obj room : Byte) :
    (w.removeObjectFromRoom obj room).room = w.room := by
  unfold removeObjectFromRoom
  split
  · rfl
  · rcases w.removeLoop_cases obj ∅ (.head room) with h | ⟨c, -, -, h⟩
    · rw [h]
    · rw [h, room_store]

section setObjectRoom

variable {w : ROWorld} {lists : Byte → List Byte} {obj room : Byte}

theorem RoomLists.mem_iff_room (h : w.RoomLists lists) (hobj : obj ≠ RO_OBJ_NONE) {r : Byte}
    (hr : r < RO_ROOM_NONE) : obj ∈ lists r ↔ w.room obj = r := by
  rw [h.mem_iff r hr, and_iff_right hobj]

theorem RoomLists.remove_eq (h : w.RoomLists lists) (hobj : obj ≠ RO_OBJ_NONE)
    (hlt : w.room obj < RO_ROOM_NONE) : ∃ l₁ l₂, lists (w.room obj) = l₁ ++ obj :: l₂ ∧
      w.removeObjectFromRoom obj (w.room obj) =
        w.store (Heap.lastCell (.head (w.room obj)) l₁) (w.nextInRoom obj) := by
  obtain ⟨l₁, l₂, hsplit⟩ := List.append_of_mem ((h.mem_iff_room hobj hlt).mpr rfl)
  have hlinks := h.links _ hlt
  have hnodup := h.nodup _ hlt
  rw [hsplit] at hlinks hnodup
  refine ⟨l₁, l₂, hsplit, ?_⟩
  rw [removeObjectFromRoom, if_neg (ne_of_lt hlt)]
  exact removeLoop_links hlinks hnodup fun o _ => Finset.notMem_empty o

theorem RoomLists.remove_own (h : w.RoomLists lists) (hobj : obj ≠ RO_OBJ_NONE)
    (hlt : w.room obj < RO_ROOM_NONE) :
    (w.removeObjectFromRoom obj (w.room obj)).heap.Links RO_OBJ_NONE
      ((w.removeObjectFromRoom obj (w.room obj)).objectListHead (w.room obj))
      ((lists (w.room obj)).erase obj) := by
  obtain ⟨l₁, l₂, hsplit, hrun⟩ := h.remove_eq hobj hlt
  have hlinks := h.links _ hlt
  have hnodup := h.nodup _ hlt
  rw [hsplit] at hlinks hnodup
  have hunlink : (w.heap.store (Heap.lastCell (.head (w.room obj)) l₁) (w.nextInRoom obj)).Links
      RO_OBJ_NONE ((w.heap.store (Heap.lastCell (.head (w.room obj)) l₁)
        (w.nextInRoom obj)).load (.head (w.room obj))) (l₁ ++ l₂) :=
    Heap.Links.unlink (c := .head (w.room obj)) hlinks hnodup (by rintro a ha ⟨⟩)
  have hnot : obj ∉ l₁ := fun hin => (List.nodup_append.mp hnodup).2.2 obj hin obj
    (List.mem_cons_self ..) rfl
  rw [← heap_store] at hunlink
  rw [hrun, hsplit, List.erase_append_right _ hnot, List.erase_cons_head]
  exact hunlink

theorem RoomLists.remove_other (h : w.RoomLists lists) (hobj : obj ≠ RO_OBJ_NONE)
    (hlt : w.room obj < RO_ROOM_NONE) {r : Byte} (hr : r < RO_ROOM_NONE) (hroom : r ≠ w.room obj) :
    (w.removeObjectFromRoom obj (w.room obj)).heap.Links RO_OBJ_NONE
      ((w.removeObjectFromRoom obj (w.room obj)).objectListHead r) (lists r) := by
  obtain ⟨l₁, l₂, hsplit, hrun⟩ := h.remove_eq hobj hlt
  rw [hrun]
  obtain hlast | ⟨a, ha, hlast⟩ := Heap.lastCell_eq (.head (w.room obj) : Cell Byte Byte) l₁
  · rw [hlast]
    apply links_store (h.links r hr)
    · rintro ⟨⟩
      exact hroom rfl
    · rintro o ho ⟨⟩
  · rw [hlast]
    apply links_store (h.links r hr)
    · rintro ⟨⟩
    · rintro o ho ⟨⟩
      have hin : a ∈ lists (w.room obj) := hsplit ▸ List.mem_append_left _ ha
      exact hroom (((h.mem_iff r hr a).mp ho).2.symm.trans ((h.mem_iff _ hlt a).mp hin).2)

theorem RoomLists.remove_stray (h : w.RoomLists lists) (hobj : obj ≠ RO_OBJ_NONE)
    (hgt : RO_ROOM_NONE < w.room obj) {r : Byte} (hr : r < RO_ROOM_NONE) (hout : obj ∉ lists r) :
    (w.removeObjectFromRoom obj (w.room obj)).heap.Links RO_OBJ_NONE
      ((w.removeObjectFromRoom obj (w.room obj)).objectListHead r) (lists r) := by
  rw [removeObjectFromRoom, if_neg (ne_of_gt hgt)]
  obtain hrun | ⟨c, hc, hload, hrun⟩ := w.removeLoop_cases obj ∅ (.head (w.room obj))
  · rw [hrun]
    exact h.links r hr
  · rw [hrun]
    apply links_store (h.links r hr)
    · rintro rfl
      obtain hc | ⟨o, hc⟩ := hc
      · cases hc
        exact not_lt_of_gt hgt hr
      · cases hc
    · rintro o ho rfl
      -- a link inside a list leads to an element of the list, never to the object
      obtain hnone | hin := (h.links r hr).next_mem ho
      · exact hobj (hload.symm.trans hnone)
      · exact hout (hload ▸ hin)

theorem RoomLists.remove (h : w.RoomLists lists) (hobj : obj ≠ RO_OBJ_NONE) {r : Byte}
    (hr : r < RO_ROOM_NONE) :
    (w.removeObjectFromRoom obj (w.room obj)).heap.Links RO_OBJ_NONE
      ((w.removeObjectFromRoom obj (w.room obj)).objectListHead r) ((lists r).erase obj) := by
  by_cases hroom : r = w.room obj
  · rw [hroom] at hr ⊢
    exact h.remove_own hobj hr
  · have hout : obj ∉ lists r := fun hin => hroom ((h.mem_iff_room hobj hr).mp hin).symm
    rw [List.erase_of_not_mem hout]
    obtain hlt | hnone | hgt := lt_trichotomy (w.room obj) RO_ROOM_NONE
    · exact h.remove_other hobj hlt hr hroom
    · rw [removeObjectFromRoom, if_pos hnone]
      exact h.links r hr
    · exact h.remove_stray hobj hgt hr hout

def moved (lists : Byte → List Byte) (obj room : Byte) (r : Byte) : List Byte :=
  if r = room then obj :: (lists r).erase obj else (lists r).erase obj

theorem RoomLists.links_add (h : ∀ r, r < RO_ROOM_NONE →
      w.heap.Links RO_OBJ_NONE (w.objectListHead r) ((lists r).erase obj))
    (hn : ∀ r, r < RO_ROOM_NONE → (lists r).Nodup) (hobj : obj ≠ RO_OBJ_NONE) {r : Byte}
    (hr : r < RO_ROOM_NONE) :
    (w.addObjectToRoom obj room).heap.Links RO_OBJ_NONE
      ((w.addObjectToRoom obj room).objectListHead r) (moved lists obj room r) := by
  have hnot : obj ∉ (lists r).erase obj := (hn r hr).not_mem_erase
  unfold addObjectToRoom moved
  by_cases hnone : room = RO_ROOM_NONE
  · rw [if_pos hnone, if_neg (hnone ▸ ne_of_lt hr)]
    exact h r hr
  rw [if_neg hnone]
  by_cases hroom : r = room
  · subst hroom
    rw [if_pos rfl]
    have hpush := (h r hr).push hnot hobj
    have hfront := hpush.store (c := .head r) (by rintro a ha ⟨⟩) obj
    have hhead : ((w.store (.next obj) (w.objectListHead r)).store (.head r) obj).objectListHead r = obj :=
      Function.update_self ..
    rw [hhead, heap_store, heap_store]
    exact hfront
  · rw [if_neg hroom]
    apply links_store
    · apply links_store (h r hr)
      · rintro ⟨⟩
      · rintro o ho ⟨⟩
        exact hnot ho
    · rintro ⟨⟩
      exact hroom rfl
    · rintro o ho ⟨⟩

theorem RoomLists.setObjectRoom (h : w.RoomLists lists) (hobj : obj ≠ RO_OBJ_NONE) :
    (w.setObjectRoom obj room).RoomLists (moved lists obj room) := by
  let w₁ := w.removeObjectFromRoom obj (w.room obj)
  let w₂ : ROWorld := { w₁ with room := Function.update w₁.room obj room }
  have hlinks : ∀ r, r < RO_ROOM_NONE →
      w₂.heap.Links RO_OBJ_NONE (w₂.objectListHead r) ((lists r).erase obj) := fun r hr => h.remove hobj hr
  have hrooms : (w.setObjectRoom obj room).room = Function.update w.room obj room := by
    change (w₂.addObjectToRoom obj room).room = _
    rw [← room_removeObjectFromRoom w obj (w.room obj)]
    unfold addObjectToRoom
    split
    · rfl
    · rw [room_store, room_store]
  have hnot {r : Byte} (hr : r < RO_ROOM_NONE) : obj ∉ (lists r).erase obj :=
    (h.nodup r hr).not_mem_erase
  constructor
  · exact fun r hr => RoomLists.links_add hlinks h.nodup hobj hr
  · intro r hr
    unfold moved
    split
    · exact List.nodup_cons.mpr ⟨hnot hr, (h.nodup r hr).erase obj⟩
    · exact (h.nodup r hr).erase obj
  · intro r hr o
    rw [hrooms]
    by_cases ho : o = obj
    · subst ho
      rw [Function.update_self]
      unfold moved
      by_cases hr' : r = room
      · rw [if_pos hr']
        exact iff_of_true (List.mem_cons_self ..) ⟨hobj, hr'.symm⟩
      · rw [if_neg hr']
        exact iff_of_false (hnot hr) fun hin => hr' hin.2.symm
    · rw [Function.update_of_ne ho, ← h.mem_iff r hr o]
      unfold moved
      split
      · rw [List.mem_cons, or_iff_right ho, List.mem_erase_of_ne ho]
      · rw [List.mem_erase_of_ne ho]

theorem filter_moved (lists : Byte → List Byte) (obj room r : Byte) :
    (moved lists obj room r).filter (· ≠ obj) = (lists r).filter (· ≠ obj) := by
  have herase : ((lists r).erase obj).filter (· ≠ obj) = (lists r).filter (· ≠ obj) := by
    induction lists r with
    | nil => rfl
    | cons o l ih =>
      by_cases ho : o = obj
      · subst ho
        rw [List.erase_cons_head, List.filter_cons_of_neg (by simp)]
      · rw [List.erase_cons_tail (by simpa using ho), List.filter_cons_of_pos (by simpa using ho),
          List.filter_cons_of_pos (by simpa using ho), ih]
  unfold moved
  split
  · rw [List.filter_cons_of_neg (by simp), herase]
  · exact herase

end setObjectRoom

def Moves (w w' : ROWorld) : Prop :=
  ∃ obj room, obj ≠ RO_OBJ_NONE ∧ room ≤ RO_ROOM_NONE ∧ w' = w.setObjectRoom obj room

theorem roomLists_of_moves {w w' : ROWorld} (h : ∃ lists, w.RoomLists lists)
    (hmoves : Relation.ReflTransGen Moves w w') : ∃ lists, w'.RoomLists lists := by
  induction hmoves with
  | refl => exact h
  | tail _ hmove ih =>
    obtain ⟨lists, hlists⟩ := ih
    obtain ⟨obj, room, hobj, -, rfl⟩ := hmove
    exact ⟨_, hlists.setObjectRoom hobj⟩

/-- After any sequence of calls every object is in exactly the list of its room, and the next call
keeps the order of the other objects in every list. -/
theorem setObjectRoom_keeps_roomLists {w₀ w : ROWorld}
    (h₀ : w₀ = init ∨ ∃ lists, w₀.RoomLists lists) (hmoves : Relation.ReflTransGen Moves w₀ w) :
    ∃ lists, w.RoomLists lists ∧ ∀ obj room, obj ≠ RO_OBJ_NONE → room ≤ RO_ROOM_NONE →
      ∃ lists', (w.setObjectRoom obj room).RoomLists lists' ∧
        ∀ r, (lists' r).filter (· ≠ obj) = (lists r).filter (· ≠ obj) := by
  have hvalid : ∃ lists, w₀.RoomLists lists := by
    rcases h₀ with rfl | h₀
    · exact ⟨_, roomLists_init⟩
    · exact h₀
  obtain ⟨lists, hlists⟩ := roomLists_of_moves hvalid hmoves
  refine ⟨lists, hlists, fun obj room hobj _ => ?_⟩
  exact ⟨_, hlists.setObjectRoom hobj, filter_moved lists obj room⟩

theorem setObjectRoom_keeps_roomLists_init :
    ∃ lists, (init.setObjectRoom 3 9).RoomLists lists ∧
      ∃ lists', ((init.setObjectRoom 3 9).setObjectRoom 5 9).RoomLists lists' ∧
        ∀ r, (lists' r).filter (· ≠ 5) = (lists r).filter (· ≠ 5) := by
  obtain ⟨lists, hlists, hnext⟩ := setObjectRoom_keeps_roomLists (.inl rfl)
    (.single ⟨3, 9, by decide, by decide, rfl⟩)
  exact ⟨lists, hlists, hnext 5 9 (by decide) (by decide)⟩

end ROWorld

end NaviMisc.RobotOdyssey
