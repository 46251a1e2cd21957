import NaviMisc.Metalkit.Intr

/-!
The scancode state machine of keyboard.c.
-/

namespace NaviMisc.Metalkit.Keyboard

abbrev Keycode := BitVec 8

def ascii (c : Char) : Keycode := BitVec.ofNat 8 c.toNat

def KEY_NONE : Keycode := 0x00
def KEY_ESCAPE : Keycode := 0x1B
def KEY_BACKSPACE : Keycode := 0x08
def KEY_ENTER : Keycode := 0x0A
def KEY_TAB : Keycode := 0x09
def KEY_LCTRL : Keycode := 0x80
def KEY_LSHIFT : Keycode := 0x81
def KEY_RCTRL : Keycode := 0x82
def KEY_RSHIFT : Keycode := 0x83
def KEY_CAPSLOCK : Keycode := 0x84
def KEY_NUMLOCK : Keycode := 0x85
def KEY_SCROLLLOCK : Keycode := 0x86
def KEY_F1 : Keycode := 0x87
def KEY_F2 : Keycode := 0x88
def KEY_F3 : Keycode := 0x89
def KEY_F4 : Keycode := 0x8A
def KEY_F5 : Keycode := 0x8B
def KEY_F6 : Keycode := 0x8C
def KEY_F7 : Keycode := 0x8D
def KEY_F8 : Keycode := 0x8E
def KEY_F9 : Keycode := 0x8F
def KEY_F10 : Keycode := 0x90
def KEY_HOME : Keycode := 0x93
def KEY_END : Keycode := 0x94
def KEY_PGUP : Keycode := 0x95
def KEY_PGDOWN : Keycode := 0x96
def KEY_UP : Keycode := 0x97
def KEY_DOWN : Keycode := 0x98
def KEY_LEFT : Keycode := 0x99
def KEY_RIGHT : Keycode := 0x9A
def KEY_INSERT : Keycode := 0x9B
def KEY_DELETE : Keycode := 0x9C
def KEY_LALT : Keycode := 0x9D
def KEY_RALT : Keycode := 0x9E
def KEY_CTRL_PRTSCN : Keycode := 0x9F
def KEY_CTRL_BREAK : Keycode := 0xA0
def KEY_MAX : Keycode := 0xA1

structure Row where
  normal : Keycode
  shifted : Keycode
  escaped : Keycode

def kbmap : List Row :=
  [ -- 00
    ⟨KEY_NONE, KEY_NONE, KEY_NONE⟩, ⟨KEY_ESCAPE, KEY_ESCAPE, KEY_NONE⟩,
    ⟨ascii '1', ascii '!', KEY_NONE⟩, ⟨ascii '2', ascii '@', KEY_NONE⟩,
    ⟨ascii '3', ascii '#', KEY_NONE⟩, ⟨ascii '4', ascii '$', KEY_NONE⟩,
    ⟨ascii '5', ascii '%', KEY_NONE⟩, ⟨ascii '6', ascii '^', KEY_NONE⟩,
    ⟨ascii '7', ascii '&', KEY_NONE⟩, ⟨ascii '8', ascii '*', KEY_NONE⟩,
    ⟨ascii '9', ascii '(', KEY_NONE⟩, ⟨ascii '0', ascii ')', KEY_NONE⟩,
    ⟨ascii '-', ascii '_', KEY_NONE⟩, ⟨ascii '=', ascii '+', KEY_NONE⟩,
    ⟨KEY_BACKSPACE, KEY_BACKSPACE, KEY_NONE⟩, ⟨KEY_TAB, KEY_TAB, KEY_NONE⟩,
    -- 10
    ⟨ascii 'q', ascii 'Q', KEY_NONE⟩, ⟨ascii 'w', ascii 'W', KEY_NONE⟩,
    ⟨ascii 'e', ascii 'E', KEY_NONE⟩, ⟨ascii 'r', ascii 'R', KEY_NONE⟩,
    ⟨ascii 't', ascii 'T', KEY_NONE⟩, ⟨ascii 'y', ascii 'Y', KEY_NONE⟩,
    ⟨ascii 'u', ascii 'U', KEY_NONE⟩, ⟨ascii 'i', ascii 'I', KEY_NONE⟩,
    ⟨ascii 'o', ascii 'O', KEY_NONE⟩, ⟨ascii 'p', ascii 'P', KEY_NONE⟩, ⟨0x5B, 0x7B, KEY_NONE⟩,
    ⟨0x5D, 0x7D, KEY_NONE⟩, ⟨KEY_ENTER, KEY_ENTER, KEY_ENTER⟩, ⟨KEY_LCTRL, KEY_LCTRL, KEY_RCTRL⟩,
    ⟨ascii 'a', ascii 'A', KEY_NONE⟩, ⟨ascii 's', ascii 'S', KEY_NONE⟩,
    -- 20
    ⟨ascii 'd', ascii 'D', KEY_NONE⟩, ⟨ascii 'f', ascii 'F', KEY_NONE⟩,
    ⟨ascii 'g', ascii 'G', KEY_NONE⟩, ⟨ascii 'h', ascii 'H', KEY_NONE⟩,
    ⟨ascii 'j', ascii 'J', KEY_NONE⟩, ⟨ascii 'k', ascii 'K', KEY_NONE⟩,
    ⟨ascii 'l', ascii 'L', KEY_NONE⟩, ⟨ascii ';', ascii ':', KEY_NONE⟩, ⟨0x27, 0x22, KEY_NONE⟩,
    ⟨0x60, ascii '~', KEY_NONE⟩, ⟨KEY_LSHIFT, KEY_LSHIFT, KEY_NONE⟩, ⟨0x5C, ascii '|', KEY_NONE⟩,
    ⟨ascii 'z', ascii 'Z', KEY_NONE⟩, ⟨ascii 'x', ascii 'X', KEY_NONE⟩,
    ⟨ascii 'c', ascii 'C', KEY_NONE⟩, ⟨ascii 'v', ascii 'V', KEY_NONE⟩,
    -- 30
    ⟨ascii 'b', ascii 'B', KEY_NONE⟩, ⟨ascii 'n', ascii 'N', KEY_NONE⟩,
    ⟨ascii 'm', ascii 'M', KEY_NONE⟩, ⟨ascii ',', ascii '<', KEY_NONE⟩,
    ⟨ascii '.', ascii '>', KEY_NONE⟩, ⟨ascii '/', ascii '?', ascii '/'⟩,
    ⟨KEY_RSHIFT, KEY_RSHIFT, KEY_NONE⟩, ⟨ascii '*', ascii '*', KEY_CTRL_PRTSCN⟩,
    ⟨KEY_LALT, KEY_LALT, KEY_RALT⟩, ⟨ascii ' ', ascii ' ', KEY_NONE⟩,
    ⟨KEY_CAPSLOCK, KEY_CAPSLOCK, KEY_NONE⟩, ⟨KEY_F1, KEY_F1, KEY_NONE⟩,
    ⟨KEY_F2, KEY_F2, KEY_NONE⟩, ⟨KEY_F3, KEY_F3, KEY_NONE⟩, ⟨KEY_F4, KEY_F4, KEY_NONE⟩,
    ⟨KEY_F5, KEY_F5, KEY_NONE⟩,
    -- 40
    ⟨KEY_F6, KEY_F6, KEY_NONE⟩, ⟨KEY_F7, KEY_F6, KEY_NONE⟩, ⟨KEY_F8, KEY_F7, KEY_NONE⟩,
    ⟨KEY_F9, KEY_F8, KEY_NONE⟩, ⟨KEY_F10, KEY_F9, KEY_NONE⟩, ⟨KEY_NUMLOCK, KEY_NUMLOCK, KEY_NONE⟩,
    ⟨KEY_SCROLLLOCK, KEY_SCROLLLOCK, KEY_CTRL_BREAK⟩, ⟨ascii '7', ascii '7', KEY_HOME⟩,
    ⟨ascii '8', ascii '8', KEY_UP⟩, ⟨ascii '9', ascii '9', KEY_PGUP⟩,
    ⟨ascii '-', ascii '-', KEY_NONE⟩, ⟨ascii '4', ascii '4', KEY_LEFT⟩,
    ⟨ascii '5', ascii '5', KEY_NONE⟩, ⟨ascii '6', ascii '6', KEY_RIGHT⟩,
    ⟨ascii '+', ascii '+', KEY_NONE⟩, ⟨ascii '1', ascii '1', KEY_END⟩,
    -- 50
    ⟨ascii '2', ascii '2', KEY_DOWN⟩, ⟨ascii '3', ascii '3', KEY_PGDOWN⟩,
    ⟨ascii '0', ascii '0', KEY_INSERT⟩, ⟨ascii '.', ascii '.', KEY_DELETE⟩]

structure KeyEvent where
  scancode : Byte
  rawKey : Keycode
  key : Keycode
  pressed : Bool

structure KeyboardPrivate where
  escape : Bool
  keyDown : Keycode → Bool

inductive OutOfBounds
  | kbmap (scancode : Byte)
  | keyDown (key : Keycode)
  deriving DecidableEq

def isKeyPressed (kb : KeyboardPrivate) (k : Keycode) : Bool :=
  if k < KEY_MAX then kb.keyDown k else false

def lookup (kb : KeyboardPrivate) (event : KeyEvent) (scancode : Byte) :
    Except OutOfBounds (KeyboardPrivate × KeyEvent) :=
  if event.scancode = 0xE0 then .ok ({ kb with escape := true }, event)
  else if scancode ≥ KEY_MAX then .ok (kb, event)
  else
    match kbmap[scancode.toNat]? with
    | none => .error (.kbmap scancode)
    | some row =>
      if kb.escape then
        .ok ({ kb with escape := false }, { event with rawKey := row.escaped, key := row.escaped })
      else
        .ok (kb, { event with
          rawKey := row.normal
          key := if isKeyPressed kb KEY_LSHIFT || isKeyPressed kb KEY_RSHIFT then row.shifted
            else row.normal })

def keyboardTranslate (kb : KeyboardPrivate) (event : KeyEvent) :
    Except OutOfBounds (KeyboardPrivate × KeyEvent) := do
  let (kb, event) ← lookup kb
    { event with pressed := event.scancode &&& 0x80 = 0 } (event.scancode &&& 0x7F)
  if event.rawKey < KEY_MAX then
    return ({ kb with keyDown := Function.update kb.keyDown event.rawKey event.pressed }, event)
  else .error (.keyDown event.rawKey)

def keyboardHandler (kb : KeyboardPrivate) (byte : Byte) : Except OutOfBounds KeyboardPrivate := do
  let (kb, _) ← keyboardTranslate kb ⟨byte, 0, 0, false⟩
  return kb

def gKeyboard : KeyboardPrivate := ⟨false, fun _ => false⟩

def deliver (bytes : List Byte) : Except OutOfBounds KeyboardPrivate :=
  bytes.foldlM keyboardHandler gKeyboard

/-- The events that are complete, the latest first: the key of the scancode with its prefix, if
there is one, and whether it was pressed. -/
structure Heard where
  escape : Bool
  events : List (Option Keycode × Bool)

def mapped (escape : Bool) (byte : Byte) : Option Keycode :=
  (kbmap[(byte &&& 0x7F).toNat]?).map fun row => if escape then row.escaped else row.normal

def Heard.next (h : Heard) (byte : Byte) : Heard :=
  if byte = 0xE0 then { h with escape := true }
  else ⟨false, (mapped h.escape byte, byte &&& 0x80 = 0) :: h.events⟩

def Heard.last (h : Heard) (k : Keycode) : Option Bool :=
  (h.events.find? fun e => e.1 = some k).map Prod.snd

def heard (bytes : List Byte) : Heard := bytes.foldl Heard.next ⟨false, []⟩

/-- Nothing is indexed out of its bounds, a key is down if its last event was a press, and a prefix
moves no key. -/
structure Tracks (bytes : List Byte) : Prop where
  inside : ∃ kb, deliver bytes = .ok kb
  keys : ∀ kb, deliver bytes = .ok kb → ∀ k ≠ KEY_NONE,
    (kb.keyDown k = true ↔ (heard bytes).last k = some true)
  unmoved : ∀ kb, deliver bytes = .ok kb → ∃ kb', keyboardHandler kb 0xE0 = .ok kb' ∧
    ∀ k ≠ KEY_NONE, kb'.keyDown k = kb.keyDown k

def Known (byte : Byte) : Prop :=
  byte = 0xE0 ∨ (byte &&& 0x7F).toNat < kbmap.length

theorem kbmap_codes : ∀ row ∈ kbmap, row.normal < KEY_MAX ∧ row.escaped < KEY_MAX := by
  decide

theorem scancode_lt (byte : Byte) : byte &&& 0x7F < KEY_MAX := by
  rw [BitVec.lt_def, BitVec.toNat_and]
  exact Nat.lt_of_le_of_lt Nat.and_le_right (by decide)

theorem keyboardHandler_escape (kb : KeyboardPrivate) :
    keyboardHandler kb 0xE0 = .ok ⟨true, Function.update kb.keyDown KEY_NONE false⟩ :=
  rfl

theorem lookup_of_ne {kb : KeyboardPrivate} {event : KeyEvent} (he : event.scancode ≠ 0xE0) :
    lookup kb event (event.scancode &&& 0x7F) =
      match kbmap[(event.scancode &&& 0x7F).toNat]? with
      | none => .error (.kbmap (event.scancode &&& 0x7F))
      | some row =>
        if kb.escape then
          .ok (⟨false, kb.keyDown⟩, { event with rawKey := row.escaped, key := row.escaped })
        else
          .ok (kb, { event with
            rawKey := row.normal
            key := if isKeyPressed kb KEY_LSHIFT || isKeyPressed kb KEY_RSHIFT then row.shifted
              else row.normal }) := by
  rw [lookup, if_neg he, if_neg (BitVec.not_le.mpr (scancode_lt event.scancode))]

theorem keyboardHandler_missing {byte : Byte} (kb : KeyboardPrivate) (he : byte ≠ 0xE0)
    (h : kbmap[(byte &&& 0x7F).toNat]? = none) :
    keyboardHandler kb byte = .error (.kbmap (byte &&& 0x7F)) := by
  rw [keyboardHandler, keyboardTranslate, lookup_of_ne he]
  simp only [h]
  rfl

theorem keyboardHandler_row {byte : Byte} {row : Row} (kb : KeyboardPrivate) (he : byte ≠ 0xE0)
    (h : kbmap[(byte &&& 0x7F).toNat]? = some row) :
    keyboardHandler kb byte = .ok ⟨false, Function.update kb.keyDown
      (if kb.escape then row.escaped else row.normal) (byte &&& 0x80 = 0)⟩ := by
  obtain ⟨hnormal, hescaped⟩ := kbmap_codes row (List.mem_of_getElem? h)
  rw [keyboardHandler, keyboardTranslate, lookup_of_ne he]
  simp only [h]
  cases hkb : kb.escape with
  | false =>
    rw [← hkb]
    simp [hkb, hnormal, bind, Except.bind, pure, Except.pure]
  | true => simp [hescaped, bind, Except.bind, pure, Except.pure]

theorem known_of_ok {kb kb' : KeyboardPrivate} {byte : Byte}
    (h : keyboardHandler kb byte = .ok kb') : Known byte := by
  by_contra hn
  obtain ⟨he, hlen⟩ := not_or.mp hn
  rw [keyboardHandler_missing kb he (List.getElem?_eq_none (not_lt.mp hlen))] at h
  cases h

structure Follows (kb : KeyboardPrivate) (h : Heard) : Prop where
  escape : kb.escape = h.escape
  keys : ∀ k ≠ KEY_NONE, (kb.keyDown k = true ↔ h.last k = some true)

theorem keyboardHandler_follows {kb : KeyboardPrivate} {h : Heard} {byte : Byte}
    (hf : Follows kb h) (hb : Known byte) :
    ∃ kb', keyboardHandler kb byte = .ok kb' ∧ Follows kb' (h.next byte) := by
  by_cases he : byte = 0xE0
  · subst he
    refine ⟨_, keyboardHandler_escape kb, rfl, fun k hk => ?_⟩
    change Function.update kb.keyDown KEY_NONE false k = true ↔ _
    rw [Function.update_of_ne hk]
    exact hf.keys k hk
  · have hlen := hb.resolve_left he
    have hrow := List.getElem?_eq_getElem hlen
    have hmapped : mapped h.escape byte =
        some (if kb.escape then kbmap[(byte &&& 0x7F).toNat].escaped
          else kbmap[(byte &&& 0x7F).toNat].normal) := by
      rw [mapped, hrow, hf.escape]
      rfl
    refine ⟨_, keyboardHandler_row kb he hrow, ?_, fun k hk => ?_⟩
    · rw [Heard.next, if_neg he]
    · rw [Heard.next, if_neg he, Heard.last, List.find?_cons, hmapped]
      change Function.update kb.keyDown _ _ k = true ↔ _
      generalize (if kb.escape then kbmap[(byte &&& 0x7F).toNat].escaped
        else kbmap[(byte &&& 0x7F).toNat].normal) = rawKey
      by_cases hkey : k = rawKey
      · simp [hkey]
      · rw [Function.update_of_ne hkey]
        simp [Ne.symm hkey, hf.keys k hk, Heard.last]

theorem foldlM_follows {kb : KeyboardPrivate} {h : Heard} (bytes : List Byte) (hf : Follows kb h)
    (hb : ∀ byte ∈ bytes, Known byte) :
    ∃ kb', bytes.foldlM keyboardHandler kb = .ok kb' ∧ Follows kb' (bytes.foldl Heard.next h) := by
  induction bytes generalizing kb h with
  | nil => exact ⟨kb, rfl, hf⟩
  | cons byte bytes ih =>
    rw [List.forall_mem_cons] at hb
    obtain ⟨kb₁, hkb₁, hf₁⟩ := keyboardHandler_follows hf hb.1
    obtain ⟨kb', hkb', hf'⟩ := ih hf₁ hb.2
    refine ⟨kb', ?_, hf'⟩
    rw [List.foldlM_cons, hkb₁]
    exact hkb'

theorem known_of_foldlM {kb kb' : KeyboardPrivate} {bytes : List Byte}
    (h : bytes.foldlM keyboardHandler kb = .ok kb') : ∀ byte ∈ bytes, Known byte := by
  induction bytes generalizing kb with
  | nil => exact List.forall_mem_nil _
  | cons byte bytes ih =>
    rw [List.foldlM_cons] at h
    cases hbyte : keyboardHandler kb byte with
    | error e =>
      rw [hbyte] at h
      cases h
    | ok kb₁ =>
      rw [hbyte] at h
      exact List.forall_mem_cons.mpr ⟨known_of_ok hbyte, ih h⟩

theorem gKeyboard_follows : Follows gKeyboard ⟨false, []⟩ :=
  ⟨rfl, fun k _ => by simp [gKeyboard, Heard.last]⟩

/-- A row for every code but the prefix is all that the keyboard needs. -/
theorem tracks_iff (bytes : List Byte) :
    Tracks bytes ↔ ∀ byte ∈ bytes, byte = 0xE0 ∨ (byte &&& 0x7F).toNat < kbmap.length := by
  constructor
  · rintro ⟨⟨kb, hkb⟩, -, -⟩
    exact known_of_foldlM hkb
  · intro hb
    obtain ⟨kb, hkb, hf⟩ := foldlM_follows bytes gKeyboard_follows hb
    have heq : ∀ kb', deliver bytes = .ok kb' → kb' = kb := fun kb' h =>
      Except.ok.inj (h.symm.trans hkb)
    refine ⟨⟨kb, hkb⟩, fun kb' h => ?_, fun kb' _ => ?_⟩
    · rw [heq kb' h]
      exact hf.keys
    · exact ⟨_, keyboardHandler_escape kb', fun k hk => Function.update_of_ne hk _ _⟩

/-- The code of F11. -/
theorem tracks_not_f11 : ¬ Tracks [0x57] := by
  rintro ⟨⟨kb, hkb⟩, -, -⟩
  cases hkb

end NaviMisc.Metalkit.Keyboard
