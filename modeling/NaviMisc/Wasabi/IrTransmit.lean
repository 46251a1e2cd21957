import Mathlib.Data.List.Induction
import Mathlib.Tactic.Ring
import NaviMisc.Lib.Waveform

/-!
The infrared transmitter (mi6k.c). A write holds pulses and spaces in turn; they go out two pairs
at a time.
-/

namespace NaviMisc.Wasabi

open NaviMisc.Lib.Waveform

abbrev LircT := BitVec 32

def PULSE_MASK : LircT := 0x00ffffff

inductive Ctrl
  | IR_SEND | IR_FLUSH
  deriving DecidableEq

structure Request where
  request : Ctrl
  wValue : ℕ
  wIndex : ℕ

structure Mi6k where
  ir_tx_pulse : ℕ
  ir_tx_space : ℕ
  requests : List Request

def Mi6k.probed : Mi6k := ⟨0, 0, []⟩

def mi6k_request (dev : Mi6k) (request : Ctrl) (wValue wIndex : ℕ) : Mi6k :=
  { dev with requests := dev.requests ++ [⟨request, wValue, wIndex⟩] }

def mi6k_ir_tx_convert (v : LircT) : ℕ := ((v &&& PULSE_MASK).toNat * 100 + 50) / 1285

def queuePair (dev : Mi6k) (pulse space : ℕ) : Mi6k :=
  if dev.ir_tx_pulse ≠ 0 ∨ dev.ir_tx_space ≠ 0 then
    { mi6k_request dev .IR_SEND (pulse ||| (space &&& 0xff) <<< 8)
        (dev.ir_tx_pulse ||| dev.ir_tx_space <<< 8) with
      ir_tx_pulse := 0
      ir_tx_space := 0 }
  else { dev with ir_tx_pulse := pulse % 256, ir_tx_space := space &&& 0xff }

mutual

def mi6k_ir_tx_send_converted (dev : Mi6k) (pulse space : ℕ) : Mi6k :=
  if 255 < pulse then
    mi6k_ir_tx_send_converted (mi6k_ir_tx_send_converted dev 255 0) (pulse - 255) space
  else splitSpace (queuePair dev pulse space) space
termination_by 2 * (pulse + space) + 1
decreasing_by all_goals omega

def splitSpace (dev : Mi6k) (space : ℕ) : Mi6k :=
  if 255 < space then splitSpace (mi6k_ir_tx_send_converted dev 0 255) (space - 255) else dev
termination_by 2 * space
decreasing_by all_goals omega

end

def mi6k_ir_tx_send (dev : Mi6k) (pulse space : LircT) : Mi6k :=
  mi6k_ir_tx_send_converted dev (mi6k_ir_tx_convert pulse) (mi6k_ir_tx_convert space)

def mi6k_ir_tx_flush (dev : Mi6k) : Mi6k :=
  let dev := if dev.ir_tx_pulse ≠ 0 ∨ dev.ir_tx_space ≠ 0 then
      { mi6k_request dev .IR_SEND 0 (dev.ir_tx_pulse ||| dev.ir_tx_space <<< 8) with
        ir_tx_pulse := 0
        ir_tx_space := 0 }
    else dev
  mi6k_request dev .IR_FLUSH 0 0

structure Writing where
  dev : Mi6k
  pulse : LircT
  pulse_flag : Bool

def writeValue (s : Writing) (value : LircT) : Writing :=
  if s.pulse_flag then { s with pulse := value, pulse_flag := false }
  else { s with dev := mi6k_ir_tx_send s.dev s.pulse value, pulse_flag := true }

def mi6k_lirc_write (dev : Mi6k) (values : List LircT) : Mi6k :=
  let s := values.foldl writeValue ⟨dev, 0, true⟩
  mi6k_ir_tx_flush (if s.pulse_flag then s.dev else mi6k_ir_tx_send s.dev s.pulse 0)

def pairOf (word : ℕ) : Pair := (word % 256, word / 256)

def sentBy (r : Request) : List Pair :=
  match r.request with
  | .IR_SEND => [pairOf r.wIndex, pairOf r.wValue]
  | .IR_FLUSH => []

def sent (requests : List Request) : List Pair := requests.flatMap sentBy

def pairs : List LircT → List Pair
  | [] => []
  | [pulse] => [(mi6k_ir_tx_convert pulse, 0)]
  | pulse :: space :: values =>
    (mi6k_ir_tx_convert pulse, mi6k_ir_tx_convert space) :: pairs values

theorem pairOf_word {pulse space : ℕ} (h : pulse < 256) :
    pairOf (pulse ||| space <<< 8) = (pulse, space) := by
  have hword : pulse ||| space <<< 8 = pulse + 256 * space := by
    rw [Nat.or_comm, ← Nat.shiftLeft_add_eq_or_of_lt h, Nat.shiftLeft_eq]
    omega
  rw [pairOf, hword, Nat.add_mul_mod_self_left, Nat.mod_eq_of_lt h,
    Nat.add_mul_div_left _ _ (by decide), Nat.div_eq_of_lt h, Nat.zero_add]

end NaviMisc.Wasabi

/-!
The waveform of a write is the one that its values convert to, up to the lengths of long spaces.
-/

namespace NaviMisc.Wasabi

open NaviMisc.Lib.Waveform

variable {dev : Mi6k} {pulse space : ℕ}

def content (dev : Mi6k) : List Pair := sent dev.requests ++ [(dev.ir_tx_pulse, dev.ir_tx_space)]

structure Bytes (dev : Mi6k) : Prop where
  pulse : dev.ir_tx_pulse < 256
  space : dev.ir_tx_space < 256
  requests : ∀ r ∈ dev.requests, r.wValue < 2 ^ 16 ∧ r.wIndex < 2 ^ 16

def sentSpace (space : ℕ) : ℕ := space % 256 + 255 * ((space - 1) / 255)

theorem word_lt {a b : ℕ} (ha : a < 256) (hb : b < 256) : a ||| b <<< 8 < 2 ^ 16 := by
  apply Nat.or_lt_two_pow
  · omega
  · rw [Nat.shiftLeft_eq]
    omega

theorem and_byte (n : ℕ) : n &&& 0xff = n % 256 := Nat.and_two_pow_sub_one_eq_mod n 8

theorem sent_append (l m : List Request) : sent (l ++ m) = sent l ++ sent m := List.flatMap_append

theorem wave_content_of_empty (hpulse : dev.ir_tx_pulse = 0) (hspace : dev.ir_tx_space = 0) :
    wave (content dev) = wave (sent dev.requests) := by
  rw [content, hpulse, hspace, wave_append_zero]

theorem queuePair_spec (h : Bytes dev) (hp : pulse < 256) :
    Bytes (queuePair dev pulse space) ∧ wave (content (queuePair dev pulse space)) =
      extend (wave (content dev)) (pulse, space % 256) := by
  have hs : space % 256 < 256 := Nat.mod_lt _ (by decide)
  unfold queuePair
  rw [and_byte]
  split_ifs with hbuffer
  · constructor
    · refine ⟨Nat.zero_lt_succ _, Nat.zero_lt_succ _, ?_⟩
      intro r hr
      rcases List.mem_append.mp hr with hr | hr
      · exact h.requests r hr
      · rw [List.mem_singleton] at hr
        subst hr
        exact ⟨word_lt hp hs, word_lt h.pulse h.space⟩
    · rw [wave_content_of_empty rfl rfl, mi6k_request, sent_append]
      have hsent : sent [⟨.IR_SEND, pulse ||| (space % 256) <<< 8,
          dev.ir_tx_pulse ||| dev.ir_tx_space <<< 8⟩] =
          [(dev.ir_tx_pulse, dev.ir_tx_space)] ++ [(pulse, space % 256)] := by
        simp [sent, sentBy, pairOf_word h.pulse, pairOf_word hp]
      rw [hsent, ← List.append_assoc, wave_append]
      rfl
  · simp only [ne_eq, not_or, not_not] at hbuffer
    refine ⟨⟨Nat.mod_lt _ (by decide), hs, h.requests⟩, ?_⟩
    rw [wave_content_of_empty hbuffer.1 hbuffer.2, content, wave_append, Nat.mod_eq_of_lt hp]
    rfl

theorem send_byte (hp : pulse ≤ 255) (hs : space ≤ 255) (dev : Mi6k) :
    mi6k_ir_tx_send_converted dev pulse space = queuePair dev pulse space := by
  rw [mi6k_ir_tx_send_converted, if_neg (by omega), splitSpace, if_neg (by omega)]

theorem splitSpace_spec (h : Bytes dev) (a b : ℕ) {w : List Pair}
    (hw : wave (content dev) = extend w (a, b)) :
    Bytes (splitSpace dev space) ∧ wave (content (splitSpace dev space)) =
      extend w (a, b + 255 * ((space - 1) / 255)) := by
  induction space using Nat.strong_induction_on generalizing dev b with
  | _ space ih =>
    rw [splitSpace]
    split_ifs with hlong
    · rw [send_byte (by decide) (by decide)]
      obtain ⟨hbytes, hqueue⟩ := @queuePair_spec dev 0 255 h (by decide)
      have hnext : wave (content (queuePair dev 0 255)) = extend w (a, b + 255) := by
        rw [hqueue, hw, extend_space]
      obtain ⟨hsplit, hwave⟩ := ih (space - 255) (by omega) hbytes (b + 255) hnext
      refine ⟨hsplit, hwave.trans ?_⟩
      have hcount : (space - 1) / 255 = (space - 255 - 1) / 255 + 1 := by omega
      rw [hcount]
      congr 2
      omega
    · refine ⟨h, hw.trans ?_⟩
      rw [Nat.div_eq_of_lt (by omega), Nat.mul_zero, Nat.add_zero]

theorem send_converted_spec (h : Bytes dev) :
    Bytes (mi6k_ir_tx_send_converted dev pulse space) ∧
      wave (content (mi6k_ir_tx_send_converted dev pulse space)) =
        extend (wave (content dev)) (pulse, sentSpace space) := by
  induction pulse using Nat.strong_induction_on generalizing dev with
  | _ pulse ih =>
    rw [mi6k_ir_tx_send_converted]
    split_ifs with hlong
    · rw [show mi6k_ir_tx_send_converted dev 255 0 = queuePair dev 255 0 from
        send_byte (by decide) (by decide) dev]
      obtain ⟨hbytes, hqueue⟩ := @queuePair_spec dev 255 0 h (by decide)
      obtain ⟨hrest, hwave⟩ := ih (pulse - 255) (by omega) hbytes
      refine ⟨hrest, ?_⟩
      rw [hwave, hqueue, extend_pulse, Nat.add_sub_cancel' (by omega)]
    · obtain ⟨hbytes, hqueue⟩ := @queuePair_spec dev pulse space h (by omega)
      exact splitSpace_spec hbytes pulse (space % 256) hqueue

def sentPair (p : Pair) : Pair := (p.1, sentSpace p.2)

theorem send_spec (h : Bytes dev) (p s : LircT) :
    Bytes (mi6k_ir_tx_send dev p s) ∧ wave (content (mi6k_ir_tx_send dev p s)) =
      extend (wave (content dev)) (sentPair (mi6k_ir_tx_convert p, mi6k_ir_tx_convert s)) :=
  send_converted_spec h

theorem flush_spec (h : Bytes dev) : Bytes (mi6k_ir_tx_flush dev) ∧
    wave (sent (mi6k_ir_tx_flush dev).requests) = wave (content dev) ∧
      (mi6k_ir_tx_flush dev).ir_tx_pulse = 0 ∧ (mi6k_ir_tx_flush dev).ir_tx_space = 0 := by
  have hflush : ∀ l, sent (l ++ [⟨.IR_FLUSH, 0, 0⟩]) = sent l := fun l => by
    rw [sent_append]
    exact List.append_nil _
  unfold mi6k_ir_tx_flush
  split_ifs with hbuffer
  · have hsent : sent [⟨.IR_SEND, 0, dev.ir_tx_pulse ||| dev.ir_tx_space <<< 8⟩] =
        [(dev.ir_tx_pulse, dev.ir_tx_space)] ++ [(0, 0)] := by
      have hempty : pairOf 0 = (0, 0) := rfl
      simp [sent, sentBy, pairOf_word h.pulse, hempty]
    refine ⟨⟨Nat.zero_lt_succ _, Nat.zero_lt_succ _, ?_⟩, ?_, rfl, rfl⟩
    · intro r hr
      simp only [mi6k_request, List.append_assoc, List.mem_append, List.mem_singleton] at hr
      rcases hr with hr | rfl | rfl
      · exact h.requests r hr
      · exact ⟨Nat.two_pow_pos 16, word_lt h.pulse h.space⟩
      · exact ⟨Nat.two_pow_pos 16, Nat.two_pow_pos 16⟩
    · simp only [mi6k_request]
      rw [hflush, sent_append, hsent, ← List.append_assoc, wave_append_zero]
      rfl
  · simp only [ne_eq, not_or, not_not] at hbuffer
    refine ⟨⟨h.pulse, h.space, ?_⟩, ?_, hbuffer.1, hbuffer.2⟩
    · intro r hr
      simp only [mi6k_request, List.mem_append, List.mem_singleton] at hr
      rcases hr with hr | rfl
      · exact h.requests r hr
      · exact ⟨Nat.two_pow_pos 16, Nat.two_pow_pos 16⟩
    · simp only [mi6k_request]
      rw [hflush, wave_content_of_empty hbuffer.1 hbuffer.2]

def Writing.finish (s : Writing) : Mi6k :=
  if s.pulse_flag then s.dev else mi6k_ir_tx_send s.dev s.pulse 0

theorem values_spec (h : Bytes dev) (p : LircT) (values : List LircT) :
    Bytes (values.foldl writeValue ⟨dev, p, true⟩).finish ∧
      wave (content (values.foldl writeValue ⟨dev, p, true⟩).finish) =
        ((pairs values).map sentPair).foldl extend (wave (content dev)) := by
  induction values using pairs.induct generalizing dev p with
  | case1 => exact ⟨h, rfl⟩
  | case2 pulse => exact send_spec h pulse 0
  | case3 pulse space values ih =>
    obtain ⟨hbytes, hwave⟩ := send_spec h pulse space
    obtain ⟨hrest, hvalues⟩ := ih hbytes pulse
    refine ⟨hrest, hvalues.trans ?_⟩
    rw [hwave]
    rfl

theorem write_spec (h : Bytes dev) (values : List LircT) :
    Bytes (mi6k_lirc_write dev values) ∧
      wave (sent (mi6k_lirc_write dev values).requests) =
        ((pairs values).map sentPair).foldl extend (wave (content dev)) ∧
      (mi6k_lirc_write dev values).ir_tx_pulse = 0 ∧
        (mi6k_lirc_write dev values).ir_tx_space = 0 := by
  obtain ⟨hbytes, hwave⟩ := values_spec h 0 values
  obtain ⟨hflushed, hsent, hempty⟩ := flush_spec hbytes
  exact ⟨hflushed, hsent.trans hwave, hempty⟩

/-- How much too long a space is: multiples of 255 go out for the multiples of 256 that the low
byte leaves. -/
def spaceError (space : ℕ) : ℤ := 255 * ((space - 1) / 255 : ℕ) - 256 * (space / 256 : ℕ)

/-- The errors of the spaces between two pulses add up to nothing. -/
def Balanced (e : ℤ) : List Pair → Prop
  | [] => e = 0
  | p :: l => (0 < p.1 → e = 0) ∧ Balanced (e + spaceError p.2) l

theorem sentSpace_eq (space : ℕ) : (sentSpace space : ℤ) = space + spaceError space := by
  unfold sentSpace spaceError
  omega

theorem sentSpace_eq_zero_iff : sentSpace space = 0 ↔ space = 0 := by
  unfold sentSpace
  omega

theorem foldl_extend_iff {a b b' : ℕ} (w w' : List Pair) (hb : b' = 0 ↔ b = 0) (l : List Pair) :
    (l.map sentPair).foldl extend ((a, b') :: w') = l.foldl extend ((a, b) :: w) ↔
      w' = w ∧ Balanced ((b' : ℤ) - b) l := by
  induction l generalizing a b b' w w' with
  | nil =>
    simp only [List.map_nil, List.foldl_nil, Balanced, List.cons.injEq, Prod.mk.injEq]
    constructor
    · rintro ⟨⟨-, rfl⟩, rfl⟩
      exact ⟨rfl, by omega⟩
    · rintro ⟨rfl, hzero⟩
      exact ⟨⟨trivial, by omega⟩, rfl⟩
  | cons p l ih =>
    obtain ⟨pulse, space⟩ := p
    have hspace := sentSpace_eq space
    rw [List.map_cons, List.foldl_cons, List.foldl_cons]
    by_cases hmerge : b = 0 ∨ pulse = 0
    · have hmerge' : b' = 0 ∨ pulse = 0 := hmerge.imp_left hb.mpr
      have hzero : b' + sentSpace space = 0 ↔ b + space = 0 := by
        rw [Nat.add_eq_zero_iff, Nat.add_eq_zero_iff, hb, sentSpace_eq_zero_iff]
      have herror : ((b' + sentSpace space : ℕ) : ℤ) - (b + space : ℕ) =
          (b' : ℤ) - b + spaceError space := by
        push_cast
        omega
      have hextend : extend ((a, b) :: w) (pulse, space) = (a + pulse, b + space) :: w :=
        if_pos hmerge
      have hextend' : extend ((a, b') :: w') (sentPair (pulse, space)) =
          (a + pulse, b' + sentSpace space) :: w' := if_pos hmerge'
      rw [hextend, hextend', ih w w' hzero, herror, Balanced]
      constructor
      · rintro ⟨rfl, hrest⟩
        refine ⟨rfl, ?_, hrest⟩
        intro hpulse
        rcases hmerge with hempty | hempty
        · rw [hempty, hb.mpr hempty, sub_self]
        · exact absurd hempty hpulse.ne'
      · rintro ⟨rfl, -, hrest⟩
        exact ⟨rfl, hrest⟩
    · have hmerge' : ¬(b' = 0 ∨ pulse = 0) := fun h => hmerge (h.imp_left hb.mp)
      have hextend : extend ((a, b) :: w) (pulse, space) = (pulse, space) :: (a, b) :: w :=
        if_neg hmerge
      have hextend' : extend ((a, b') :: w') (sentPair (pulse, space)) =
          (pulse, sentSpace space) :: (a, b') :: w' := if_neg hmerge'
      rw [hextend, hextend', ih _ _ sentSpace_eq_zero_iff, Balanced]
      have herror : ((sentSpace space : ℕ) : ℤ) - space = spaceError space := by omega
      rw [herror]
      constructor
      · rintro ⟨hhead, hrest⟩
        obtain ⟨⟨-, rfl⟩, rfl⟩ := by simpa using hhead
        rw [sub_self, zero_add]
        exact ⟨rfl, fun _ => rfl, hrest⟩
      · rintro ⟨rfl, hpulse, hrest⟩
        have hequal : (b' : ℤ) - b = 0 := hpulse (by dsimp only; omega)
        rw [hequal, zero_add] at hrest
        obtain rfl : b' = b := by omega
        exact ⟨rfl, hrest⟩

theorem wave_sentPair_iff (l : List Pair) : wave (l.map sentPair) = wave l ↔ Balanced 0 l := by
  have h := @foldl_extend_iff 0 0 0 [] [] Iff.rfl l
  simpa [wave] using h

def written (previous : List (List LircT)) : Mi6k :=
  { previous.foldl mi6k_lirc_write Mi6k.probed with requests := [] }

theorem written_spec (previous : List (List LircT)) : Bytes (written previous) ∧
    wave (content (written previous)) = [(0, 0)] := by
  have h : Bytes (previous.foldl mi6k_lirc_write Mi6k.probed) ∧
      (previous.foldl mi6k_lirc_write Mi6k.probed).ir_tx_pulse = 0 ∧
      (previous.foldl mi6k_lirc_write Mi6k.probed).ir_tx_space = 0 := by
    induction previous using List.reverseRecOn with
    | nil => exact ⟨⟨by decide, by decide, nofun⟩, rfl, rfl⟩
    | append_singleton previous values ih =>
      rw [List.foldl_append]
      obtain ⟨hbytes, -, hempty⟩ := write_spec ih.1 values
      exact ⟨hbytes, hempty⟩
  refine ⟨⟨h.1.pulse, h.1.space, nofun⟩, ?_⟩
  exact wave_content_of_empty h.2.1 h.2.2

theorem ir_transmission (previous : List (List LircT)) (values : List LircT) :
    (merge (sent (mi6k_lirc_write (written previous) values).requests) = merge (pairs values) ∧
      (mi6k_lirc_write (written previous) values).ir_tx_pulse = 0 ∧
      (mi6k_lirc_write (written previous) values).ir_tx_space = 0 ∧
      ∀ r ∈ (mi6k_lirc_write (written previous) values).requests,
        r.wValue < 2 ^ 16 ∧ r.wIndex < 2 ^ 16) ↔ Balanced 0 (pairs values) := by
  obtain ⟨hbytes, hempty⟩ := written_spec previous
  obtain ⟨hwritten, hwave, hpulse, hspace⟩ := write_spec hbytes values
  rw [hempty] at hwave
  rw [merge_inj, hwave, ← wave_sentPair_iff]
  exact ⟨fun h => h.1, fun h => ⟨h, hpulse, hspace, hwritten.requests⟩⟩

/-- A space of 256 units, which is 3290 microseconds, is one unit too short. -/
theorem ir_space_short :
    ¬(merge (sent (mi6k_lirc_write (written []) [1285, 3290]).requests) =
        merge (pairs [1285, 3290]) ∧
      (mi6k_lirc_write (written []) [1285, 3290]).ir_tx_pulse = 0 ∧
      (mi6k_lirc_write (written []) [1285, 3290]).ir_tx_space = 0 ∧
      ∀ r ∈ (mi6k_lirc_write (written []) [1285, 3290]).requests,
        r.wValue < 2 ^ 16 ∧ r.wIndex < 2 ^ 16) := by
  obtain ⟨hbytes, hempty⟩ := written_spec []
  obtain ⟨-, hwave, -⟩ := write_spec hbytes [1285, 3290]
  have hpairs : pairs [1285, 3290] = [(100, 256)] := by decide
  rintro ⟨hmerge, -⟩
  rw [merge_inj, hwave, hempty, hpairs] at hmerge
  exact absurd hmerge (by decide)

end NaviMisc.Wasabi
