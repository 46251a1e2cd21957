import Mathlib.Data.BitVec
import Mathlib.Data.List.Range
import Mathlib.Tactic.Ring

/-!
Writing to the device of the video switch (wasabi/devices/uvswitch/kernel/uvswitch.c).
-/

namespace NaviMisc.Wasabi.Uvswitch

abbrev Byte := BitVec 8

structure Status where
  video_channel : Byte
  white_audio_channel : Byte
  red_audio_channel : Byte
  bypass_switch : Byte
  deriving DecidableEq

inductive Mode
  | MODE_MANUAL
  | MODE_AUTOMATIC
  deriving DecidableEq

def UVSWITCH_CHANNELS : ℕ := 8

/-- `udev` tells whether the device is still there. -/
structure Device where
  udev : Bool
  status : Status
  status_mode : Mode
  active_inputs : ℕ → ℤ

/-- A call, and what the kernel makes of it: `usb_submit_urb` returns `-errno`. -/
structure Call where
  buffer : List Byte
  private_data : Bool
  copied : Bool
  errno : ℕ

def ENODEV : ℤ := 19

def EFAULT : ℤ := 14

def EINVAL : ℤ := 22

abbrev Request := BitVec 16 × BitVec 16

/-- `wValue` and `wIndex` of the request that sets the status. -/
def request (status : Status) : Request :=
  (status.video_channel.setWidth 16 ||| status.bypass_switch.setWidth 16 <<< 8,
    status.red_audio_channel.setWidth 16 ||| status.white_audio_channel.setWidth 16 <<< 8)

/-- What `usb_submit_urb` returns, and what the device gets. -/
def uvswitch_updateStatus (errno : ℕ) (dev : Device) : ℤ × Option Request :=
  (-errno, if errno = 0 then some (request dev.status) else none)

def uvswitch_getFirstActiveChannel (dev : Device) : ℕ :=
  (((List.range UVSWITCH_CHANNELS).find? fun i => dev.active_inputs i ≠ 0).map (· + 1)).getD 0

def uvswitch_updateAutoStatus (errno : ℕ) (dev : Device) : Device × Option Request :=
  match dev.status_mode with
  | .MODE_AUTOMATIC =>
    let channel := uvswitch_getFirstActiveChannel dev
    let byte := BitVec.ofNat 8 channel
    let dev := { dev with status := ⟨byte, byte, byte, if channel = 0 then 1 else 0⟩ }
    (dev, (uvswitch_updateStatus errno dev).2)
  | .MODE_MANUAL => (dev, none)

def delim (c : Byte) : Bool := c = 0x20 ∨ c = 0x09 ∨ c = 0x0A

def strsep : Option (List Byte) → Option (List Byte) × Option (List Byte)
  | none => (none, none)
  | some s =>
    (some (s.takeWhile (!delim ·)),
      match s.dropWhile (!delim ·) with
      | [] => none
      | _ :: rest => some rest)

def digit (c : Byte) : Bool := 0x30 ≤ c ∧ c ≤ 0x39

def simple_strtoul (s : List Byte) : ℕ :=
  (s.takeWhile digit).foldl (fun result c => result * 10 + (c.toNat - 0x30)) 0

def simple_strtol (s : List Byte) : ℤ :=
  match s with
  | 0x2D :: s => (-(simple_strtoul s : ℤ)).bmod (2 ^ 32)
  | s => (simple_strtoul s : ℤ).bmod (2 ^ 32)

structure Setting where
  limit : ℤ
  set : Byte → Status → Status

def setChannels : Setting :=
  ⟨8, fun v status =>
    { status with video_channel := v, white_audio_channel := v, red_audio_channel := v }⟩

def setBypass : Setting := ⟨1, fun v status => { status with bypass_switch := v }⟩

def setAudio : Setting :=
  ⟨8, fun v status => { status with white_audio_channel := v, red_audio_channel := v }⟩

def setRed : Setting := ⟨8, fun v status => { status with red_audio_channel := v }⟩

def number : Option (List Byte) → Option ℤ
  | none => none
  | some [] => none
  | some token => some (simple_strtol token)

def Setting.store (setting : Setting) (token : Option (List Byte)) (status : Status) :
    Option Status :=
  match number token with
  | none => some status
  | some v =>
    if v < 0 ∨ setting.limit < v then none else some (setting.set (BitVec.ofInt 8 v) status)

def storeTokens : List Setting → Option (List Byte) → Status → Status × Bool
  | [], _, status => (status, true)
  | setting :: settings, pkbuf, status =>
    let (token, pkbuf) := strsep pkbuf
    match setting.store token status with
    | none => (status, false)
    | some status => storeTokens settings pkbuf status

/-- The characters of `auto`. -/
def auto : List Byte := [0x61, 0x75, 0x74, 0x6F]

/-- The string in the buffer of the kernel. -/
def kbuffer (buffer : List Byte) : List Byte := (buffer.take 255).takeWhile (· ≠ 0)

def uvswitch_write (call : Call) (dev : Device) : ℤ × Device × Option Request :=
  if call.private_data = false then (-ENODEV, dev, none)
  else if dev.udev = false then (-ENODEV, dev, none)
  else if call.copied = false then (-EFAULT, dev, none)
  else
    let count := min call.buffer.length 255
    let pkbuf := some (kbuffer call.buffer)
    let dev := { dev with status_mode := .MODE_MANUAL }
    if (strsep pkbuf).1 = some auto then
      let dev := { dev with status_mode := .MODE_AUTOMATIC }
      let (dev, sent) := uvswitch_updateAutoStatus call.errno dev
      (count, dev, sent)
    else
      let (status, valid) := storeTokens [setChannels, setBypass, setAudio, setRed] pkbuf dev.status
      let dev := { dev with status }
      if valid then
        let (retval, sent) := uvswitch_updateStatus call.errno dev
        (if retval = 0 then count else retval, dev, sent)
      else (-EINVAL, dev, none)

def words (string : List Byte) : List (List Byte) := string.splitOnP delim

structure Values where
  channels : Option ℤ
  bypass : Option ℤ
  audio : Option ℤ
  red : Option ℤ

def values (string : List Byte) : Values :=
  ⟨number (words string)[0]?, number (words string)[1]?, number (words string)[2]?,
    number (words string)[3]?⟩

def Fits (limit : ℤ) (v : Option ℤ) : Prop := ∀ x ∈ v, 0 ≤ x ∧ x ≤ limit

instance (limit : ℤ) (v : Option ℤ) : Decidable (Fits limit v) :=
  inferInstanceAs (Decidable (∀ x ∈ v, _))

namespace Values

variable (v : Values)

def Valid : Prop := Fits 8 v.channels ∧ Fits 1 v.bypass ∧ Fits 8 v.audio ∧ Fits 8 v.red

def apply (status : Status) : Status :=
  let byte (x : Option ℤ) (stored : Byte) := (x.map (BitVec.ofInt 8)).getD stored
  ⟨byte v.channels status.video_channel, byte (v.audio.or v.channels) status.white_audio_channel,
    byte (v.red.or (v.audio.or v.channels)) status.red_audio_channel,
    byte v.bypass status.bypass_switch⟩

instance : Decidable v.Valid := inferInstanceAs (Decidable (_ ∧ _))

def before : Values :=
  if ¬Fits 8 v.channels then ⟨none, none, none, none⟩
  else if ¬Fits 1 v.bypass then ⟨v.channels, none, none, none⟩
  else if ¬Fits 8 v.audio then ⟨v.channels, v.bypass, none, none⟩
  else if ¬Fits 8 v.red then ⟨v.channels, v.bypass, v.audio, none⟩
  else v

end Values

def Specified (string : List Byte) (dev after : Device) : Prop :=
  if (words string)[0]? = some auto then
    let channel := BitVec.ofNat 8 (uvswitch_getFirstActiveChannel dev)
    after.status_mode = .MODE_AUTOMATIC ∧ after.status =
      ⟨channel, channel, channel, if uvswitch_getFirstActiveChannel dev = 0 then 1 else 0⟩
  else (values string).Valid ∧ after.status_mode = .MODE_MANUAL ∧
    after.status = (values string).apply dev.status

def Succeeds (call : Call) (dev : Device) : Prop :=
  0 ≤ (uvswitch_write call dev).1 ∧
    (uvswitch_write call dev).2.2 = some (request (uvswitch_write call dev).2.1.status) ∧
    Specified (kbuffer call.buffer) dev (uvswitch_write call dev).2.1

/-- There is an error, and nothing has changed. -/
def Refuses (call : Call) (dev : Device) : Prop :=
  (uvswitch_write call dev).1 < 0 ∧ (uvswitch_write call dev).2.1.status = dev.status ∧
    (uvswitch_write call dev).2.1.status_mode = dev.status_mode

section Tokens

def wordsLeft : Option (List Byte) → List (List Byte)
  | none => []
  | some string => words string

theorem words_eq (string : List Byte) : words string = string.takeWhile (!delim ·) ::
    match string.dropWhile (!delim ·) with
    | [] => []
    | _ :: rest => words rest := by
  induction string with
  | nil => rfl
  | cons c string ih =>
    rw [words, List.splitOnP_cons_eq_if_modifyHead, List.takeWhile_cons, List.dropWhile_cons]
    cases delim c with
    | true => rfl
    | false =>
      rw [words] at ih
      rw [ih]
      rfl

theorem strsep_words (pkbuf : Option (List Byte)) : (strsep pkbuf).1 = (wordsLeft pkbuf)[0]? ∧
    wordsLeft (strsep pkbuf).2 = (wordsLeft pkbuf).tail := by
  cases pkbuf with
  | none => exact ⟨rfl, rfl⟩
  | some string =>
    rw [strsep, wordsLeft, words_eq]
    cases string.dropWhile (!delim ·) with
    | nil => exact ⟨rfl, rfl⟩
    | cons c rest => exact ⟨rfl, rfl⟩

def storeWords : List Setting → List (List Byte) → Status → Status × Bool
  | [], _, status => (status, true)
  | setting :: settings, words, status =>
    match setting.store words[0]? status with
    | none => (status, false)
    | some status => storeWords settings words.tail status

theorem storeTokens_eq (settings : List Setting) (pkbuf : Option (List Byte)) (status : Status) :
    storeTokens settings pkbuf status = storeWords settings (wordsLeft pkbuf) status := by
  induction settings generalizing pkbuf status with
  | nil => rfl
  | cons setting settings ih =>
    obtain ⟨htoken, hrest⟩ := strsep_words pkbuf
    rw [storeTokens, storeWords, ← htoken, ← hrest]
    dsimp only
    cases setting.store (strsep pkbuf).1 status with
    | none => rfl
    | some status => exact ih _ status

theorem store_eq (setting : Setting) (token : Option (List Byte)) (status : Status) :
    setting.store token status = if Fits setting.limit (number token) then
      some ((number token).elim status fun v => setting.set (BitVec.ofInt 8 v) status)
    else none := by
  rw [Setting.store]
  cases number token with
  | none => rfl
  | some v =>
    have hfits : Fits setting.limit (some v) ↔ ¬(v < 0 ∨ setting.limit < v) := by
      simp [Fits, not_or]
    dsimp only
    by_cases h : v < 0 ∨ setting.limit < v
    · rw [if_pos h, if_neg (fun hf => hfits.mp hf h)]
    · rw [if_neg h, if_pos (hfits.mpr h)]
      rfl

def storeNumbers : List (Setting × Option ℤ) → Status → Status × Bool
  | [], status => (status, true)
  | (setting, v) :: rest, status =>
    if Fits setting.limit v then
      storeNumbers rest (v.elim status fun v => setting.set (BitVec.ofInt 8 v) status)
    else (status, false)

theorem storeWords_cons (setting : Setting) (settings : List Setting) (words : List (List Byte))
    (status : Status) : storeWords (setting :: settings) words status =
      if Fits setting.limit (number words[0]?) then
        storeWords settings words.tail
          ((number words[0]?).elim status fun v => setting.set (BitVec.ofInt 8 v) status)
      else (status, false) := by
  rw [storeWords, store_eq]
  split_ifs <;> rfl

theorem storeTokens_values (string : List Byte) (status : Status) :
    storeTokens [setChannels, setBypass, setAudio, setRed] (some string) status =
      storeNumbers [(setChannels, (values string).channels), (setBypass, (values string).bypass),
        (setAudio, (values string).audio), (setRed, (values string).red)] status := by
  rw [storeTokens_eq, wordsLeft]
  simp only [storeWords_cons, storeNumbers, values, List.getElem?_tail]
  rfl

theorem storeNumbers_spec (v : Values) (status : Status) :
    storeNumbers [(setChannels, v.channels), (setBypass, v.bypass), (setAudio, v.audio),
      (setRed, v.red)] status = (v.before.apply status, decide v.Valid) := by
  obtain ⟨channels, bypass, audio, red⟩ := v
  have hlimits : setChannels.limit = 8 ∧ setBypass.limit = 1 ∧ setAudio.limit = 8 ∧
      setRed.limit = 8 := ⟨rfl, rfl, rfl, rfl⟩
  simp only [storeNumbers, Values.before, hlimits]
  by_cases hchannels : Fits 8 channels
  · by_cases hbypass : Fits 1 bypass
    · by_cases haudio : Fits 8 audio
      · by_cases hred : Fits 8 red
        · rw [decide_eq_true (show Values.Valid _ from ⟨hchannels, hbypass, haudio, hred⟩)]
          simp only [hchannels, hbypass, haudio, hred, if_true, not_true, if_false]
          cases channels <;> cases bypass <;> cases audio <;> cases red <;> rfl
        · rw [decide_eq_false (fun h : Values.Valid _ => hred h.2.2.2)]
          simp only [hchannels, hbypass, haudio, hred, if_true, not_true, if_false]
          cases channels <;> cases bypass <;> cases audio <;> rfl
      · rw [decide_eq_false (fun h : Values.Valid _ => haudio h.2.2.1)]
        simp only [hchannels, hbypass, haudio, if_true, not_true, if_false]
        cases channels <;> cases bypass <;> rfl
    · rw [decide_eq_false (fun h : Values.Valid _ => hbypass h.2.1)]
      simp only [hchannels, hbypass, if_true, not_true, if_false]
      cases channels <;> rfl
  · rw [decide_eq_false (fun h : Values.Valid _ => hchannels h.1)]
    simp only [hchannels, if_false]
    rfl

end Tokens

def Sound (call : Call) (dev : Device) : Prop :=
  call.private_data = false ∨ dev.udev = false ∨ call.copied = false ∨
    if (words (kbuffer call.buffer))[0]? = some auto then call.errno = 0
    else (values (kbuffer call.buffer)).Valid ∧ call.errno = 0 ∨
      dev.status_mode = .MODE_MANUAL ∧
        (values (kbuffer call.buffer)).before.apply dev.status = dev.status

section Write

variable {call : Call} {dev : Device}

theorem values_before {v : Values} (h : v.Valid) : v.before = v := by
  obtain ⟨hchannels, hbypass, haudio, hred⟩ := h
  rw [Values.before, if_neg (not_not.mpr hchannels), if_neg (not_not.mpr hbypass),
    if_neg (not_not.mpr haudio), if_neg (not_not.mpr hred)]

theorem refuses_of_eq {e : ℤ} (he : e < 0) (h : uvswitch_write call dev = (e, dev, none)) :
    Refuses call dev := by
  rw [Refuses, h]
  exact ⟨he, rfl, rfl⟩

def Reached (call : Call) (dev : Device) : Prop :=
  ¬call.private_data = false ∧ ¬dev.udev = false ∧ ¬call.copied = false

theorem write_auto (hreached : Reached call dev)
    (hauto : (words (kbuffer call.buffer))[0]? = some auto) :
    Succeeds call dev ∨ Refuses call dev ↔ call.errno = 0 := by
  have hwrite : uvswitch_write call dev = (((min call.buffer.length 255 : ℕ) : ℤ),
      uvswitch_updateAutoStatus call.errno { dev with status_mode := .MODE_AUTOMATIC }) := by
    rw [uvswitch_write, if_neg hreached.1, if_neg hreached.2.1, if_neg hreached.2.2]
    dsimp only
    rw [(strsep_words _).1, wordsLeft, if_pos hauto]
  rw [Succeeds, Refuses, Specified, if_pos hauto, hwrite]
  constructor
  · rintro (⟨-, hsent, -⟩ | ⟨hnegative, -⟩)
    · by_contra herrno
      rw [uvswitch_updateAutoStatus] at hsent
      dsimp only at hsent
      rw [uvswitch_updateStatus, if_neg herrno] at hsent
      cases hsent
    · dsimp only at hnegative
      omega
  · intro herrno
    refine .inl ⟨Int.natCast_nonneg _, ?_, rfl, rfl⟩
    exact if_pos herrno

theorem write_manual (hreached : Reached call dev)
    (hauto : (words (kbuffer call.buffer))[0]? ≠ some auto) :
    Succeeds call dev ∨ Refuses call dev ↔
      (values (kbuffer call.buffer)).Valid ∧ call.errno = 0 ∨ dev.status_mode = .MODE_MANUAL ∧
        (values (kbuffer call.buffer)).before.apply dev.status = dev.status := by
  have hwrite : ∀ v, values (kbuffer call.buffer) = v → uvswitch_write call dev =
      if v.Valid then (if call.errno = 0 then ((min call.buffer.length 255 : ℕ) : ℤ) else -call.errno,
        { dev with status_mode := .MODE_MANUAL, status := v.before.apply dev.status },
        if call.errno = 0 then some (request (v.before.apply dev.status)) else none)
      else (-EINVAL, { dev with status_mode := .MODE_MANUAL, status := v.before.apply dev.status },
        none) := by
    rintro v rfl
    rw [uvswitch_write, if_neg hreached.1, if_neg hreached.2.1, if_neg hreached.2.2]
    dsimp only
    rw [(strsep_words _).1, wordsLeft, if_neg hauto, storeTokens_values, storeNumbers_spec]
    simp only [uvswitch_updateStatus, decide_eq_true_eq, Int.neg_eq_zero, Int.natCast_eq_zero]
  rw [Succeeds, Refuses, Specified, if_neg hauto, hwrite _ rfl]
  generalize values (kbuffer call.buffer) = v
  by_cases hvalid : v.Valid
  · rw [if_pos hvalid]
    by_cases herrno : call.errno = 0
    · rw [if_pos herrno, if_pos herrno]
      refine iff_of_true (.inl ⟨Int.natCast_nonneg _, rfl, hvalid, rfl, ?_⟩) (.inl ⟨hvalid, herrno⟩)
      exact congrArg (Values.apply · dev.status) (values_before hvalid)
    · rw [if_neg herrno, if_neg herrno]
      constructor
      · rintro (⟨-, hsent, -⟩ | ⟨-, hstatus, hmode⟩)
        · cases hsent
        · exact .inr ⟨hmode.symm, hstatus⟩
      · rintro (⟨-, hzero⟩ | ⟨hmode, hstatus⟩)
        · exact absurd hzero herrno
        · exact .inr ⟨by dsimp only; omega, hstatus, hmode.symm⟩
  · rw [if_neg hvalid]
    constructor
    · rintro (⟨-, hsent, -⟩ | ⟨-, hstatus, hmode⟩)
      · cases hsent
      · exact .inr ⟨hmode.symm, hstatus⟩
    · rintro (⟨hv, -⟩ | ⟨hmode, hstatus⟩)
      · exact absurd hv hvalid
      · exact .inr ⟨(by decide : -EINVAL < 0), hstatus, hmode.symm⟩

theorem write_sound_iff (call : Call) (dev : Device) :
    Succeeds call dev ∨ Refuses call dev ↔ Sound call dev := by
  rw [Sound]
  by_cases hprivate : call.private_data = false
  · refine iff_of_true (.inr (refuses_of_eq (by decide : -ENODEV < 0) ?_)) (.inl hprivate)
    rw [uvswitch_write, if_pos hprivate]
  by_cases hudev : dev.udev = false
  · refine iff_of_true (.inr (refuses_of_eq (by decide : -ENODEV < 0) ?_)) (.inr (.inl hudev))
    rw [uvswitch_write, if_neg hprivate, if_pos hudev]
  by_cases hcopied : call.copied = false
  · refine iff_of_true (.inr (refuses_of_eq (by decide : -EFAULT < 0) ?_)) (.inr (.inr (.inl hcopied)))
    rw [uvswitch_write, if_neg hprivate, if_neg hudev, if_pos hcopied]
  rw [or_iff_right hprivate, or_iff_right hudev, or_iff_right hcopied]
  split_ifs with hauto
  · exact write_auto ⟨hprivate, hudev, hcopied⟩ hauto
  · exact write_manual ⟨hprivate, hudev, hcopied⟩ hauto

/-- The channel of a command whose second number is wrong is stored all the same. -/
theorem not_write_sound : ¬∀ (call : Call) (dev : Device),
    Succeeds call dev ∨ Refuses call dev := by
  intro h
  let dev : Device := ⟨true, ⟨0, 0, 0, 0⟩, .MODE_MANUAL, fun _ => 0⟩
  have hwrite : (uvswitch_write ⟨[0x35, 0x20, 0x37], true, true, 0⟩ dev) =
      (-22, { dev with status := ⟨5, 5, 5, 0⟩ }, none) := rfl
  have hcases := h ⟨[0x35, 0x20, 0x37], true, true, 0⟩ dev
  rw [Succeeds, Refuses, hwrite] at hcases
  rcases hcases with ⟨hretval, -⟩ | ⟨-, hstatus, -⟩
  · exact absurd hretval (by decide)
  · exact absurd hstatus (by decide)

end Write

end NaviMisc.Wasabi.Uvswitch
