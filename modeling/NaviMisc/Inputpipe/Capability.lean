import NaviMisc.Inputpipe.ServerDevice
import NaviMisc.Lib.Lists

/-!
What a client sends of its device's capabilities: `repack_bits` and the loop over
the event types in `evdev_send_metadata` of `client.c`.
-/

namespace NaviMisc.Inputpipe

open Lib.ByteOrder (Endian Byte store)

structure InputAbsinfo where
  minimum : BitVec 32
  maximum : BitVec 32
  fuzz : BitVec 32
  flat : BitVec 32

/-- The kernel's answers to `EVIOCGBIT`, the result and the buffer in words of `w` bytes, and to
`EVIOCGABS`. -/
structure Evdev (w : ℕ) where
  bits : ℕ → ℤ × List (BitVec (8 * w))
  abs : ℕ → InputAbsinfo

namespace Evdev

variable {w : ℕ} (e : Endian)

def repackWord : ℕ → BitVec (8 * w) → List Byte
  | 0, _ => []
  | n + 1, word => word.setWidth 8 :: repackWord n (word >>> 8)

def repackBits : List (BitVec (8 * w)) → ℕ → List Byte
  | [], _ => []
  | word :: src, len => if w ≤ len then repackWord w word ++ repackBits src (len - w) else []

def htonInputAbsinfo (host : InputAbsinfo) (axis : ℕ) : List Byte :=
  store e (n := 4) (htonl e (BitVec.ofNat 32 axis)) ++ store e (n := 4) (htonl e host.maximum) ++
    store e (n := 4) (htonl e host.minimum) ++ store e (n := 4) (htonl e host.fuzz) ++
    store e (n := 4) (htonl e host.flat)

/-- `1 << n` as an operand of a long. C leaves a shift of an int by 32 or more undefined; `excess`
stands for what it gives. -/
def axisMask (excess : ℕ → BitVec 32) (n : ℕ) : BitVec (8 * w) :=
  (if n < 32 then 1#32 <<< n else excess n).signExtend (8 * w)

def hasAxis (excess : ℕ → BitVec 32) (buffer : List (BitVec (8 * w))) (axis : ℕ) : Bool :=
  buffer.getD (axis / (8 * w)) 0 &&& axisMask excess (axis % (8 * w)) != 0

def sendBits (excess : ℕ → BitVec 32) (self : Evdev w) (i : ℕ) : List (ℕ × List Byte) :=
  let (len, buffer) := self.bits i
  if len ≤ 0 then []
  else
    (IPIPE_DEVICE_BITS,
      store e (n := 2) (htons e (BitVec.ofNat 16 i)) ++ repackBits buffer len.toNat) ::
    if i = EV_ABS then
      ((List.range (8 * len.toNat)).filter (hasAxis excess buffer)).map fun axis =>
        (IPIPE_DEVICE_ABSINFO, htonInputAbsinfo e (self.abs axis) axis)
    else []

def sendAllBits (excess : ℕ → BitVec 32) (self : Evdev w) : List (ℕ × List Byte) :=
  (List.range EV_MAX).flatMap (sendBits e excess self)

end Evdev

end NaviMisc.Inputpipe

/-!
Capability bitmaps on their way from a client's device to the ioctls of the
server.
-/

namespace NaviMisc.Inputpipe.Evdev

open Lib.ByteOrder (Endian Byte store load)
open Lib.Bits (wordsBit)
open Server

section repack

variable {w : ℕ}

@[simp] theorem length_repackWord (n : ℕ) (word : BitVec (8 * w)) :
    (repackWord n word).length = n := by
  induction n generalizing word with
  | zero => rfl
  | succ n ih => rw [repackWord, List.length_cons, ih]

theorem wordsBit_repackWord (n : ℕ) (word : BitVec (8 * w)) {k : ℕ} (hk : k < 8 * n) :
    wordsBit (repackWord n word) k = word.getLsbD k := by
  induction n generalizing word k with
  | zero => omega
  | succ n ih =>
    rw [repackWord]
    by_cases hlt : k < 8
    · rw [Lib.Bits.wordsBit_cons_of_lt _ _ hlt, BitVec.getLsbD_setWidth]
      simp [hlt]
    · obtain ⟨k, rfl⟩ := Nat.exists_eq_add_of_le (Nat.le_of_not_lt hlt)
      rw [Lib.Bits.wordsBit_cons_add (by simp), ih _ (by omega), BitVec.getLsbD_ushiftRight]

theorem wordsBit_repackBits (hw : 0 < w) (src : List (BitVec (8 * w))) {m : ℕ}
    (hm : m ≤ src.length) (k : ℕ) :
    wordsBit (repackBits src (w * m)) k = (decide (k < 8 * (w * m)) && wordsBit src k) := by
  induction src generalizing m k with
  | nil =>
    rw [List.length_nil, Nat.le_zero] at hm
    simp [repackBits]
  | cons word src ih =>
    cases m with
    | zero =>
      have hnot : ¬w ≤ w * 0 := by omega
      rw [repackBits, if_neg hnot]
      simp
    | succ m =>
      have hle : w ≤ w * (m + 1) := Nat.le_mul_of_pos_right w (Nat.succ_pos m)
      have hsub : w * (m + 1) - w = w * m := by rw [Nat.mul_succ, Nat.add_sub_cancel]
      have hpos : 0 < 8 * w := by omega
      rw [repackBits, if_pos hle, hsub, Lib.Bits.wordsBit_append (by simp), length_repackWord]
      by_cases hk : k < 8 * w
      · rw [if_pos hk, wordsBit_repackWord w word hk, Lib.Bits.wordsBit_cons_of_lt _ _ hk,
          decide_eq_true (by omega), Bool.true_and]
      · obtain ⟨k, rfl⟩ := Nat.exists_eq_add_of_le (Nat.le_of_not_lt hk)
        rw [if_neg hk, Nat.add_sub_cancel_left, ih (Nat.le_of_succ_le_succ hm),
          Lib.Bits.wordsBit_cons_add hpos, Nat.mul_succ]
        congr 1
        apply decide_eq_decide.mpr
        omega

end repack

section axes

variable {w : ℕ} (excess : ℕ → BitVec 32)

theorem hasAxis_eq (buffer : List (BitVec (8 * 4))) (axis : ℕ) :
    hasAxis excess buffer axis = wordsBit buffer axis := by
  have hlt : axis % (8 * 4) < 32 := Nat.mod_lt axis (by simp)
  rw [hasAxis, axisMask, if_pos hlt, BitVec.signExtend_eq, ← BitVec.twoPow_eq, wordsBit,
    Lib.Bits.getLsbD_eq_bit]
  exact Lib.Bits.and_twoPow_bne_zero _ _ hlt

theorem exists_hasAxis_ne {buffer : List (BitVec (8 * 8))} {m k : ℕ} (hk : k < 8 * (8 * m))
    (hbit : wordsBit buffer k = true) :
    ∃ excess, ∃ axis < 8 * (8 * m), hasAxis excess buffer axis ≠ wordsBit buffer axis := by
  have hdiv : (64 * (k / 64) + 32) / 64 = k / 64 := by omega
  have hmod : (64 * (k / 64) + 32) % 64 = 32 := by omega
  have hword : buffer.getD (k / 64) 0 ≠ 0 := by
    intro hzero
    rw [wordsBit, hzero] at hbit
    simp at hbit
  refine ⟨fun _ => if wordsBit buffer (64 * (k / 64) + 32) then 0 else BitVec.allOnes 32,
    64 * (k / 64) + 32, by omega, ?_⟩
  rw [hasAxis, axisMask, hdiv, hmod, if_neg (by omega)]
  cases wordsBit buffer (64 * (k / 64) + 32) with
  | false =>
    have hones : (BitVec.allOnes 32).signExtend (8 * 8) = BitVec.allOnes (8 * 8) := rfl
    rw [if_neg Bool.false_ne_true, hones, BitVec.and_allOnes, bne_iff_ne.mpr hword]
    exact Bool.true_eq_false.mp
  | true => simp

end axes

def sentAxes (packets : List (ℕ × List Byte)) : List ℕ :=
  packets.filterMap fun p =>
    if p.1 = IPIPE_DEVICE_ABSINFO then some (load .big 4 (p.2.take 4)).toNat else none

variable {w : ℕ} (e : Endian) (excess : ℕ → BitVec 32) (self : Evdev w)

theorem load_htonInputAbsinfo (host : InputAbsinfo) {axis : ℕ} (haxis : axis < 2 ^ 32) :
    (load .big 4 ((htonInputAbsinfo e host axis).take 4)).toNat = axis := by
  have htake : (htonInputAbsinfo e host axis).take 4 =
      store e (n := 4) (htonl e (BitVec.ofNat 32 axis)) := by
    rw [htonInputAbsinfo, List.append_assoc, List.append_assoc, List.append_assoc]
    exact List.take_left' (Lib.ByteOrder.length_store e (n := 4) _)
  have hload : load .big 4 (store e (n := 4) (htonl e (BitVec.ofNat 32 axis))) =
      BitVec.ofNat 32 axis := by
    rw [← Lib.ByteOrder.ntoh_load e (Lib.ByteOrder.length_store e (n := 4) _),
      Lib.ByteOrder.load_store e (n := 4)]
    exact ntohl_htonl e _
  rw [htake, hload]
  exact Nat.mod_eq_of_lt haxis

theorem sentAxes_sendBits {i : ℕ} (hlen : i = EV_ABS → (self.bits i).1 ≤ 510) :
    sentAxes (sendBits e excess self i) = if i = EV_ABS then
      (List.range (8 * (self.bits i).1.toNat)).filter (hasAxis excess (self.bits i).2) else [] := by
  rw [sendBits]
  dsimp only
  by_cases hpos : (self.bits i).1 ≤ 0
  · have hzero : (self.bits i).1.toNat = 0 := Int.toNat_of_nonpos hpos
    rw [if_pos hpos, hzero]
    simp [sentAxes]
  rw [if_neg hpos, sentAxes, List.filterMap_cons]
  have hne : IPIPE_DEVICE_BITS ≠ IPIPE_DEVICE_ABSINFO := by
    simp [IPIPE_DEVICE_BITS, IPIPE_DEVICE_ABSINFO]
  rw [if_neg hne]
  dsimp only
  by_cases habs : i = EV_ABS
  · rw [if_pos habs, if_pos habs, List.filterMap_map]
    have hid : ∀ axis ∈ (List.range (8 * (self.bits i).1.toNat)).filter
        (hasAxis excess (self.bits i).2),
        (((fun p : ℕ × List Byte => if p.1 = IPIPE_DEVICE_ABSINFO then
          some (load .big 4 (p.2.take 4)).toNat else none) ∘ fun axis =>
          (IPIPE_DEVICE_ABSINFO, htonInputAbsinfo e (self.abs axis) axis)) axis) = some axis := by
      intro axis haxis
      have hlt := List.mem_range.mp (List.mem_of_mem_filter haxis)
      have hle := hlen habs
      rw [Function.comp_apply, if_pos rfl, load_htonInputAbsinfo e _ (by omega)]
    rw [List.filterMap_congr hid, List.filterMap_some]
  · rw [if_neg habs, if_neg habs]
    rfl

theorem sentAxes_sendAllBits (hlen : (self.bits EV_ABS).1 ≤ 510) :
    sentAxes (sendAllBits e excess self) =
      (List.range (8 * (self.bits EV_ABS).1.toNat)).filter
        (hasAxis excess (self.bits EV_ABS).2) := by
  rw [sentAxes, sendAllBits, List.filterMap_flatMap]
  have hsent : (fun i => sentAxes (sendBits e excess self i)) = fun i => if i = EV_ABS then
      (List.range (8 * (self.bits EV_ABS).1.toNat)).filter (hasAxis excess (self.bits EV_ABS).2)
      else [] := by
    funext i
    rw [sentAxes_sendBits e excess self (by rintro rfl; exact hlen)]
    apply ite_congr rfl _ (fun _ => rfl)
    rintro rfl
    rfl
  exact (congrArg (List.flatMap · (List.range EV_MAX)) hsent).trans
    (Lib.Lists.flatMap_range_ite (by simp [EV_ABS, EV_MAX]) _)

section server

variable {w : ℕ} (e e' : Endian) (env : Env)

theorem ntohs_half_htons (x : BitVec 16) (bytes : List Byte) :
    ntohs e' (half e' (store e (n := 2) (htons e x) ++ bytes) 0) = x := by
  have hlength := Lib.ByteOrder.length_store e (n := 2) (htons e x)
  have hload : load .big 2 (store e (n := 2) (htons e x)) = x := by
    rw [← Lib.ByteOrder.ntoh_load e hlength, Lib.ByteOrder.load_store e (n := 2)]
    exact ntohs_htons e x
  rw [half, List.drop_zero, List.take_left' hlength]
  exact (Lib.ByteOrder.ntoh_load e' hlength).trans hload

theorem step_bits (s : Session) {i : ℕ} (hi : i < 2 ^ 16) (bytes : List Byte) :
    ∃ s', Session.step e' (.ok s) ⟨IPIPE_DEVICE_BITS,
        store e (n := 2) (htons e (BitVec.ofNat 16 i)) ++ bytes, env⟩ = .ok s' ∧
      ∀ ioc k, .setBit ioc k ∈ s'.calls ↔
        .setBit ioc k ∈ s.calls ∨ ioctlFor i = some ioc ∧ wordsBit bytes k = true := by
  have hlength := Lib.ByteOrder.length_store e (n := 2) (htons e (BitVec.ofNat 16 i))
  have hev : (ntohs e' (half e' (store e (n := 2) (htons e (BitVec.ofNat 16 i)) ++ bytes) 0)).toNat =
      i := by
    rw [ntohs_half_htons]
    exact Nat.mod_eq_of_lt hi
  have hnot : ¬(store e (n := 2) (htons e (BitVec.ofNat 16 i)) ++ bytes).length < 2 := by
    rw [List.length_append, hlength]
    omega
  cases hioc : ioctlFor i with
  | none =>
    have hset : setBits e' s.client (store e (n := 2) (htons e (BitVec.ofNat 16 i)) ++ bytes) =
        .ok (s.client, []) := by
      simp only [setBits, if_neg hnot, hev, hioc]
    refine ⟨_, Session.step_ok hset, ?_⟩
    simp
  | some ioc =>
    have hset : setBits e' s.client (store e (n := 2) (htons e (BitVec.ofNat 16 i)) ++ bytes) =
        .ok (unpackBits i ioc 0 bytes s.client) := by
      simp only [setBits, if_neg hnot, hev, hioc, List.drop_left' hlength]
    refine ⟨_, Session.step_ok hset, ?_⟩
    intro ioc' k
    dsimp only
    rw [List.mem_append, mem_unpackBits]
    apply or_congr_right
    constructor
    · rintro ⟨j, hj, hbit⟩
      cases hj
      rw [Nat.zero_add]
      exact ⟨rfl, hbit⟩
    · rintro ⟨hj, hbit⟩
      cases hj
      exact ⟨k, by rw [Nat.zero_add], hbit⟩

theorem step_absinfo (s : Session) (host : InputAbsinfo) {axis : ℕ} (haxis : axis < 2 ^ 31) :
    ∃ s', Session.step e' (.ok s) ⟨IPIPE_DEVICE_ABSINFO, htonInputAbsinfo e host axis, env⟩ =
        .ok s' ∧ s'.calls = s.calls := by
  let p : Incoming := ⟨IPIPE_DEVICE_ABSINFO, htonInputAbsinfo e host axis, env⟩
  have hok (client : Client) (h : setAbsinfo e' s.client p.content = .ok (client, [])) :
      ∃ s', Session.step e' (.ok s) p = .ok s' ∧ s'.calls = s.calls :=
    ⟨_, Session.step_ok h, List.append_nil _⟩
  rcases setAbsinfo_cases (e := e') (p := p) rfl s.client with
    ⟨-, hset⟩ | ⟨axis', min, max, hsome, ⟨-, hset⟩ | ⟨hneg, -⟩ | ⟨i, rfl, fuzz, flat, hset⟩⟩
  · exact hok _ hset
  · exact hok _ hset
  · exfalso
    have hfirst : (ntohl e' (word e' p.content 0)).toNat = axis := by
      have htake : (p.content.take 4).length = 4 := by
        simp [p, htonInputAbsinfo]
      rw [word, List.drop_zero, ntohl]
      exact (congrArg BitVec.toNat (Lib.ByteOrder.ntoh_load e' htake)).trans
        (load_htonInputAbsinfo e host (by omega))
    rw [absinfoOf] at hsome
    split at hsome
    · cases hsome
      rw [BitVec.toInt_eq_toNat_of_lt (by omega)] at hneg
      omega
    · cases hsome
  · exact hok _ hset

def incoming (p : ℕ × List Byte) : Incoming := ⟨p.1, p.2, env⟩

theorem foldl_absinfo (s : Session) (self : Evdev w) (axes : List ℕ)
    (haxes : ∀ axis ∈ axes, axis < 2 ^ 31) :
    ∃ s', ((axes.map fun axis => (IPIPE_DEVICE_ABSINFO,
        htonInputAbsinfo e (self.abs axis) axis)).map (incoming env)).foldl (Session.step e')
        (.ok s) = .ok s' ∧ s'.calls = s.calls := by
  induction axes generalizing s with
  | nil => exact ⟨s, rfl, rfl⟩
  | cons axis axes ih =>
    obtain ⟨s', hstep, hcalls⟩ :=
      step_absinfo e e' env s (self.abs axis) (haxes axis List.mem_cons_self)
    obtain ⟨s'', hfold, hcalls'⟩ := ih s' fun a ha => haxes a (List.mem_cons_of_mem axis ha)
    refine ⟨s'', ?_, hcalls'.trans hcalls⟩
    rw [List.map_cons, List.map_cons, List.foldl_cons]
    exact (congrArg (List.foldl (Session.step e') · _) hstep).trans hfold

/-- Of a type that the server knows, the device has a bitmap of whole words that fits into the
client's buffer. -/
def Native (self : Evdev w) : Prop :=
  ∀ i ioc, ioctlFor i = some ioc → (self.bits i).1 ≤ 510 ∧
    ∃ m, (self.bits i).1.toNat = w * m ∧ m ≤ (self.bits i).2.length

def HasBit (self : Evdev w) (i k : ℕ) : Prop :=
  k < 8 * (self.bits i).1.toNat ∧ wordsBit (self.bits i).2 k = true

variable {e e' env} {excess : ℕ → BitVec 32} {self : Evdev w}

theorem foldl_sendBits (hw : 0 < w) (h : self.Native) (s : Session) {i : ℕ} (hi : i < EV_MAX) :
    ∃ s', ((sendBits e excess self i).map (incoming env)).foldl (Session.step e') (.ok s) =
        .ok s' ∧
      ∀ ioc k, .setBit ioc k ∈ s'.calls ↔
        .setBit ioc k ∈ s.calls ∨ ioctlFor i = some ioc ∧ self.HasBit i k := by
  have hlt : i < 2 ^ 16 := by
    simp only [EV_MAX] at hi
    omega
  rw [sendBits]
  dsimp only
  by_cases hpos : (self.bits i).1 ≤ 0
  · have hzero : (self.bits i).1.toNat = 0 := Int.toNat_of_nonpos hpos
    rw [if_pos hpos]
    refine ⟨s, rfl, ?_⟩
    simp [HasBit, hzero]
  rw [if_neg hpos, List.map_cons, List.foldl_cons]
  obtain ⟨s', hstep, hbits⟩ :=
    step_bits e e' env s hlt (repackBits (self.bits i).2 (self.bits i).1.toNat)
  have hcalls : ∀ ioc k, .setBit ioc k ∈ s'.calls ↔
      .setBit ioc k ∈ s.calls ∨ ioctlFor i = some ioc ∧ self.HasBit i k := by
    intro ioc k
    rw [hbits]
    apply or_congr_right
    apply and_congr_right
    intro hioc
    obtain ⟨-, m, hm, hle⟩ := h i ioc hioc
    rw [HasBit, hm, wordsBit_repackBits hw _ hle, Bool.and_eq_true, decide_eq_true_iff]
  by_cases habs : i = EV_ABS
  · have hlen : (self.bits i).1 ≤ 510 := by
      rw [habs]
      exact (h EV_ABS .ABSBIT rfl).1
    rw [if_pos habs]
    obtain ⟨s'', hfold, hsame⟩ := foldl_absinfo e e' env s' self
      ((List.range (8 * (self.bits i).1.toNat)).filter (hasAxis excess (self.bits i).2)) (by
        intro axis haxis
        have hrange := List.mem_range.mp (List.mem_of_mem_filter haxis)
        omega)
    refine ⟨s'', (congrArg (List.foldl (Session.step e') · _) hstep).trans hfold, ?_⟩
    rw [hsame]
    exact hcalls
  · rw [if_neg habs]
    exact ⟨s', hstep, hcalls⟩

theorem foldl_flatMap (hw : 0 < w) (h : self.Native) (s : Session) (types : List ℕ)
    (htypes : ∀ i ∈ types, i < EV_MAX) :
    ∃ s', ((types.flatMap (sendBits e excess self)).map (incoming env)).foldl (Session.step e')
        (.ok s) = .ok s' ∧
      ∀ ioc k, .setBit ioc k ∈ s'.calls ↔
        .setBit ioc k ∈ s.calls ∨ ∃ i ∈ types, ioctlFor i = some ioc ∧ self.HasBit i k := by
  induction types generalizing s with
  | nil => exact ⟨s, rfl, by simp⟩
  | cons i types ih =>
    obtain ⟨s', hfirst, hcalls⟩ := foldl_sendBits hw h s (htypes i List.mem_cons_self)
    obtain ⟨s'', hrest, hcalls'⟩ := ih s' fun j hj => htypes j (List.mem_cons_of_mem i hj)
    refine ⟨s'', ?_, ?_⟩
    · rw [List.flatMap_cons, List.map_append, List.foldl_append, hfirst]
      exact hrest
    · intro ioc k
      rw [hcalls', hcalls, List.exists_mem_cons_iff, or_assoc]

end server

def typeOf : SetBit → ℕ
  | .EVBIT => 0
  | .KEYBIT => EV_KEY
  | .RELBIT => EV_REL
  | .ABSBIT => EV_ABS
  | .MSCBIT => EV_MSC
  | .LEDBIT => EV_LED
  | .SNDBIT => EV_SND
  | .FFBIT => EV_FF

theorem ioctlFor_eq_some_iff {i : ℕ} {ioc : SetBit} : ioctlFor i = some ioc ↔ i = typeOf ioc := by
  constructor
  · intro h
    rw [ioctlFor] at h
    repeat'
      split at h
      · rename_i hi
        cases h
        exact hi
    cases h
  · rintro rfl
    cases ioc <;> rfl

theorem typeOf_lt (ioc : SetBit) : typeOf ioc < EV_MAX := by
  cases ioc <;> simp [typeOf, EV_MAX, EV_KEY, EV_REL, EV_ABS, EV_MSC, EV_LED, EV_SND, EV_FF]

section crosses

variable {w : ℕ}

theorem getD_eq_zero {self : Evdev w} {m : ℕ} (hw : 0 < w) (hm : (self.bits EV_ABS).1.toNat = w * m)
    (h : ∀ k, ¬self.HasBit EV_ABS k) {axis : ℕ} (haxis : axis < 8 * (self.bits EV_ABS).1.toNat) :
    (self.bits EV_ABS).2.getD (axis / (8 * w)) 0 = 0 := by
  have hpos : 0 < 8 * w := by omega
  apply BitVec.eq_of_getLsbD_eq
  intro j hj
  have hdiv : (8 * w * (axis / (8 * w)) + j) / (8 * w) = axis / (8 * w) := by
    rw [Nat.mul_add_div hpos, Nat.div_eq_of_lt hj, Nat.add_zero]
  have hmod : (8 * w * (axis / (8 * w)) + j) % (8 * w) = j := by
    rw [Nat.mul_add_mod, Nat.mod_eq_of_lt hj]
  have hbit := h (8 * w * (axis / (8 * w)) + j)
  rw [HasBit, wordsBit, hdiv, hmod, not_and, Bool.not_eq_true] at hbit
  refine (hbit ?_).trans BitVec.getLsbD_zero.symm
  rw [hm, ← Nat.mul_assoc] at haxis ⊢
  have hword : axis / (8 * w) < m := Nat.div_lt_of_lt_mul haxis
  have hnext := Nat.mul_le_mul_left (8 * w) (Nat.succ_le_of_lt hword)
  rw [Nat.mul_succ] at hnext
  omega

def Crosses (e e' : Endian) (env : Env) (addr : List Byte) (excess : ℕ → BitVec 32)
    (self : Evdev w) : Prop :=
  (∃ s, ((sendAllBits e excess self).map (incoming env)).foldl (Session.step e')
      (.ok (Session.init addr)) = .ok s ∧
    ∀ i ioc, ioctlFor i = some ioc → ∀ k, .setBit ioc k ∈ s.calls ↔ self.HasBit i k) ∧
  sentAxes (sendAllBits e excess self) =
    (List.range (8 * (self.bits EV_ABS).1.toNat)).filter (wordsBit (self.bits EV_ABS).2)

variable (e e' : Endian) (env : Env) (addr : List Byte) (excess : ℕ → BitVec 32) {self : Evdev w}

theorem setBits_sent (hw : 0 < w) (h : self.Native) :
    ∃ s, ((sendAllBits e excess self).map (incoming env)).foldl (Session.step e')
      (.ok (Session.init addr)) = .ok s ∧
    ∀ i ioc, ioctlFor i = some ioc → ∀ k, .setBit ioc k ∈ s.calls ↔ self.HasBit i k := by
  obtain ⟨s, hfold, hcalls⟩ := @foldl_flatMap w e e' env excess self hw h
    (Session.init addr) (List.range EV_MAX) fun i hi => List.mem_range.mp hi
  refine ⟨s, hfold, ?_⟩
  intro i ioc hioc k
  rw [hcalls]
  constructor
  · rintro (hnil | ⟨j, -, hj, hbit⟩)
    · cases hnil
    · rw [ioctlFor_eq_some_iff.mp hioc, ← ioctlFor_eq_some_iff.mp hj]
      exact hbit
  · intro hbit
    have hlt : i < EV_MAX := by
      rw [ioctlFor_eq_some_iff.mp hioc]
      exact typeOf_lt ioc
    exact .inr ⟨i, List.mem_range.mpr hlt, hioc, hbit⟩

theorem crosses_iff_hasAxis (hw : 0 < w) (h : self.Native) :
    Crosses e e' env addr excess self ↔ ∀ axis < 8 * (self.bits EV_ABS).1.toNat,
      hasAxis excess (self.bits EV_ABS).2 axis = wordsBit (self.bits EV_ABS).2 axis := by
  rw [Crosses, and_iff_right (setBits_sent e e' env addr excess hw h),
    sentAxes_sendAllBits e excess self (h EV_ABS .ABSBIT rfl).1]
  constructor
  · intro hfilter axis haxis
    have hmem := List.mem_range.mpr haxis
    apply Bool.eq_iff_iff.mpr
    constructor
    · intro hsent
      have hfiltered := List.mem_filter.mpr ⟨hmem, hsent⟩
      rw [hfilter] at hfiltered
      exact (List.mem_filter.mp hfiltered).2
    · intro hbit
      have hfiltered := List.mem_filter.mpr ⟨hmem, hbit⟩
      rw [← hfilter] at hfiltered
      exact (List.mem_filter.mp hfiltered).2
  · intro hall
    apply List.filter_congr
    intro axis haxis
    exact hall axis (List.mem_range.mp haxis)

/-- Whatever the undefined shifts give, the capabilities cross as they are: exactly if longs have
32 bits or there is no absolute axis. -/
theorem crosses_iff (hw : w = 4 ∨ w = 8) (h : self.Native) :
    (∀ excess, Crosses e e' env addr excess self) ↔ w = 4 ∨ ∀ k, ¬self.HasBit EV_ABS k := by
  obtain ⟨-, m, hm, -⟩ := h EV_ABS .ABSBIT rfl
  have hpos : 0 < w := by omega
  simp only [crosses_iff_hasAxis e e' env addr _ hpos h]
  constructor
  · intro hall
    rcases hw with rfl | rfl
    · exact .inl rfl
    · right
      rintro k ⟨hk, hbit⟩
      rw [hm] at hk
      obtain ⟨excess, axis, haxis, hne⟩ := exists_hasAxis_ne hk hbit
      rw [← hm] at haxis
      exact hne (hall excess axis haxis)
  · rintro (rfl | hnone) excess axis haxis
    · apply hasAxis_eq
    · have hbit : wordsBit (self.bits EV_ABS).2 axis = false := by
        have hnot := hnone axis
        rw [HasBit, not_and, Bool.not_eq_true] at hnot
        exact hnot haxis
      rw [hbit, hasAxis, getD_eq_zero hpos hm hnone haxis]
      simp

def twoAxes (w : ℕ) : Evdev w where
  bits i := if i = EV_ABS then (w, [3]) else (0, [])
  abs _ := ⟨0, 0, 0, 0⟩

theorem twoAxes_native {w : ℕ} (hw : w ≤ 510) : (twoAxes w).Native := by
  intro i ioc _
  rw [twoAxes]
  dsimp only
  split
  · exact ⟨by omega, 1, by simp, le_rfl⟩
  · exact ⟨by simp, 0, by simp, le_rfl⟩

theorem crosses_iff_two_axes : Crosses .little .big zeroEnv [] (fun _ => 0) (twoAxes 4) :=
  (crosses_iff .little .big zeroEnv [] (.inl rfl) (twoAxes_native (by omega))).mpr (.inl rfl) _

/-- With longs of 64 bits and shifts modulo 32, absinfo is sent of the axes 32 and 33 as well. -/
theorem two_axes_sent_four : (twoAxes 8).Native ∧
    ¬Crosses .little .little zeroEnv [] (fun n => 1#32 <<< (n % 32)) (twoAxes 8) := by
  refine ⟨twoAxes_native (by omega), ?_⟩
  rw [crosses_iff_hasAxis .little .little zeroEnv [] _ (by simp) (twoAxes_native (by omega))]
  intro hall
  have haxis := hall 32 (by simp [twoAxes])
  cases haxis

end crosses

end NaviMisc.Inputpipe.Evdev
