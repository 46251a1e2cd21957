import NaviMisc.Rcpod.I2cRequests

/-!
Where the I2C transfers of the firmware do what those of the host do.
-/

namespace NaviMisc.Rcpod.I2c

open Lib.Pic Var Serial

section Agreement

variable (slave : Slave) (pokeCarry peekCarry : ℕ → Bool) (idev : rcpod_i2c_dev)
variable (write_buffer : ℕ → Byte) (bus : Bus)

structure Ready (s : rcpod_dev) : Prop where
  accelerated : rcpod_HasAcceleratedI2C s = true
  synced : ∀ idev, s.last_i2c_dev = some idev → s.pod.Selects idev
  BD0IAL : s.pod.cpu.file BD0IAL = 0xC0

/-- A call does on the bus, stores and returns what the software does, and looks at no more than
`w` bytes. -/
structure Agrees (w : ℕ) (r : Returned) (t : Transfer) : Prop where
  bus : r.dev.pod.bus = t.bus
  read_buffer : r.read_buffer = t.read_buffer
  acks : r.acks = t.acks
  reads : ∀ i ∈ r.reads, i < w

def WriteAgrees (w : ℕ) : Prop :=
  ∀ s, Ready s → s.pod.bus = bus →
    Agrees w (rcpod_I2CWrite slave s pokeCarry peekCarry idev write_buffer w)
      ⟨(softi2c_write slave idev write_buffer w bus).1, [],
        (softi2c_write slave idev write_buffer w bus).2⟩

def ReadAgrees (r : ℕ) : Prop :=
  ∀ s read_buffer, Ready s → s.pod.bus = bus → read_buffer.length = r →
    Agrees 0 (rcpod_I2CRead slave s pokeCarry peekCarry idev read_buffer r)
      (softi2c_read slave idev read_buffer r bus)

def WriteReadAgrees (w r : ℕ) : Prop :=
  ∀ s read_buffer, Ready s → s.pod.bus = bus → read_buffer.length = r →
    Agrees w
      (rcpod_I2CWriteRead slave s pokeCarry peekCarry idev write_buffer w read_buffer r)
      (softi2c_write_read slave idev write_buffer w read_buffer r bus)

/-- The slave acknowledges the address and the first `i` bytes. -/
def Accepted (i : ℕ) : Prop :=
  Accepts slave idev.pins (writeBytes idev.address write_buffer i) (put idev.pins .start bus)

def written (w : ℕ) : Bus :=
  put idev.pins .stop
    (sent idev.pins (writeBytes idev.address write_buffer w) (put idev.pins .start bus))

def PokesRight (w : ℕ) : Prop :=
  ∀ i < w, Accepted slave idev write_buffer bus i → misplaced pokeCarry w i = false

def PeeksRight (r : ℕ) : Prop := ∀ j < r / 8, peekCarry j = false

section Writes

variable {slave pokeCarry idev write_buffer bus}

theorem take_writeBytes (a : Byte) (f : ℕ → Byte) {i w : ℕ} (h : i ≤ w) :
    (writeBytes a f w).take (i + 1) = writeBytes a f i := by
  rw [writeBytes, List.take_succ_cons, ← List.map_take, List.take_range, Nat.min_eq_left h]
  rfl

theorem length_writeBytes (a : Byte) (f : ℕ → Byte) (w : ℕ) :
    (writeBytes a f w).length = w + 1 := by
  simp [writeBytes]

theorem softi2c_write_count_iff (w : ℕ) :
    (softi2c_write slave idev write_buffer w bus).2 = w + 1 ↔
      Accepted slave idev write_buffer bus w := by
  rw [softi2c_write_eq, Accepted, ← transmit_count_iff, length_writeBytes]

theorem softi2c_write_accepted {w : ℕ} (h : Accepted slave idev write_buffer bus w) :
    softi2c_write slave idev write_buffer w bus =
      (written idev write_buffer bus w, w + 1) := by
  rw [softi2c_write_eq, transmit_of_accepts h, length_writeBytes]
  rfl

theorem softi2c_write_congr {g : ℕ → Byte} {w : ℕ}
    (h : ∀ i < w, Accepted slave idev write_buffer bus i → g i = write_buffer i) :
    softi2c_write slave idev g w bus = softi2c_write slave idev write_buffer w bus := by
  have hlength : (writeBytes idev.address write_buffer w).length =
      (writeBytes idev.address g w).length := by
    rw [length_writeBytes, length_writeBytes]
  have hbytes : ∀ i < (writeBytes idev.address write_buffer w).length,
      Accepts slave idev.pins ((writeBytes idev.address write_buffer w).take i)
        (put idev.pins .start bus) →
      (writeBytes idev.address g w)[i]? = (writeBytes idev.address write_buffer w)[i]? := by
    intro i hi haccepts
    rw [length_writeBytes] at hi
    cases i with
    | zero => rfl
    | succ i =>
      rw [take_writeBytes _ _ (by omega)] at haccepts
      have hi' : i < w := by omega
      simp [writeBytes, h i hi' haccepts, hi']
  rw [softi2c_write_eq, softi2c_write_eq, transmit_congr hlength hbytes]

theorem eq_of_softi2c_write {g : ℕ → Byte} {w : ℕ} {b : Bus}
    (hf : (softi2c_write slave idev write_buffer w bus).1 <+: b)
    (hg : (softi2c_write slave idev g w bus).1 <+: b) :
    ∀ i < w, Accepted slave idev write_buffer bus i → g i = write_buffer i := by
  intro i hi haccepted
  rw [softi2c_write_eq] at hf hg
  have hlength : (writeBytes idev.address write_buffer w).length =
      (writeBytes idev.address g w).length := by
    rw [length_writeBytes, length_writeBytes]
  have hget := eq_of_transmit hlength ((List.prefix_append _ _).trans hf)
    ((List.prefix_append _ _).trans hg) (i + 1) (by rw [length_writeBytes]; omega)
    (by rw [take_writeBytes _ _ (Nat.le_of_lt hi)]; exact haccepted)
  simpa [writeBytes, hi] using hget

theorem softi2c_write_found (h : PokesRight slave pokeCarry idev write_buffer bus w)
    (memory : BitVec 9 → Byte) :
    softi2c_write slave idev (found pokeCarry write_buffer memory w) w bus =
      softi2c_write slave idev write_buffer w bus := by
  apply softi2c_write_congr
  intro i hi haccepted
  rw [found, h i hi haccepted]
  rfl

theorem pokesRight_of_sent {w : ℕ} (hw : w ≤ RCPOD_SCRATCHPAD_SIZE)
    (h : ∀ memory, ∃ b, (softi2c_write slave idev write_buffer w bus).1 <+: b ∧
      (softi2c_write slave idev (found pokeCarry write_buffer memory w) w bus).1 <+: b) :
    PokesRight slave pokeCarry idev write_buffer bus w := by
  unfold RCPOD_SCRATCHPAD_SIZE at hw
  intro i hi haccepted
  obtain ⟨b, hf, hg⟩ := h fun x => write_buffer (x.toNat - 32) + 1
  have heq := eq_of_softi2c_write hf hg i hi haccepted
  have hne : ∀ x : Byte, x + 1 ≠ x := by decide
  have hindex : (place false i).toNat - 32 = i := by
    rw [toNat_place (by omega)]
    simp
  rw [found, hindex] at heq
  cases hmis : misplaced pokeCarry w i with
  | false => rfl
  | true =>
    rw [hmis] at heq
    exact absurd heq (hne _)

end Writes

section Calls

variable {slave pokeCarry peekCarry idev write_buffer bus} {s : rcpod_dev}

structure Chosen (s t : rcpod_dev) (idev : rcpod_i2c_dev) : Prop where
  selected : Selected t.pod idev
  last : t.last_i2c_dev = some idev
  bcdDevice : t.bcdDevice = s.bcdDevice
  bus : t.pod.bus = s.pod.bus
  memory : t.pod.cpu.memory = s.pod.cpu.memory

theorem i2c_set_dev_spec (hs : Ready s) (idev : rcpod_i2c_dev) :
    Chosen s (i2c_set_dev s idev) idev := by
  rw [i2c_set_dev]
  split_ifs with hlast
  · exact ⟨⟨hs.synced idev hlast, hs.BD0IAL⟩, hlast, rfl, rfl, rfl⟩
  · have hlow : ∀ hi lo : Byte, (hi ++ lo : BitVec 16).extractLsb' 0 8 = lo :=
      fun _ _ => BitVec.extractLsb'_append_eq_right
    have hhigh : ∀ hi lo : Byte, (hi ++ lo : BitVec 16).extractLsb' 8 8 = hi :=
      fun _ _ => BitVec.extractLsb'_append_eq_left
    let t := s.setup (idev.clock ++ idev.data) ((0 : Byte) ++ idev.address)
    have hclock : t.cpu.file (wValue, 1) = idev.clock := (setup_wValueHigh ..).trans (hhigh _ _)
    have hdata : t.cpu.file wValue = idev.data := (setup_wValue ..).trans (hlow _ _)
    have haddress : t.cpu.file wIndex = idev.address := (setup_wIndex ..).trans (hlow _ _)
    exact ⟨⟨⟨Prod.ext hclock hdata, haddress⟩, (setup_BD0IAL ..).trans hs.BD0IAL⟩, rfl, rfl, rfl,
      rfl⟩

theorem fillScratchpad_cpu (s : rcpod_dev) (carry : ℕ → Bool) (f : ℕ → Byte) (w : ℕ) :
    (fillScratchpad s carry f w).pod.cpu =
      rcpod_PokeBuffer carry RCPOD_REG_SCRATCHPAD ((List.range w).map f) s.pod.cpu := by
  rw [fillScratchpad]
  cases w with
  | zero => rfl
  | succ w => simp

theorem readPart_acks_le (r : ℕ) (bus : Bus) : (readPart slave idev r bus).acks ≤ 1 := by
  rw [readPart]
  split_ifs
  · exact Nat.zero_le 1
  · by_cases h : AcceptsRead slave idev bus
    · rw [softi2c_read_accepted [] r h]
    · rw [softi2c_read_refused [] r h]
      exact Nat.zero_le 1

theorem txrxTransfer_acks_le (g : ℕ → Byte) (w r : ℕ) (bus : Bus) :
    (txrxTransfer slave idev g w r bus).acks ≤ w + 2 := by
  have hwrite := softi2c_write_count_le slave idev g w bus
  have hread := @readPart_acks_le slave idev r
  rw [txrxTransfer]
  split_ifs
  · exact (hread bus).trans (by omega)
  · exact Nat.add_le_add_left (hread _) (w + 1)
  · exact hwrite.trans (by omega)

variable (pokeCarry write_buffer)

def transferred (slave : Slave) (s : rcpod_dev) (w r : ℕ) : BitVec 9 → Byte :=
  (requestTxRx slave (fillScratchpad s pokeCarry write_buffer w) w r).1.cpu.memory

structure Transferred (slave : Slave) (idev : rcpod_i2c_dev) (peekCarry : ℕ → Bool)
    (g : ℕ → Byte) (w r : ℕ) (read_buffer : List Byte) (b : Bus) (s : rcpod_dev)
    (R : Returned) : Prop where
  bus : R.dev.pod.bus = (txrxTransfer slave idev g w r b).bus
  acks : R.acks = (txrxTransfer slave idev g w r b).acks
  reads : R.reads = List.range w
  keeps : Keeps idev s R.dev
  skipped : r = 0 → R.read_buffer = read_buffer
  data : 0 < r → R.read_buffer = (List.range r).map fun i =>
    transferred pokeCarry write_buffer slave s w r (place (misread peekCarry r i) i)
  answers : 0 < r → ReadsBack slave idev g w b →
    (List.range r).map (fun i => transferred pokeCarry write_buffer slave s w r (place false i)) =
      answers slave idev r (readBus slave idev g w b)
  others : 0 < r → ReadsBack slave idev g w b → (∀ i < w, misplaced pokeCarry w i = false) →
    ∀ i < r, transferred pokeCarry write_buffer slave s w r (place true i) =
      s.pod.cpu.memory (place true i)

theorem i2c_write_read_spec (hs : Selected s.pod idev) (hbus : s.pod.bus = bus) {w r : ℕ}
    (hw : w ≤ RCPOD_SCRATCHPAD_SIZE) (hr : r ≤ RCPOD_SCRATCHPAD_SIZE) {read_buffer : List Byte}
    (hlength : read_buffer.length = r) :
    Transferred pokeCarry write_buffer slave idev peekCarry
      (found pokeCarry write_buffer s.pod.cpu.memory w) w r read_buffer bus s
      (i2c_write_read slave s pokeCarry peekCarry write_buffer w read_buffer r) := by
  subst hbus
  let t := fillScratchpad s pokeCarry write_buffer w
  let p := requestTxRx slave t w r
  let q := readScratchpad peekCarry r p.1.cpu
  have hcpu : t.pod.cpu = rcpod_PokeBuffer pokeCarry RCPOD_REG_SCRATCHPAD
      ((List.range w).map write_buffer) s.pod.cpu := fillScratchpad_cpu s pokeCarry write_buffer w
  have ht : Selected t.pod idev :=
    ⟨hs.selects, by rw [hcpu, rcpod_PokeBuffer_BD0IAL]; exact hs.BD0IAL⟩
  have hp := requestTxRx_spec slave idev ht hw hr (g := found pokeCarry write_buffer
    s.pod.cpu.memory w) fun i hi => by
      rw [hcpu]
      exact poked_scratchpad pokeCarry write_buffer s.pod.cpu hw hi
  have hresult : i2c_write_read slave s pokeCarry peekCarry write_buffer w read_buffer r =
      ⟨{ t with pod := { p.1 with cpu := q.1 } }, q.2 ++ read_buffer.drop r, (p.2.headD 0).toNat,
        List.range w⟩ := by
    rw [i2c_write_read, if_neg (Nat.not_lt.mpr hw), if_neg (Nat.not_lt.mpr hr)]
  have hq : 0 < r → q = rcpod_PeekBuffer peekCarry RCPOD_REG_SCRATCHPAD r p.1.cpu :=
    fun h => if_pos h
  have hnone : r = 0 → q = (p.1.cpu, []) := fun h0 => if_neg (by omega)
  have hpeek := peeked peekCarry p.1.cpu hp.selected.BD0IAL hr
  rw [hresult]
  unfold RCPOD_SCRATCHPAD_SIZE at hw hr
  refine ⟨hp.bus, ?_, rfl, ⟨⟨hp.selected.selects, ?_⟩, rfl, rfl⟩, fun h0 => ?_, fun hpos => ?_,
    fun hpos hreads => ?_, fun hpos hreads hright i hi => ?_⟩
  · have hle := @txrxTransfer_acks_le slave idev (found pokeCarry write_buffer s.pod.cpu.memory w)
      w r s.pod.bus
    change (p.2.headD 0).toNat = _
    rw [hp.count, List.headD_cons, BitVec.toNat_ofNat, Nat.mod_eq_of_lt]
    · rfl
    · exact Nat.lt_of_le_of_lt hle (by omega)
  · rcases Nat.eq_zero_or_pos r with h0 | hpos
    · change q.1.file BD0IAL = _
      rw [hnone h0]
      exact hp.selected.BD0IAL
    · change q.1.file BD0IAL = _
      rw [hq hpos]
      exact hpeek.2
  · change q.2 ++ read_buffer.drop r = read_buffer
    rw [hnone h0, h0]
    rfl
  · change q.2 ++ read_buffer.drop r = _
    rw [hq hpos, hpeek.1, List.drop_eq_nil_of_le (Nat.le_of_eq hlength), List.append_nil]
    rfl
  · have hmap := @map_writeAll t.pod.cpu.memory _
      (answers slave idev r (readBus slave idev (found pokeCarry write_buffer s.pod.cpu.memory w) w
        s.pod.bus)) (nodup_places (fun _ => false) (by omega : r ≤ 224))
      (by rw [length_answers, List.length_map, List.length_range])
    rw [List.map_map] at hmap
    refine Eq.trans (List.map_congr_left fun i hi => ?_) hmap
    rw [List.mem_range] at hi
    exact hp.memory hpos hreads false i (by omega)
  · refine (hp.memory hpos hreads true i (by omega)).trans ?_
    rw [writeAll_of_notMem, hcpu]
    · exact poked_flipped pokeCarry write_buffer s.pod.cpu (by exact hw) hright (by omega)
    · rw [List.mem_map]
      rintro ⟨j, hj, hplace⟩
      rw [List.mem_range] at hj
      exact absurd (place_inj (by omega) (by omega) hplace).1 (by decide)

end Calls

end Agreement

section Prefixes

variable {slave : Slave} {idev : rcpod_i2c_dev} (bus : Bus)

def addressed (slave : Slave) (idev : rcpod_i2c_dev) (byte : Byte) : Bus :=
  (write_byte slave idev.pins byte (put idev.pins .start bus)).1

theorem softi2c_write_grows (f : ℕ → Byte) (w : ℕ) :
    addressed bus slave idev (idev.address <<< 1) <+: (softi2c_write slave idev f w bus).1 := by
  rw [softi2c_write_eq]
  exact (transmit_cons_grows _ _ _).trans (List.prefix_append _ _)

theorem softReads_grows (pins : Pins) (n : ℕ) (bus : Bus) :
    bus <+: (softReads slave pins n bus).1 := by
  induction n generalizing bus with
  | zero => exact List.prefix_refl bus
  | succ n ih =>
    rw [softReads]
    exact ((List.prefix_append _ _).trans (List.prefix_append _ _)).trans (ih _)

theorem softi2c_read_grows (read_buffer : List Byte) (r : ℕ) :
    addressed bus slave idev (idev.address <<< 1 ||| 1) <+:
      (softi2c_read slave idev read_buffer r bus).bus := by
  by_cases h : AcceptsRead slave idev bus
  · rw [softi2c_read_accepted read_buffer r h]
    rw [AcceptsRead] at h
    rw [addressed, write_byte, h]
    exact (softReads_grows idev.pins r _).trans (List.prefix_append _ _)
  · rw [softi2c_read_refused read_buffer r h]
    rw [AcceptsRead, Bool.not_eq_true] at h
    rw [addressed, write_byte, h]
    exact List.prefix_append _ _

theorem length_addressed (byte : Byte) :
    (addressed bus slave idev byte).length = bus.length + 2 := by
  simp [addressed, write_byte, put]

theorem prefix_addressed (byte : Byte) : bus <+: addressed bus slave idev byte :=
  (List.prefix_append _ _).trans (List.prefix_append _ _)

theorem addressed_ne {b : Bus} (hwrite : addressed bus slave idev (idev.address <<< 1) <+: b)
    (hread : addressed bus slave idev (idev.address <<< 1 ||| 1) <+: b) : False := by
  have heq := List.prefix_of_prefix_length_le hwrite hread
    (by rw [length_addressed, length_addressed])
  have hbyte := heq.eq_of_length (by rw [length_addressed, length_addressed])
  have hne : ∀ a : Byte, a <<< 1 ≠ a <<< 1 ||| 1 := by decide
  simp only [addressed, write_byte, put, List.append_cancel_left_eq, List.cons.injEq,
    Prod.mk.injEq, Signal.byte.injEq, true_and, and_true] at hbyte
  exact hne _ hbyte.1

theorem readPart_grows (r : ℕ) : bus <+: (readPart slave idev r bus).bus := by
  rw [readPart]
  split_ifs
  · exact List.prefix_refl bus
  · exact (prefix_addressed bus _).trans (softi2c_read_grows bus [] r)

theorem txrxTransfer_grows (g : ℕ → Byte) {w : ℕ} (hw : w ≠ 0) (r : ℕ) :
    (softi2c_write slave idev g w bus).1 <+: (txrxTransfer slave idev g w r bus).bus := by
  rw [txrxTransfer, if_neg hw]
  split_ifs
  · exact readPart_grows _ r
  · exact List.prefix_refl _

theorem softi2c_write_read_accepted {f : ℕ → Byte} {w : ℕ} (h : Accepted slave idev f bus w)
    (read_buffer : List Byte) (r : ℕ) :
    softi2c_write_read slave idev f w read_buffer r bus =
      { softi2c_read slave idev read_buffer r (written idev f bus w) with
        acks := w + 1 + (softi2c_read slave idev read_buffer r (written idev f bus w)).acks } := by
  rw [softi2c_write_read, softi2c_write_accepted h]
  exact if_pos rfl

theorem softi2c_write_read_refused {f : ℕ → Byte} {w : ℕ} (h : ¬Accepted slave idev f bus w)
    (read_buffer : List Byte) (r : ℕ) :
    softi2c_write_read slave idev f w read_buffer r bus =
      ⟨(softi2c_write slave idev f w bus).1, read_buffer,
        (softi2c_write slave idev f w bus).2⟩ := by
  rw [← softi2c_write_count_iff] at h
  exact if_neg h

theorem softi2c_write_read_grows (f : ℕ → Byte) (w : ℕ) (read_buffer : List Byte) (r : ℕ) :
    (softi2c_write slave idev f w bus).1 <+:
      (softi2c_write_read slave idev f w read_buffer r bus).bus := by
  by_cases h : Accepted slave idev f bus w
  · rw [softi2c_write_read_accepted bus h, softi2c_write_accepted h]
    exact (prefix_addressed _ _).trans (softi2c_read_grows _ _ r)
  · rw [softi2c_write_read_refused bus h]

end Prefixes

section Equivalence

variable {slave : Slave} {pokeCarry peekCarry : ℕ → Bool} {idev : rcpod_i2c_dev}
variable {write_buffer : ℕ → Byte} {bus : Bus} {s : rcpod_dev} {w r : ℕ}

def unused (memory : BitVec 9 → Byte) (bus : Bus) : rcpod_dev :=
  ⟨0x0120, none, ⟨⟨0, false, false, false, 0, fun _ => 0xC0, memory, []⟩, 0, 0, 0, 0, 0, bus⟩⟩

theorem ready_unused (memory : BitVec 9 → Byte) (bus : Bus) : Ready (unused memory bus) :=
  ⟨rfl, fun _ h => absurd h (by simp [unused]), rfl⟩

theorem misplaced_short (hw : w ≤ 4) (i : ℕ) : misplaced pokeCarry w i = false := by
  have hdiv : (w - 1) / 4 = 0 := by omega
  rw [misplaced, hdiv]
  cases i with
  | zero => simp
  | succ i => simp

theorem misread_of_peeksRight (h : PeeksRight peekCarry r) (i : ℕ) :
    misread peekCarry r i = false := by
  rw [misread]
  by_cases hi : i < 8 * (r / 8)
  · rw [h (i / 8) (by omega)]
    rfl
  · simp [hi]

theorem peeksRight_of_data {memory : BitVec 9 → Byte} {data : List Byte}
    (h : (List.range r).map (fun i => memory (place (misread peekCarry r i) i)) = data)
    (hother : ∀ i < r, memory (place true i) ≠ data.getD i 0) : PeeksRight peekCarry r := by
  intro j hj
  cases hcarry : peekCarry j with
  | false => rfl
  | true =>
    have hi : 8 * j + 1 < r := by omega
    have hmisread : misread peekCarry r (8 * j + 1) = true := by
      have hdiv : (8 * j + 1) / 8 = j := by omega
      have hmod : (8 * j + 1) % 2 = 1 := by omega
      have hlt : 8 * j + 1 < 8 * (r / 8) := by omega
      simp [misread, hdiv, hcarry, hmod, hlt]
    refine absurd ?_ (hother _ hi)
    simp [← h, List.getD_eq_getElem?_getD, hi, hmisread]

theorem i2cWrite_eq (hs : Ready s) :
    rcpod_I2CWrite slave s pokeCarry peekCarry idev write_buffer w =
      if w ≤ 4 then i2c_write4 slave (i2c_set_dev s idev) write_buffer w
      else i2c_write_read slave (i2c_set_dev s idev) pokeCarry peekCarry write_buffer w [] 0 := by
  simp [rcpod_I2CWrite, hs.accelerated]

theorem i2cRead_eq (hs : Ready s) (read_buffer : List Byte) :
    rcpod_I2CRead slave s pokeCarry peekCarry idev read_buffer r =
      if r ≤ 8 ∧ 0 < r then i2c_read8 slave (i2c_set_dev s idev) read_buffer r
      else i2c_write_read slave (i2c_set_dev s idev) pokeCarry peekCarry (fun _ => 0) 0
        read_buffer r := by
  simp [rcpod_I2CRead, hs.accelerated]

theorem i2cWriteRead_eq (hs : Ready s) (read_buffer : List Byte) :
    rcpod_I2CWriteRead slave s pokeCarry peekCarry idev write_buffer w read_buffer r =
      if w = 1 ∧ r ≤ 8 ∧ 0 < r then
        i2c_write1_read8 slave (i2c_set_dev s idev) (write_buffer 0) read_buffer r
      else
        i2c_write_read slave (i2c_set_dev s idev) pokeCarry peekCarry write_buffer w
          read_buffer r := by
  simp [rcpod_I2CWriteRead, hs.accelerated]

theorem write4_agrees_iff (hw : w ≤ 4) :
    WriteAgrees slave pokeCarry peekCarry idev write_buffer bus w ↔ 4 ≤ w := by
  constructor
  · intro h
    have hreads := (h _ (ready_unused (fun _ => 0) bus) rfl).reads
    rw [i2cWrite_eq (ready_unused _ bus), if_pos hw] at hreads
    have := hreads 3 (by simp [i2c_write4])
    omega
  · intro h4 s hs hbus
    have hchosen := i2c_set_dev_spec hs idev
    obtain ⟨hsame, hacks, -⟩ :=
      @i2c_write4_spec slave idev _ hchosen.selected write_buffer w hw
    rw [hchosen.bus, hbus] at hsame hacks
    rw [i2cWrite_eq hs, if_pos hw]
    refine ⟨hsame, rfl, hacks, fun i hi => ?_⟩
    have hlt : i < 4 := by
      have hall : ∀ i ∈ [0, 1, 2, 3], i < 4 := by decide
      exact hall i hi
    omega

theorem i2c_write_read_ready (hs : Ready s) (hbus : s.pod.bus = bus)
    (hw : w ≤ RCPOD_SCRATCHPAD_SIZE) (hr : r ≤ RCPOD_SCRATCHPAD_SIZE) {read_buffer : List Byte}
    (hlength : read_buffer.length = r) :
    Transferred pokeCarry write_buffer slave idev peekCarry
      (found pokeCarry write_buffer s.pod.cpu.memory w) w r read_buffer bus (i2c_set_dev s idev)
      (i2c_write_read slave (i2c_set_dev s idev) pokeCarry peekCarry write_buffer w
        read_buffer r) := by
  have hchosen := i2c_set_dev_spec hs idev
  rw [← hchosen.memory]
  exact i2c_write_read_spec pokeCarry write_buffer hchosen.selected (hchosen.bus.trans hbus) hw hr
    hlength

theorem txrxTransfer_zero (g : ℕ → Byte) (hw : w ≠ 0) :
    txrxTransfer slave idev g w 0 bus =
      ⟨(softi2c_write slave idev g w bus).1, [], (softi2c_write slave idev g w bus).2⟩ := by
  rw [txrxTransfer, if_neg hw]
  split_ifs with h
  · rw [h]
    rfl
  · rfl

theorem write_agrees_iff (hw : w ≤ RCPOD_SCRATCHPAD_SIZE) :
    WriteAgrees slave pokeCarry peekCarry idev write_buffer bus w ↔
      4 ≤ w ∧ PokesRight slave pokeCarry idev write_buffer bus w := by
  rcases Nat.lt_or_ge 4 w with hlong | hshort
  · have hspec : ∀ {s}, Ready s → s.pod.bus = bus → _ := fun {s} hs hbus =>
      @i2c_write_read_ready slave pokeCarry peekCarry idev write_buffer bus s w 0 hs hbus hw
        (Nat.zero_le _) [] rfl
    constructor
    · intro h
      refine ⟨Nat.le_of_lt hlong, pokesRight_of_sent hw fun memory => ⟨_, List.prefix_refl _, ?_⟩⟩
      have hready := ready_unused memory bus
      have hbus := (h _ hready rfl).bus
      rw [i2cWrite_eq hready, if_neg (by omega), (hspec hready rfl).bus] at hbus
      have hsoft : (softi2c_write slave idev write_buffer w bus).1 =
        (txrxTransfer slave idev (found pokeCarry write_buffer memory w) w 0 bus).bus := hbus.symm
      rw [hsoft]
      exact txrxTransfer_grows bus _ (by omega) 0
    · rintro ⟨-, hright⟩ s hs hbus
      have hresult := hspec hs hbus
      have hT := @txrxTransfer_zero slave idev bus w
        (found pokeCarry write_buffer s.pod.cpu.memory w) (by omega)
      rw [softi2c_write_found hright] at hT
      rw [i2cWrite_eq hs, if_neg (by omega)]
      refine ⟨?_, hresult.skipped rfl, ?_, fun i hi => ?_⟩
      · rw [hresult.bus, hT]
      · rw [hresult.acks, hT]
      · rw [hresult.reads] at hi
        exact List.mem_range.mp hi
  · rw [write4_agrees_iff hshort, and_iff_left]
    exact fun i _ _ => misplaced_short hshort i

theorem exists_ne_data (hr : 0 < r) (f : ℕ → Byte) :
    ∃ read_buffer : List Byte, read_buffer.length = r ∧ (List.range r).map f ≠ read_buffer := by
  refine ⟨(List.range r).map (fun i => f i + 1), by simp, fun h => ?_⟩
  have hne : ∀ x : Byte, x ≠ x + 1 := by decide
  exact hne _ (List.map_inj_left.mp h 0 (List.mem_range.mpr hr))

theorem read8_agrees (hr : r ≤ 8) (hpos : 0 < r) :
    ReadAgrees slave pokeCarry peekCarry idev bus r := by
  intro s read_buffer hs hbus _
  have hchosen := i2c_set_dev_spec hs idev
  obtain ⟨hsame, hdata, hacks, hreads, -⟩ :=
    @i2c_read8_spec slave idev _ hchosen.selected r hr hpos read_buffer
  rw [hchosen.bus, hbus] at hsame hdata hacks
  rw [i2cRead_eq hs, if_pos ⟨hr, hpos⟩]
  refine ⟨hsame, hdata, hacks, fun i hi => ?_⟩
  rw [hreads] at hi
  exact absurd hi List.not_mem_nil

def spoiled (data : List Byte) (x : BitVec 9) : Byte := data.getD (x.toNat - 288) 0 + 1

theorem spoiled_place (data : List Byte) {i : ℕ} (hi : i < 224) :
    spoiled data (place true i) ≠ data.getD i 0 := by
  have hne : ∀ x : Byte, x + 1 ≠ x := by decide
  have hindex : (place true i).toNat - 288 = i := by
    rw [toNat_place hi]
    simp
  rw [spoiled, hindex]
  exact hne _

section Data

variable {R : Returned} {t : rcpod_dev} {g : ℕ → Byte} {read_buffer : List Byte}

theorem Transferred.data_eq
    (h : Transferred pokeCarry write_buffer slave idev peekCarry g w r read_buffer bus t R)
    (hpos : 0 < r) (hreads : ReadsBack slave idev g w bus) (hright : PeeksRight peekCarry r) :
    R.read_buffer = I2c.answers slave idev r (readBus slave idev g w bus) := by
  rw [h.data hpos, ← h.answers hpos hreads]
  refine List.map_congr_left fun i _ => ?_
  rw [misread_of_peeksRight hright]

theorem Transferred.peeksRight
    (h : Transferred pokeCarry write_buffer slave idev peekCarry g w r read_buffer bus t R)
    (hr : r ≤ RCPOD_SCRATCHPAD_SIZE) (hreads : ReadsBack slave idev g w bus)
    (hplaced : ∀ i < w, misplaced pokeCarry w i = false)
    (hmemory : t.pod.cpu.memory = spoiled (I2c.answers slave idev r (readBus slave idev g w bus)))
    (hdata : R.read_buffer = I2c.answers slave idev r (readBus slave idev g w bus)) :
    PeeksRight peekCarry r := by
  unfold RCPOD_SCRATCHPAD_SIZE at hr
  rcases Nat.eq_zero_or_pos r with rfl | hpos
  · exact fun j hj => absurd hj (Nat.not_lt_zero j)
  · rw [h.data hpos] at hdata
    refine peeksRight_of_data hdata fun i hi => ?_
    rw [h.others hpos hreads hplaced i hi, hmemory]
    exact spoiled_place _ (by omega)

end Data

theorem softi2c_read_buffer (h : AcceptsRead slave idev bus) {read_buffer : List Byte}
    (hlength : read_buffer.length = r) :
    (softi2c_read slave idev read_buffer r bus).read_buffer = answers slave idev r bus := by
  rw [softi2c_read_accepted _ _ h]
  exact (congrArg _ (List.drop_eq_nil_of_le (Nat.le_of_eq hlength))).trans (List.append_nil _)

theorem softi2c_read_bus (read_buffer read_buffer' : List Byte) :
    (softi2c_read slave idev read_buffer r bus).bus =
        (softi2c_read slave idev read_buffer' r bus).bus ∧
      (softi2c_read slave idev read_buffer r bus).acks =
        (softi2c_read slave idev read_buffer' r bus).acks := by
  by_cases h : AcceptsRead slave idev bus
  · rw [softi2c_read_accepted _ _ h, softi2c_read_accepted _ _ h]
    exact ⟨rfl, rfl⟩
  · rw [softi2c_read_refused _ _ h, softi2c_read_refused _ _ h]
    exact ⟨rfl, rfl⟩

theorem read_agrees_iff (hr : r ≤ RCPOD_SCRATCHPAD_SIZE) :
    ReadAgrees slave pokeCarry peekCarry idev bus r ↔
      0 < r ∧ (8 < r → AcceptsRead slave idev bus ∧ PeeksRight peekCarry r) := by
  have hspec : ∀ {s} {read_buffer : List Byte}, Ready s → s.pod.bus = bus →
      read_buffer.length = r → _ := fun {s read_buffer} hs hbus hlength =>
    @i2c_write_read_ready slave pokeCarry peekCarry idev (fun _ => 0) bus s 0 r hs hbus
      (Nat.zero_le _) hr read_buffer hlength
  have hreadsBack : ∀ g, AcceptsRead slave idev bus → ReadsBack slave idev g 0 bus :=
    fun g h => ⟨.inl rfl, h⟩
  rcases Nat.lt_or_ge 8 r with hlong | hshort
  · have hT : ∀ g, txrxTransfer slave idev g 0 r bus = softi2c_read slave idev [] r bus := by
      intro g
      rw [txrxTransfer, if_pos rfl, readPart, if_neg (by omega)]
    have hif : ¬(r ≤ 8 ∧ 0 < r) := by omega
    constructor
    · intro h
      have haccepts : AcceptsRead slave idev bus := by
        by_contra hrefused
        have hready := ready_unused (fun _ => 0) bus
        obtain ⟨read_buffer, hlength, hne⟩ := exists_ne_data (by omega : 0 < r) fun i =>
          transferred pokeCarry (fun _ => 0) slave (i2c_set_dev (unused (fun _ => 0) bus) idev) 0 r
            (place (misread peekCarry r i) i)
        have hdata := (h _ _ hready rfl hlength).read_buffer
        rw [i2cRead_eq hready, if_neg hif, (hspec hready rfl hlength).data (by omega),
          softi2c_read_refused _ _ hrefused] at hdata
        exact hne hdata
      have hready := ready_unused (spoiled (answers slave idev r bus)) bus
      have hlength : (List.replicate r (0 : Byte)).length = r := List.length_replicate
      have hdata := (h _ _ hready rfl hlength).read_buffer
      rw [i2cRead_eq hready, if_neg hif, softi2c_read_buffer haccepts hlength] at hdata
      exact ⟨by omega, fun _ => ⟨haccepts, (hspec hready rfl hlength).peeksRight hr
        (hreadsBack _ haccepts) (fun i hi => absurd hi (Nat.not_lt_zero i))
        (i2c_set_dev_spec hready idev).memory hdata⟩⟩
    · rintro ⟨hpos, h⟩ s read_buffer hs hbus hlength
      obtain ⟨haccepts, hright⟩ := h hlong
      have hresult := hspec hs hbus hlength
      obtain ⟨hsame, hacks⟩ := @softi2c_read_bus slave idev bus r [] read_buffer
      rw [i2cRead_eq hs, if_neg hif]
      refine ⟨?_, ?_, ?_, fun i hi => ?_⟩
      · rw [hresult.bus, hT, hsame]
      · rw [softi2c_read_buffer haccepts hlength]
        exact hresult.data_eq hpos (hreadsBack _ haccepts) hright
      · rw [hresult.acks, hT, hacks]
      · rw [hresult.reads] at hi
        exact List.mem_range.mp hi
  · rcases Nat.eq_zero_or_pos r with rfl | hpos
    · refine iff_of_false (fun h => ?_) (fun h => absurd h.1 (Nat.lt_irrefl 0))
      have hready := ready_unused (fun _ => 0) bus
      have hbus := (h _ [] hready rfl rfl).bus
      rw [i2cRead_eq hready, if_neg (by omega), (hspec hready rfl rfl).bus] at hbus
      have hlength := (@softi2c_read_grows slave idev bus [] 0).length_le
      rw [← hbus, length_addressed] at hlength
      change bus.length + 2 ≤ bus.length at hlength
      omega
    · exact iff_of_true (read8_agrees hshort hpos) ⟨hpos, fun h => absurd h (by omega)⟩

theorem softi2c_write_count_zero :
    (softi2c_write slave idev write_buffer w bus).2 = 0 ↔
      ¬Accepted slave idev write_buffer bus 0 := by
  rw [softi2c_write_eq, writeBytes, transmit, Accepted, writeBytes, Accepts]
  split_ifs with h <;> simp [h, Accepts]

theorem Accepts.take {pins : Pins} {bytes : List Byte} (h : Accepts slave pins bytes bus) (n : ℕ) :
    Accepts slave pins (bytes.take n) bus := by
  induction bytes generalizing bus n with
  | nil => simpa using h
  | cons b bytes ih =>
    cases n with
    | zero => trivial
    | succ n => exact ⟨h.1, ih h.2 n⟩

theorem Accepted.of_le {i : ℕ} (h : Accepted slave idev write_buffer bus w) (hi : i ≤ w) :
    Accepted slave idev write_buffer bus i := by
  rw [Accepted, ← take_writeBytes _ _ hi]
  exact Accepts.take h (i + 1)

theorem writeRead8_ready (hs : Ready s) (hbus : s.pod.bus = bus) (hr : r ≤ 8) (hpos : 0 < r)
    (read_buffer : List Byte) :
    let R := rcpod_I2CWriteRead slave s pokeCarry peekCarry idev write_buffer 1 read_buffer r
    let W := softi2c_write slave idev write_buffer 1 bus
    let T := softi2c_read slave idev read_buffer r W.1
    R.dev.pod.bus = (if W.2 = 2 then T.bus else W.1) ∧
      R.read_buffer = (if W.2 = 2 then T.read_buffer else read_buffer) ∧
      R.acks = (if W.2 = 2 then 3 * T.acks else 0) ∧ ∀ i ∈ R.reads, i < 1 := by
  have hchosen := i2c_set_dev_spec hs idev
  obtain ⟨hsame, hdata, hacks, hreads, -⟩ :=
    @i2c_write1_read8_spec slave idev _ hchosen.selected r hr hpos read_buffer write_buffer
  rw [hchosen.bus, hbus] at hsame hdata hacks
  rw [i2cWriteRead_eq hs, if_pos ⟨rfl, hr, hpos⟩]
  refine ⟨hsame, hdata, hacks, fun i hi => ?_⟩
  rw [hreads] at hi
  rw [List.mem_singleton.mp hi]
  exact Nat.one_pos

theorem writeRead8_agrees_iff (hr : r ≤ 8) (hpos : 0 < r) :
    WriteReadAgrees slave pokeCarry peekCarry idev write_buffer bus 1 r ↔
      (Accepted slave idev write_buffer bus 0 → Accepted slave idev write_buffer bus 1 ∧
        AcceptsRead slave idev (written idev write_buffer bus 1)) := by
  have hready := ready_unused (fun _ => 0) bus
  have hlength : (List.replicate r (0 : Byte)).length = r := List.length_replicate
  have hcount := (@writeRead8_ready slave pokeCarry peekCarry idev write_buffer bus _ r hready rfl
    hr hpos (List.replicate r 0)).2.2.1
  by_cases hone : Accepted slave idev write_buffer bus 1
  · simp only [hone, hone.of_le (Nat.zero_le 1), true_and, true_imp_iff]
    constructor
    · intro h
      by_contra hrefused
      have hacks := (h _ _ hready rfl hlength).acks
      rw [hcount, softi2c_write_accepted hone,
        softi2c_write_read_accepted bus hone, softi2c_read_refused _ _ hrefused,
        if_pos rfl] at hacks
      simp at hacks
    · intro haccepts s read_buffer hs hbus hrb
      obtain ⟨hsame, hdata, hacks, hreads⟩ :=
        @writeRead8_ready slave pokeCarry peekCarry idev write_buffer bus s r hs hbus hr hpos
          read_buffer
      rw [softi2c_write_accepted hone, if_pos rfl] at hsame hdata hacks
      rw [softi2c_write_read_accepted bus hone]
      refine ⟨hsame, hdata, hacks.trans ?_, hreads⟩
      rw [softi2c_read_accepted _ _ haccepts]
      rfl
  · have hne : (softi2c_write slave idev write_buffer 1 bus).2 ≠ 2 :=
      fun h => hone (softi2c_write_count_iff 1 |>.mp h)
    have hiff : (Accepted slave idev write_buffer bus 0 → Accepted slave idev write_buffer bus 1 ∧
        AcceptsRead slave idev (written idev write_buffer bus 1)) ↔
        (softi2c_write slave idev write_buffer 1 bus).2 = 0 := by
      rw [softi2c_write_count_zero]
      exact ⟨fun h h0 => hone (h h0).1, fun h h0 => absurd h0 h⟩
    rw [hiff]
    constructor
    · intro h
      have hacks := (h _ _ hready rfl hlength).acks
      rw [hcount, if_neg hne,
        softi2c_write_read_refused bus hone] at hacks
      exact hacks.symm
    · intro hzero s read_buffer hs hbus hrb
      obtain ⟨hsame, hdata, hacks, hreads⟩ :=
        @writeRead8_ready slave pokeCarry peekCarry idev write_buffer bus s r hs hbus hr hpos
          read_buffer
      rw [if_neg hne] at hsame hdata hacks
      rw [softi2c_write_read_refused bus hone]
      exact ⟨hsame, hdata, hacks.trans hzero.symm, hreads⟩

theorem softi2c_write_read_buffer
    (h : ¬(Accepted slave idev write_buffer bus w ∧
      AcceptsRead slave idev (written idev write_buffer bus w))) (read_buffer : List Byte) :
    (softi2c_write_read slave idev write_buffer w read_buffer r bus).read_buffer = read_buffer := by
  by_cases haccepted : Accepted slave idev write_buffer bus w
  · have hrefused : ¬AcceptsRead slave idev (written idev write_buffer bus w) :=
      fun hread => h ⟨haccepted, hread⟩
    rw [softi2c_write_read_accepted bus haccepted, softi2c_read_refused _ _ hrefused]
  · rw [softi2c_write_read_refused bus haccepted]

structure Scratched (slave : Slave) (pokeCarry peekCarry : ℕ → Bool) (idev : rcpod_i2c_dev)
    (write_buffer : ℕ → Byte) (bus : Bus) (w r : ℕ) : Prop where
  pos : 0 < w
  pokes : PokesRight slave pokeCarry idev write_buffer bus w
  refused : r = 0 → ¬Accepted slave idev write_buffer bus w
  accepted : 0 < r → Accepted slave idev write_buffer bus w ∧
    AcceptsRead slave idev (written idev write_buffer bus w) ∧ PeeksRight peekCarry r

theorem scratched_agrees (hw : w ≤ RCPOD_SCRATCHPAD_SIZE) (hr : r ≤ RCPOD_SCRATCHPAD_SIZE)
    (hlong : ¬(w = 1 ∧ r ≤ 8 ∧ 0 < r))
    (h : Scratched slave pokeCarry peekCarry idev write_buffer bus w r) :
    WriteReadAgrees slave pokeCarry peekCarry idev write_buffer bus w r := by
  intro s read_buffer hs hbus hlength
  have hpos := h.pos
  have hresult := @i2c_write_read_ready slave pokeCarry peekCarry idev write_buffer bus s w r hs
    hbus hw hr read_buffer hlength
  have hfound := softi2c_write_found h.pokes s.pod.cpu.memory
  rw [i2cWriteRead_eq hs, if_neg hlong]
  rcases Nat.eq_zero_or_pos r with rfl | hreads
  · have hT := @txrxTransfer_zero slave idev bus w
      (found pokeCarry write_buffer s.pod.cpu.memory w) (by omega)
    rw [hfound] at hT
    rw [softi2c_write_read_refused bus (h.refused rfl)]
    refine ⟨?_, hresult.skipped rfl, ?_, fun i hi => ?_⟩
    · rw [hresult.bus, hT]
    · rw [hresult.acks, hT]
    · rw [hresult.reads] at hi
      exact List.mem_range.mp hi
  · obtain ⟨haccepted, hread, hright⟩ := h.accepted hreads
    obtain ⟨hsame, hacks⟩ :=
      @softi2c_read_bus slave idev (written idev write_buffer bus w) r [] read_buffer
    rw [softi2c_write_accepted haccepted] at hfound
    have hT : txrxTransfer slave idev (found pokeCarry write_buffer s.pod.cpu.memory w) w r bus =
        { softi2c_read slave idev [] r (written idev write_buffer bus w) with
          acks := w + 1 +
            (softi2c_read slave idev [] r (written idev write_buffer bus w)).acks } := by
      rw [txrxTransfer, if_neg (by omega), hfound, if_pos rfl, readPart, if_neg (by omega)]
    have hbusread : readBus slave idev (found pokeCarry write_buffer s.pod.cpu.memory w) w bus =
        written idev write_buffer bus w := by
      rw [readBus, if_neg (by omega), hfound]
    have hback : ReadsBack slave idev (found pokeCarry write_buffer s.pod.cpu.memory w) w bus := by
      refine ⟨.inr (by rw [hfound]), ?_⟩
      rw [hbusread]
      exact hread
    rw [softi2c_write_read_accepted bus haccepted]
    refine ⟨?_, ?_, ?_, fun i hi => ?_⟩
    · rw [hresult.bus, hT, hsame]
    · rw [hresult.data_eq hreads hback hright, hbusread]
      exact (softi2c_read_buffer hread hlength).symm
    · rw [hresult.acks, hT, hacks]
    · rw [hresult.reads] at hi
      exact List.mem_range.mp hi

theorem scratched_of_agrees (hw : w ≤ RCPOD_SCRATCHPAD_SIZE) (hr : r ≤ RCPOD_SCRATCHPAD_SIZE)
    (hlong : ¬(w = 1 ∧ r ≤ 8 ∧ 0 < r))
    (h : WriteReadAgrees slave pokeCarry peekCarry idev write_buffer bus w r) :
    Scratched slave pokeCarry peekCarry idev write_buffer bus w r := by
  have hlength : (List.replicate r (0 : Byte)).length = r := List.length_replicate
  have hspec : ∀ memory {read_buffer : List Byte}, read_buffer.length = r →
      Transferred pokeCarry write_buffer slave idev peekCarry
        (found pokeCarry write_buffer memory w) w r read_buffer bus
        (i2c_set_dev (unused memory bus) idev)
        (rcpod_I2CWriteRead slave (unused memory bus) pokeCarry peekCarry idev write_buffer w
          read_buffer r) := by
    intro memory read_buffer hlength
    rw [i2cWriteRead_eq (ready_unused memory bus), if_neg hlong]
    exact i2c_write_read_ready (ready_unused memory bus) rfl hw hr hlength
  have hagrees : ∀ memory {read_buffer : List Byte}, read_buffer.length = r →
      Agrees w (rcpod_I2CWriteRead slave (unused memory bus) pokeCarry peekCarry idev write_buffer
        w read_buffer r) (softi2c_write_read slave idev write_buffer w read_buffer r bus) :=
    fun memory _ hlength => h _ _ (ready_unused memory bus) rfl hlength
  have hbus : ∀ memory, (txrxTransfer slave idev (found pokeCarry write_buffer memory w) w r
      bus).bus = (softi2c_write_read slave idev write_buffer w (List.replicate r 0) r bus).bus :=
    fun memory => (hspec memory hlength).bus.symm.trans (hagrees memory hlength).bus
  have hwrite : addressed bus slave idev (idev.address <<< 1) <+:
      (softi2c_write_read slave idev write_buffer w (List.replicate r 0) r bus).bus :=
    (softi2c_write_grows bus write_buffer w).trans (softi2c_write_read_grows bus _ w _ r)
  have hpos : 0 < w := by
    by_contra hzero
    rw [← hbus fun _ => 0, txrxTransfer, if_pos (by omega), readPart] at hwrite
    split_ifs at hwrite with h0
    · have hle := hwrite.length_le
      rw [length_addressed] at hle
      change bus.length + 2 ≤ bus.length at hle
      omega
    · exact addressed_ne bus hwrite (softi2c_read_grows bus [] r)
  have hpokes : PokesRight slave pokeCarry idev write_buffer bus w := by
    refine pokesRight_of_sent hw fun memory => ⟨_, softi2c_write_read_grows bus _ w
      (List.replicate r 0) r, ?_⟩
    rw [← hbus memory]
    exact txrxTransfer_grows bus _ (by omega) r
  refine ⟨hpos, hpokes, fun hr0 haccepted => ?_, fun hreads => ?_⟩
  · subst hr0
    have hzero := hbus fun _ => 0
    rw [txrxTransfer_zero _ (by omega), softi2c_write_found hpokes,
      softi2c_write_accepted haccepted, softi2c_write_read_accepted bus haccepted] at hzero
    have hle := (@softi2c_read_grows slave idev (written idev write_buffer bus w)
      (List.replicate 0 0) 0).length_le
    rw [length_addressed] at hle
    change _ = (softi2c_read slave idev (List.replicate 0 0) 0 _).bus at hzero
    rw [← hzero] at hle
    exact absurd hle (Nat.not_le.mpr (Nat.lt_add_of_pos_right Nat.two_pos))
  · have hboth : Accepted slave idev write_buffer bus w ∧
        AcceptsRead slave idev (written idev write_buffer bus w) := by
      by_contra hrefused
      obtain ⟨read_buffer, hrb, hne⟩ := exists_ne_data hreads fun i =>
        transferred pokeCarry write_buffer slave (i2c_set_dev (unused (fun _ => 0) bus) idev) w r
          (place (misread peekCarry r i) i)
      have hdata := (hagrees (fun _ => 0) hrb).read_buffer
      rw [(hspec _ hrb).data hreads, softi2c_write_read_buffer hrefused] at hdata
      exact hne hdata
    refine ⟨hboth.1, hboth.2, ?_⟩
    let memory := spoiled (answers slave idev r (written idev write_buffer bus w))
    have hfound := softi2c_write_found hpokes memory
    rw [softi2c_write_accepted hboth.1] at hfound
    have hbusread : readBus slave idev (found pokeCarry write_buffer memory w) w bus =
        written idev write_buffer bus w := by
      rw [readBus, if_neg (by omega), hfound]
    have hback : ReadsBack slave idev (found pokeCarry write_buffer memory w) w bus := by
      refine ⟨.inr (by rw [hfound]), ?_⟩
      rw [hbusread]
      exact hboth.2
    have hplaced : ∀ i < w, misplaced pokeCarry w i = false :=
      fun i hi => hpokes i hi (hboth.1.of_le (Nat.le_of_lt hi))
    refine (hspec memory hlength).peeksRight hr hback hplaced ?_ ?_
    · rw [hbusread, (i2c_set_dev_spec (ready_unused memory bus) idev).memory]
      rfl
    · rw [(hagrees memory hlength).read_buffer, softi2c_write_read_accepted bus hboth.1, hbusread]
      exact softi2c_read_buffer hboth.2 hlength

theorem write_read_agrees_iff (hw : w ≤ RCPOD_SCRATCHPAD_SIZE) (hr : r ≤ RCPOD_SCRATCHPAD_SIZE) :
    WriteReadAgrees slave pokeCarry peekCarry idev write_buffer bus w r ↔
      if w = 1 ∧ r ≤ 8 ∧ 0 < r then
        Accepted slave idev write_buffer bus 0 → Accepted slave idev write_buffer bus 1 ∧
          AcceptsRead slave idev (written idev write_buffer bus 1)
      else Scratched slave pokeCarry peekCarry idev write_buffer bus w r := by
  split_ifs with h
  · obtain ⟨rfl, h8, hpos⟩ := h
    exact writeRead8_agrees_iff h8 hpos
  · exact ⟨scratched_of_agrees hw hr h, scratched_agrees hw hr h⟩

end Equivalence

section Runs

inductive Call
  | write (idev : rcpod_i2c_dev) (write_buffer : ℕ → Byte) (write_count : ℕ)
  | read (idev : rcpod_i2c_dev) (read_buffer : List Byte)
  | writeRead (idev : rcpod_i2c_dev) (write_buffer : ℕ → Byte) (write_count : ℕ)
    (read_buffer : List Byte)

def Call.Fits : Call → Prop
  | .write _ _ w => w ≤ RCPOD_SCRATCHPAD_SIZE
  | .read _ read_buffer => read_buffer.length ≤ RCPOD_SCRATCHPAD_SIZE
  | .writeRead _ _ w read_buffer =>
    w ≤ RCPOD_SCRATCHPAD_SIZE ∧ read_buffer.length ≤ RCPOD_SCRATCHPAD_SIZE

variable (slave : Slave) (pokeCarry peekCarry : ℕ → Bool)

def perform (s : rcpod_dev) : Call → rcpod_dev
  | .write idev f w => (rcpod_I2CWrite slave s pokeCarry peekCarry idev f w).dev
  | .read idev read_buffer =>
    (rcpod_I2CRead slave s pokeCarry peekCarry idev read_buffer read_buffer.length).dev
  | .writeRead idev f w read_buffer =>
    (rcpod_I2CWriteRead slave s pokeCarry peekCarry idev f w read_buffer read_buffer.length).dev

variable {s : rcpod_dev}

theorem Keeps.ready {idev : rcpod_i2c_dev} {t : rcpod_dev} (hs : Ready s)
    (h : Keeps idev (i2c_set_dev s idev) t) : Ready t := by
  have hchosen := i2c_set_dev_spec hs idev
  refine ⟨?_, fun d hd => ?_, h.selected.BD0IAL⟩
  · rw [rcpod_HasAcceleratedI2C, h.bcdDevice, hchosen.bcdDevice]
    exact hs.accelerated
  · rw [h.last, hchosen.last] at hd
    obtain rfl := Option.some.inj hd
    exact h.selected.selects

theorem perform_ready (hs : Ready s) {c : Call} (hc : c.Fits) :
    Ready (perform slave pokeCarry peekCarry s c) := by
  cases c with
  | write idev f w =>
    have hselected := (i2c_set_dev_spec hs idev).selected
    rw [perform, i2cWrite_eq hs]
    split_ifs with h
    · exact (i2c_write4_spec hselected f h).2.2.ready hs
    · exact (i2c_write_read_ready hs rfl hc (Nat.zero_le _) rfl).keeps.ready hs
  | read idev read_buffer =>
    have hselected := (i2c_set_dev_spec hs idev).selected
    rw [perform, i2cRead_eq hs]
    split_ifs with h
    · exact (i2c_read8_spec hselected h.1 h.2 read_buffer).2.2.2.2.ready hs
    · exact (i2c_write_read_ready hs rfl (Nat.zero_le _) hc rfl).keeps.ready hs
  | writeRead idev f w read_buffer =>
    have hselected := (i2c_set_dev_spec hs idev).selected
    rw [perform, i2cWriteRead_eq hs]
    split_ifs with h
    · exact (i2c_write1_read8_spec hselected h.2.1 h.2.2 read_buffer f).2.2.2.2.ready hs
    · exact (i2c_write_read_ready hs rfl hc.1 hc.2 rfl).keeps.ready hs

end Runs

/-- The firmware leaves out a part without bytes, the short request counts three acknowledgements or
none, and the scratchpad is read back behind a refusal too. -/
theorem i2c_agrees_iff (slave : Slave) (pokeCarry peekCarry : ℕ → Bool) (idev : rcpod_i2c_dev)
    (write_buffer : ℕ → Byte) (bus : Bus) {w r : ℕ} (hw : w ≤ RCPOD_SCRATCHPAD_SIZE)
    (hr : r ≤ RCPOD_SCRATCHPAD_SIZE) :
    (WriteAgrees slave pokeCarry peekCarry idev write_buffer bus w ↔
      4 ≤ w ∧ PokesRight slave pokeCarry idev write_buffer bus w) ∧
    (ReadAgrees slave pokeCarry peekCarry idev bus r ↔
      0 < r ∧ (8 < r → AcceptsRead slave idev bus ∧ PeeksRight peekCarry r)) ∧
    (WriteReadAgrees slave pokeCarry peekCarry idev write_buffer bus w r ↔
      if w = 1 ∧ r ≤ 8 ∧ 0 < r then
        Accepted slave idev write_buffer bus 0 → Accepted slave idev write_buffer bus 1 ∧
          AcceptsRead slave idev (written idev write_buffer bus 1)
      else Scratched slave pokeCarry peekCarry idev write_buffer bus w r) :=
  ⟨write_agrees_iff hw, read_agrees_iff hr, write_read_agrees_iff hw hr⟩

theorem i2c_agrees_long :
    WriteAgrees ⟨fun _ _ => true, fun _ => 0x5A⟩ (fun _ => false) (fun _ => false) ⟨0, 8, 9, 0x50⟩
        (fun _ => 0) [] 5 ∧
      ReadAgrees ⟨fun _ _ => true, fun _ => 0x5A⟩ (fun _ => false) (fun _ => false)
        ⟨0, 8, 9, 0x50⟩ [] 9 ∧
      WriteReadAgrees ⟨fun _ _ => true, fun _ => 0x5A⟩ (fun _ => false) (fun _ => false)
        ⟨0, 8, 9, 0x50⟩ (fun _ => 0) [] 5 9 := by
  obtain ⟨hwrite, hread, hboth⟩ := @i2c_agrees_iff ⟨fun _ _ => true, fun _ => 0x5A⟩
    (fun _ => false) (fun _ => false) ⟨0, 8, 9, 0x50⟩ (fun _ => 0) [] 5 9 (by decide) (by decide)
  rw [if_neg (by decide)] at hboth
  have hpeeks : PeeksRight (fun _ => false) 9 := fun _ _ => rfl
  refine ⟨hwrite.mpr ⟨by decide, fun _ _ _ => rfl⟩, hread.mpr ⟨by decide, fun _ => ⟨rfl, hpeeks⟩⟩,
    hboth.mpr ⟨by decide, fun _ _ _ => rfl, fun h => absurd h (by decide), fun _ => ?_⟩⟩
  exact ⟨by simp [Accepted, writeBytes, Accepts, List.range_succ], rfl, hpeeks⟩

/-- A slave that refuses the one byte behind its address: one acknowledgement, of which the pod
tells nothing. -/
theorem i2c_write_read_disagrees :
    ¬∀ (slave : Slave) (idev : rcpod_i2c_dev) (write_buffer : ℕ → Byte) (w r : ℕ),
      w ≤ RCPOD_SCRATCHPAD_SIZE → r ≤ RCPOD_SCRATCHPAD_SIZE →
        WriteAgrees slave (fun _ => false) (fun _ => false) idev write_buffer [] w ∧
        ReadAgrees slave (fun _ => false) (fun _ => false) idev [] r ∧
        WriteReadAgrees slave (fun _ => false) (fun _ => false) idev write_buffer [] w r := by
  intro h
  have hboth := (h ⟨fun bus _ => bus.length = 1, fun _ => 0⟩ ⟨0, 8, 9, 0x50⟩ (fun _ => 0) 1 1
    (by decide) (by decide)).2.2
  have hacks := (hboth (unused (fun _ => 0) []) [0] (ready_unused _ _) rfl rfl).acks
  exact absurd hacks (by decide +kernel)

end NaviMisc.Rcpod.I2c
