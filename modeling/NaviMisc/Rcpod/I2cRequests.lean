import Mathlib.Data.List.Nodup
import NaviMisc.Rcpod.I2c

/-!
What the requests for I2C transfers do, put by the transactions of the host.
-/

namespace NaviMisc.Rcpod.I2c

open Lib.Pic Var Serial

section Transmit

variable (slave : Slave) (pins : Pins)

def transmit : List Byte → Bus → Bus × ℕ
  | [], bus => (bus, 0)
  | b :: bytes, bus =>
    if slave.acknowledges bus b then
      ((transmit bytes (put pins (.byte b true) bus)).1,
        (transmit bytes (put pins (.byte b true) bus)).2 + 1)
    else (put pins (.byte b false) bus, 0)

def Accepts : List Byte → Bus → Prop
  | [], _ => True
  | b :: bytes, bus => slave.acknowledges bus b ∧ Accepts bytes (put pins (.byte b true) bus)

def sent (bytes : List Byte) (bus : Bus) : Bus := bus ++ bytes.map fun b => (pins, .byte b true)

variable {slave pins}

theorem transmit_of_accepts {bytes : List Byte} {bus : Bus} (h : Accepts slave pins bytes bus) :
    transmit slave pins bytes bus = (sent pins bytes bus, bytes.length) := by
  induction bytes generalizing bus with
  | nil => simp [transmit, sent]
  | cons b bytes ih =>
    rw [transmit, if_pos h.1, ih h.2]
    simp [sent, put]

theorem transmit_count_le (bytes : List Byte) (bus : Bus) :
    (transmit slave pins bytes bus).2 ≤ bytes.length := by
  induction bytes generalizing bus with
  | nil => exact Nat.le_refl 0
  | cons b bytes ih =>
    rw [transmit]
    split_ifs
    · exact Nat.succ_le_succ (ih _)
    · exact Nat.zero_le _

theorem transmit_count_iff (bytes : List Byte) (bus : Bus) :
    (transmit slave pins bytes bus).2 = bytes.length ↔ Accepts slave pins bytes bus := by
  induction bytes generalizing bus with
  | nil => simp [transmit, Accepts]
  | cons b bytes ih =>
    rw [transmit, Accepts, List.length_cons]
    split_ifs with h
    · rw [Nat.add_right_cancel_iff, ih]
      simp [h]
    · simp [h]

theorem transmit_grows (bytes : List Byte) (bus : Bus) :
    bus <+: (transmit slave pins bytes bus).1 := by
  induction bytes generalizing bus with
  | nil => exact List.prefix_refl bus
  | cons b bytes ih =>
    rw [transmit]
    split_ifs
    · exact (List.prefix_append bus _).trans (ih _)
    · exact List.prefix_append bus _

theorem transmit_cons_grows (b : Byte) (bytes : List Byte) (bus : Bus) :
    bus ++ [(pins, .byte b (slave.acknowledges bus b))] <+:
      (transmit slave pins (b :: bytes) bus).1 := by
  rw [transmit]
  split_ifs with h
  · rw [h]
    exact transmit_grows bytes _
  · rw [Bool.not_eq_true] at h
    rw [h]
    exact List.prefix_refl _

theorem transmit_congr {xs ys : List Byte} {bus : Bus} (hlength : xs.length = ys.length)
    (h : ∀ i < xs.length, Accepts slave pins (xs.take i) bus → ys[i]? = xs[i]?) :
    transmit slave pins ys bus = transmit slave pins xs bus := by
  induction xs generalizing ys bus with
  | nil => rw [List.length_eq_zero_iff.mp hlength.symm]
  | cons x xs ih =>
    cases ys with
    | nil => simp at hlength
    | cons y ys =>
      have hhead := h 0 (by simp) trivial
      simp only [List.getElem?_cons_zero, Option.some.injEq] at hhead
      subst hhead
      rw [transmit, transmit]
      split_ifs with hack
      · rw [ih (by simpa using hlength) fun i hi haccepts =>
          h (i + 1) (by simpa using hi) ⟨hack, haccepts⟩]
      · rfl

theorem eq_of_transmit {xs ys : List Byte} {bus b : Bus} (hlength : xs.length = ys.length)
    (hx : (transmit slave pins xs bus).1 <+: b) (hy : (transmit slave pins ys bus).1 <+: b) :
    ∀ i < xs.length, Accepts slave pins (xs.take i) bus → ys[i]? = xs[i]? := by
  induction xs generalizing ys bus with
  | nil => simp
  | cons x xs ih =>
    cases ys with
    | nil => simp at hlength
    | cons y ys =>
      have hfirst := List.prefix_of_prefix_length_le
        ((transmit_cons_grows x xs bus).trans hx) ((transmit_cons_grows y ys bus).trans hy)
        (by simp)
      have hxy := hfirst.eq_of_length (by simp)
      simp only [List.append_cancel_left_eq, List.cons.injEq, Prod.mk.injEq, Signal.byte.injEq,
        true_and, and_true] at hxy
      obtain ⟨rfl, -⟩ := hxy
      intro i hi haccepts
      cases i with
      | zero => rfl
      | succ i =>
        rw [List.take_succ_cons, Accepts] at haccepts
        rw [transmit, if_pos haccepts.1] at hx hy
        exact ih (by simpa using hlength) hx hy i (by simpa using hi) haccepts.2

end Transmit

section Transactions

variable (slave : Slave)

def writeBytes (address : Byte) (write_buffer : ℕ → Byte) (n : ℕ) : List Byte :=
  (address <<< 1) :: (List.range n).map write_buffer

theorem softWrites_eq (pins : Pins) (f : ℕ → Byte) (n i : ℕ) (bus : Bus) :
    softWrites slave pins f n i bus =
      (put pins .stop (transmit slave pins ((List.range' i n).map f) bus).1,
        i + 1 + (transmit slave pins ((List.range' i n).map f) bus).2) := by
  induction n generalizing i bus with
  | zero => rfl
  | succ n ih =>
    rw [List.range'_succ, List.map_cons, softWrites, transmit, write_byte]
    cases slave.acknowledges bus (f i) with
    | false => rfl
    | true =>
      simp only [if_true]
      rw [ih, Nat.add_comm (transmit _ _ _ _).2, Nat.add_assoc (i + 1)]

theorem softi2c_write_eq (idev : rcpod_i2c_dev) (f : ℕ → Byte) (n : ℕ) (bus : Bus) :
    softi2c_write slave idev f n bus =
      (put idev.pins .stop
        (transmit slave idev.pins (writeBytes idev.address f n) (put idev.pins .start bus)).1,
        (transmit slave idev.pins (writeBytes idev.address f n) (put idev.pins .start bus)).2) := by
  rw [softi2c_write, writeBytes, transmit, write_byte, List.range_eq_range']
  cases slave.acknowledges (put idev.pins .start bus) (idev.address <<< 1) with
  | false => rfl
  | true =>
    simp only [if_true]
    rw [softWrites_eq, Nat.zero_add, Nat.add_comm 1]

theorem add_ofNat_succ (x : Byte) (n : ℕ) :
    x + BitVec.ofNat 8 (n + 1) = x + 1 + BitVec.ofNat 8 n := by
  rw [Nat.add_comm n 1, BitVec.ofNat_add, ← BitVec.add_assoc]
  rfl

theorem i2c_Write_loop_eq (indf : ℕ → Byte) (n j : ℕ) (s : Master) :
    i2c_Write_loop slave indf n j s =
      { s with
        bus := put s.pins .stop (transmit slave s.pins ((List.range' j n).map indf) s.bus).1
        i2c_ack_count := s.i2c_ack_count +
          BitVec.ofNat 8 (transmit slave s.pins ((List.range' j n).map indf) s.bus).2 } := by
  induction n generalizing j s with
  | zero => simp [i2c_Write_loop, Master.put, transmit]
  | succ n ih =>
    rw [List.range'_succ, List.map_cons, i2c_Write_loop, transmit, i2c_write_byte, write_byte]
    cases hack : slave.acknowledges s.bus (indf j) with
    | false => simp [Master.put, Master.pins]
    | true =>
      simp only [if_true]
      rw [ih, add_ofNat_succ]
      rfl

theorem i2c_Write_eq (indf : ℕ → Byte) (w : Byte) (s : Master) :
    i2c_Write slave indf w s =
      { s with
        bus := put s.pins .stop (transmit slave s.pins (writeBytes s.i2c_address indf w.toNat)
          (put s.pins .start s.bus)).1
        i2c_ack_count := s.i2c_ack_count +
          BitVec.ofNat 8 (transmit slave s.pins (writeBytes s.i2c_address indf w.toNat)
            (put s.pins .start s.bus)).2 } := by
  rw [i2c_Write, writeBytes, transmit, i2c_write_byte, write_byte, List.range_eq_range']
  have hbus : (s.put .start).bus = put s.pins .start s.bus := rfl
  rw [hbus]
  cases hack : slave.acknowledges (put s.pins .start s.bus) (s.i2c_address <<< 1) with
  | false => simp [Master.put, Master.pins]
  | true =>
    simp only [if_true]
    rw [i2c_Write_loop_eq, add_ofNat_succ]
    rfl

theorem length_softReads (pins : Pins) (n : ℕ) (bus : Bus) :
    (softReads slave pins n bus).2.length = n := by
  induction n generalizing bus with
  | zero => rfl
  | succ n ih => exact congrArg (· + 1) (ih _)

def targets (irp : Bool) (fsr : Byte) (n : ℕ) : List (BitVec 9) :=
  (List.range n).map fun j => BitVec.ofBool irp ++ (fsr + BitVec.ofNat 8 j)

theorem targets_succ (irp : Bool) (fsr : Byte) (n : ℕ) :
    targets irp fsr (n + 1) = (BitVec.ofBool irp ++ fsr) :: targets irp (fsr + 1) n := by
  rw [targets, List.range_succ_eq_map, List.map_cons, List.map_map]
  simp only [Function.comp_def, Nat.succ_eq_add_one, add_ofNat_succ]
  simp [targets]

theorem i2c_Read_loop_eq (irp : Bool) (n : ℕ) (fsr : Byte) (s : Master) :
    i2c_Read_loop slave irp n fsr s =
      { s with
        cpu := { s.cpu with
          memory := writeAll s.cpu.memory
            ((targets irp fsr n).zip (softReads slave s.pins n s.bus).2) }
        bus := (softReads slave s.pins n s.bus).1 } := by
  induction n generalizing fsr s with
  | zero => rfl
  | succ n ih =>
    rw [i2c_Read_loop, softReads, targets_succ, i2c_read_byte, read_byte]
    cases n with
    | zero => rfl
    | succ n =>
      simp only [Nat.succ_ne_zero, if_false]
      rw [ih]
      rfl

def AcceptsRead (idev : rcpod_i2c_dev) (bus : Bus) : Prop :=
  slave.acknowledges (put idev.pins .start bus) (idev.address <<< 1 ||| 1)

def answered (idev : rcpod_i2c_dev) (n : ℕ) (bus : Bus) : Bus × List Byte :=
  softReads slave idev.pins n
    (put idev.pins (.byte (idev.address <<< 1 ||| 1) true) (put idev.pins .start bus))

def answers (idev : rcpod_i2c_dev) (n : ℕ) (bus : Bus) : List Byte := (answered slave idev n bus).2

def Master.Selects (s : Master) (idev : rcpod_i2c_dev) : Prop :=
  s.pins = idev.pins ∧ s.i2c_address = idev.address

variable {slave} {idev : rcpod_i2c_dev} {bus : Bus} (read_buffer : List Byte) (n : ℕ)

theorem length_answers : (answers slave idev n bus).length = n := length_softReads slave _ _ _

theorem softi2c_read_accepted (h : AcceptsRead slave idev bus) :
    softi2c_read slave idev read_buffer n bus =
      ⟨put idev.pins .stop (answered slave idev n bus).1,
        answers slave idev n bus ++ read_buffer.drop n, 1⟩ := by
  rw [AcceptsRead] at h
  simp only [softi2c_read, write_byte, h, if_true]
  rfl

theorem softi2c_read_refused (h : ¬AcceptsRead slave idev bus) :
    softi2c_read slave idev read_buffer n bus =
      ⟨put idev.pins .stop (put idev.pins (.byte (idev.address <<< 1 ||| 1) false)
        (put idev.pins .start bus)), read_buffer, 0⟩ := by
  rw [AcceptsRead, Bool.not_eq_true] at h
  simp only [softi2c_read, write_byte, h, Bool.false_eq_true, if_false]

theorem i2c_Read_eq {s : Master} (hs : s.Selects idev) (irp : Bool) (fsr w : Byte) :
    i2c_Read slave irp fsr w s =
      let start := put idev.pins .start s.bus
      let r := write_byte slave idev.pins (idev.address <<< 1 ||| 1) start
      if r.2 then
        (i2c_Read_loop slave irp w.toNat fsr
          { s with bus := r.1, i2c_ack_count := s.i2c_ack_count + 1 }).put .stop
      else { s with bus := put idev.pins .stop r.1 } := by
  obtain ⟨hpins, haddress⟩ := hs
  rw [← hpins, ← haddress]
  rfl

theorem i2c_Read_accepted {s : Master} (hs : s.Selects idev) (h : AcceptsRead slave idev s.bus)
    (irp : Bool) (fsr w : Byte) :
    i2c_Read slave irp fsr w s =
      { s with
        cpu := { s.cpu with
          memory := writeAll s.cpu.memory
            ((targets irp fsr w.toNat).zip (answers slave idev w.toNat s.bus)) }
        bus := (softi2c_read slave idev read_buffer w.toNat s.bus).bus
        i2c_ack_count := s.i2c_ack_count + 1 } := by
  rw [i2c_Read_eq hs, softi2c_read_accepted read_buffer w.toNat h]
  rw [AcceptsRead] at h
  simp only [write_byte, h, if_true]
  rw [i2c_Read_loop_eq, answers, answered, ← hs.1]
  rfl

theorem i2c_Read_refused {s : Master} (hs : s.Selects idev) (h : ¬AcceptsRead slave idev s.bus)
    (irp : Bool) (fsr w : Byte) :
    i2c_Read slave irp fsr w s =
      { s with bus := (softi2c_read slave idev read_buffer w.toNat s.bus).bus } := by
  rw [i2c_Read_eq hs, softi2c_read_refused read_buffer w.toNat h]
  rw [AcceptsRead, Bool.not_eq_true] at h
  simp only [write_byte, h, Bool.false_eq_true, if_false]

end Transactions

section Memory

variable {memory : BitVec 9 → Byte} {keys : List (BitVec 9)} {data : List Byte}

theorem writeAll_of_notMem {x : BitVec 9} (h : x ∉ keys) :
    writeAll memory (keys.zip data) x = memory x := by
  rcases writeAll_mem memory (keys.zip data) x with hsame | hmem
  · exact hsame
  · exact absurd (List.of_mem_zip hmem).1 h

theorem map_writeAll (hnodup : keys.Nodup) (hlength : keys.length = data.length) :
    keys.map (writeAll memory (keys.zip data)) = data := by
  induction keys generalizing memory data with
  | nil => exact (List.length_eq_zero_iff.mp hlength.symm).symm
  | cons k keys ih =>
    cases data with
    | nil => simp at hlength
    | cons d data =>
      obtain ⟨hk, hkeys⟩ := List.nodup_cons.mp hnodup
      rw [List.zip_cons_cons, writeAll, List.map_cons, ih hkeys (by simpa using hlength),
        writeAll_of_notMem hk, Function.update_self]

theorem nodup_targets (irp : Bool) (fsr : Byte) {n : ℕ} (h : n ≤ 256) :
    (targets irp fsr n).Nodup := by
  apply List.Nodup.map_on _ List.nodup_range
  intro i hi j hj hij
  rw [List.mem_range] at hi hj
  have hlow : ∀ irp : Bool, ∀ x : Byte, (BitVec.ofBool irp ++ x).setWidth 8 = x := by decide
  have hsum := congrArg (BitVec.setWidth 8) hij
  rw [hlow, hlow, BitVec.add_right_inj, ← BitVec.toNat_inj, BitVec.toNat_ofNat,
    BitVec.toNat_ofNat] at hsum
  omega

def place (flipped : Bool) (i : ℕ) : BitVec 9 :=
  BitVec.ofNat 9 (RCPOD_REG_SCRATCHPAD + i + 256 * flipped.toNat)

theorem toNat_place {flipped : Bool} {i : ℕ} (h : i < 224) :
    (place flipped i).toNat = 32 + i + 256 * flipped.toNat := by
  have hflipped := flipped.toNat_le
  rw [place, BitVec.toNat_ofNat, RCPOD_REG_SCRATCHPAD]
  omega

theorem place_inj {b b' : Bool} {i j : ℕ} (hi : i < 224) (hj : j < 224)
    (h : place b i = place b' j) : b = b' ∧ i = j := by
  have hnat := congrArg BitVec.toNat h
  rw [toNat_place hi, toNat_place hj] at hnat
  cases b <;> cases b' <;> simp at hnat ⊢ <;> omega

theorem scratchpad_address {i : ℕ} (h : i < 224) :
    BitVec.ofBool false ++ (0x20 + BitVec.ofNat 8 i) = place false i := by
  have hnat : ∀ x : Byte, (BitVec.ofBool false ++ x).toNat = x.toNat := by decide
  have h32 : (0x20 : Byte).toNat = 32 := rfl
  rw [← BitVec.toNat_inj, hnat, toNat_place h, BitVec.toNat_add, BitVec.toNat_ofNat, h32]
  simp
  omega

theorem targets_scratchpad {n : ℕ} (h : n ≤ 224) :
    targets false 0x20 n = (List.range n).map (place false) :=
  List.map_congr_left fun _ hi =>
    scratchpad_address (Nat.lt_of_lt_of_le (List.mem_range.mp hi) h)

theorem advance_true : ∀ p : BitVec 9, p.toNat % 256 + 1 < 256 → advance true p = p + 257#9 := by
  decide +kernel

theorem advance_ofNat_eq (carry : Bool) {a : ℕ} (h : a % 256 + 1 < 256) :
    advance carry (BitVec.ofNat 9 a) = BitVec.ofNat 9 (a + 1 + 256 * carry.toNat) := by
  cases carry with
  | false => exact advance_ofNat h
  | true =>
    rw [advance_true _ (by rw [BitVec.toNat_ofNat]; omega), ← BitVec.ofNat_add]
    rfl

theorem walk_ofNat (carry : Bool) (a : ℕ) {n : ℕ} (h : a % 256 + n ≤ 256) :
    walk carry (BitVec.ofNat 9 a) n =
      (List.range n).map fun j => BitVec.ofNat 9 (a + j + 256 * (carry && j % 2 == 1).toNat) := by
  induction n generalizing a with
  | zero => rfl
  | succ n ih =>
    rw [walk, List.range_succ_eq_map, List.map_cons, List.map_map]
    congr 1
    · simp
    · cases n with
      | zero => rfl
      | succ n =>
        rw [advance_ofNat_eq carry (by omega), ih _ (by omega)]
        apply List.map_congr_left
        intro j _
        rw [← BitVec.toNat_inj, Function.comp_apply, BitVec.toNat_ofNat, BitVec.toNat_ofNat]
        have hodd : ((j + 1) % 2 == 1) = !(j % 2 == 1) := by
          rcases Nat.mod_two_eq_zero_or_one j with hj | hj <;> simp [Nat.add_mod, hj]
        rw [Nat.succ_eq_add_one, hodd]
        cases carry <;> cases j % 2 == 1 <;> simp <;> omega

theorem consecutive_ofNat (a n : ℕ) :
    consecutive (BitVec.ofNat 9 a) n = (List.range n).map fun j => BitVec.ofNat 9 (a + j) := by
  induction n generalizing a with
  | zero => rfl
  | succ n ih =>
    rw [consecutive, ofNat_succ, ih, List.range_succ_eq_map, List.map_cons, List.map_map]
    congr 1
    apply List.map_congr_left
    intro j _
    rw [Function.comp_apply, Nat.succ_eq_add_one, Nat.add_right_comm, Nat.add_assoc]

theorem advance_four (carry : Bool) {a : ℕ} (h : a % 256 + 4 < 256) :
    advance carry (advance carry (advance carry (advance carry (BitVec.ofNat 9 a)))) =
      BitVec.ofNat 9 (a + 4) := by
  rw [advance_ofNat_eq carry (by omega), advance_ofNat_eq carry (by omega),
    advance_ofNat_eq carry (by omega), advance_ofNat_eq carry (by omega), ← BitVec.toNat_inj,
    BitVec.toNat_ofNat, BitVec.toNat_ofNat]
  omega

variable (carry : ℕ → Bool)

theorem restAddresses_ofNat (k : ℕ) {a n : ℕ} (h : a + n < 256) :
    restAddresses carry k (BitVec.ofNat 9 a) (a + 1) n =
      (List.range n).map fun j => BitVec.ofNat 9
        (a + 1 + j + 256 * (carry (k + j / 4) && j % 2 == 0 && j < 4 * (n / 4)).toNat) := by
  induction n using Nat.strongRecOn generalizing k a with
  | ind n ih =>
    rcases Nat.lt_or_ge n 4 with hn | hn
    · rw [restAddresses_short carry k _ _ hn, consecutive_ofNat, Nat.div_eq_of_lt hn]
      simp
    · obtain ⟨n, rfl⟩ := Nat.exists_eq_add_of_le' hn
      rw [restAddresses, advance_four _ (by omega), advance_ofNat_eq _ (by omega),
        walk_ofNat _ _ (by omega), show a + 1 + 4 = a + 4 + 1 by omega,
        ih n (by omega) (k + 1) (by omega), Nat.add_comm n 4, List.range_add, List.map_append,
        List.map_map]
      congr 1
      · apply List.map_congr_left
        intro j hj
        rw [List.mem_range] at hj
        have hblock : j < 4 * ((4 + n) / 4) := by omega
        rw [Nat.div_eq_of_lt hj, decide_eq_true hblock, ← BitVec.toNat_inj, BitVec.toNat_ofNat,
          BitVec.toNat_ofNat, Nat.add_zero, Bool.and_true]
        rcases Nat.mod_two_eq_zero_or_one j with h2 | h2 <;> cases carry k <;> simp [h2] <;> omega
      · apply List.map_congr_left
        intro j _
        have hdiv : k + (4 + j) / 4 = k + 1 + j / 4 := by omega
        have hmod : (4 + j) % 2 = j % 2 := by omega
        have hlt : (4 + j < 4 * ((4 + n) / 4)) = (j < 4 * (n / 4)) := by
          rw [eq_iff_iff]
          omega
        simp only [Function.comp_apply, hdiv, hmod, hlt]
        congr 2
        omega

def misplaced (w i : ℕ) : Bool := carry ((i + 3) / 4) && i % 2 == 1 && i ≤ 4 * ((w - 1) / 4)

theorem pokeAddresses_scratchpad {w : ℕ} (h : w ≤ RCPOD_SCRATCHPAD_SIZE) :
    pokeAddresses carry RCPOD_REG_SCRATCHPAD w =
      (List.range w).map fun i => place (misplaced carry w i) i := by
  unfold RCPOD_SCRATCHPAD_SIZE at h
  cases w with
  | zero => rfl
  | succ w =>
    rw [pokeAddresses, restAddresses_ofNat carry 1 (by unfold RCPOD_REG_SCRATCHPAD; omega),
      List.range_succ_eq_map, List.map_cons, List.map_map]
    congr 1
    · simp [place, misplaced]
    · apply List.map_congr_left
      intro j _
      have hdiv : (j + 1 + 3) / 4 = 1 + j / 4 := by omega
      have hmod : ((j + 1) % 2 == 1) = (j % 2 == 0) := by
        rcases Nat.mod_two_eq_zero_or_one j with h2 | h2 <;> simp [Nat.add_mod, h2]
      have hlt : (j + 1 ≤ 4 * ((w + 1 - 1) / 4)) = (j < 4 * (w / 4)) := rfl
      simp only [Function.comp_apply, place, misplaced, Nat.succ_eq_add_one, hdiv, hmod, hlt]
      congr 2
      omega

def misread (r i : ℕ) : Bool := carry (i / 8) && i % 2 == 1 && i < 8 * (r / 8)

theorem peekAddresses_ofNat (k : ℕ) {a n : ℕ} (h : a + n ≤ 256) :
    peekAddresses carry k a n =
      (List.range n).map fun i => BitVec.ofNat 9
        (a + i + 256 * (misread (fun j => carry (k + j)) n i).toNat) := by
  induction n using Nat.strongRecOn generalizing k a with
  | ind n ih =>
    rcases Nat.lt_or_ge n 8 with hn | hn
    · rw [peekAddresses_short carry k _ hn, consecutive_ofNat]
      simp [misread, Nat.div_eq_of_lt hn]
    · obtain ⟨n, rfl⟩ := Nat.exists_eq_add_of_le' hn
      rw [peekAddresses, walk_ofNat _ _ (by omega), ih n (by omega) (k + 1) (by omega),
        Nat.add_comm n 8, List.range_add, List.map_append, List.map_map]
      congr 1
      · apply List.map_congr_left
        intro j hj
        rw [List.mem_range] at hj
        have hblock : j < 8 * ((8 + n) / 8) := by omega
        simp only [misread, Nat.div_eq_of_lt hj, decide_eq_true hblock, Nat.add_zero,
          Bool.and_true]
      · apply List.map_congr_left
        intro j _
        have hdiv : k + (8 + j) / 8 = k + 1 + j / 8 := by omega
        have hmod : (8 + j) % 2 = j % 2 := by omega
        have hlt : (8 + j < 8 * ((8 + n) / 8)) = (j < 8 * (n / 8)) := by
          rw [eq_iff_iff]
          omega
        simp only [Function.comp_apply, misread, hdiv, hmod, hlt]
        congr 2
        omega

end Memory

section Scratchpad

variable (carry : ℕ → Bool) (f : ℕ → Byte) (cpu : Firmware) {w : ℕ}

theorem nodup_places (flipped : ℕ → Bool) {n : ℕ} (h : n ≤ 224) :
    ((List.range n).map fun i => place (flipped i) i).Nodup := by
  apply List.Nodup.map_on _ List.nodup_range
  intro i hi j hj hij
  rw [List.mem_range] at hi hj
  exact (place_inj (by omega) (by omega) hij).2

theorem poked_memory (hw : w ≤ RCPOD_SCRATCHPAD_SIZE) :
    (rcpod_PokeBuffer carry RCPOD_REG_SCRATCHPAD ((List.range w).map f) cpu).memory =
      writeAll cpu.memory (((List.range w).map fun i => place (misplaced carry w i) i).zip
        ((List.range w).map f)) := by
  rw [pokeBuffer_memory, List.length_map, List.length_range, pokeAddresses_scratchpad carry hw]

def found (memory : BitVec 9 → Byte) (w i : ℕ) : Byte :=
  if misplaced carry w i then memory (place false i) else f i

theorem poked_scratchpad (hw : w ≤ RCPOD_SCRATCHPAD_SIZE) {i : ℕ} (hi : i < w) :
    (rcpod_PokeBuffer carry RCPOD_REG_SCRATCHPAD ((List.range w).map f) cpu).memory
      (place false i) = found carry f cpu.memory w i := by
  rw [poked_memory carry f cpu hw, found]
  unfold RCPOD_SCRATCHPAD_SIZE at hw
  split_ifs with hmis
  · apply writeAll_of_notMem
    rw [List.mem_map]
    rintro ⟨j, hj, hplace⟩
    rw [List.mem_range] at hj
    obtain ⟨hflip, rfl⟩ := place_inj (by omega) (by omega) hplace
    exact absurd (hmis.symm.trans hflip) (by decide)
  · have hmap := @map_writeAll cpu.memory _ ((List.range w).map f)
      (nodup_places (misplaced carry w) (by omega : w ≤ 224)) (by simp)
    rw [List.map_map, List.map_inj_left] at hmap
    have hget := hmap i (List.mem_range.mpr hi)
    rw [Bool.not_eq_true] at hmis
    rwa [Function.comp_apply, hmis] at hget

theorem poked_flipped (hw : w ≤ RCPOD_SCRATCHPAD_SIZE) (h : ∀ i < w, misplaced carry w i = false)
    {i : ℕ} (hi : i < 224) :
    (rcpod_PokeBuffer carry RCPOD_REG_SCRATCHPAD ((List.range w).map f) cpu).memory
      (place true i) = cpu.memory (place true i) := by
  rw [poked_memory carry f cpu hw]
  unfold RCPOD_SCRATCHPAD_SIZE at hw
  apply writeAll_of_notMem
  rw [List.mem_map]
  rintro ⟨j, hj, hplace⟩
  rw [List.mem_range] at hj
  have hflip := (place_inj (by omega) (by omega) hplace).1
  rw [h j hj] at hflip
  exact absurd hflip (by decide)

theorem pokeRest_BD0IAL (k address : ℕ) (buffer : List Byte) (s : Firmware) :
    (pokeRest carry k address buffer s).file BD0IAL = s.file BD0IAL := by
  induction k, address, buffer, s using pokeRest.induct carry with
  | case1 k address data0 data1 data2 data3 buffer s ih =>
    rw [pokeRest, ih, rcpod_Poke4, request_Poke4_eq]
    simp [pokeNext_file, setup]
  | case2 k address data buffer s hshort ih =>
    rw [pokeRest, ih, rcpod_Poke]
    · simp [request_Poke, setup]
    · exact hshort
  | case3 => rfl

theorem rcpod_PokeBuffer_BD0IAL (address : ℕ) (buffer : List Byte) :
    (rcpod_PokeBuffer carry address buffer cpu).file BD0IAL = cpu.file BD0IAL := by
  cases buffer with
  | nil => rfl
  | cons data buffer =>
    rw [rcpod_PokeBuffer, pokeRest_BD0IAL, rcpod_Poke]
    simp [request_Poke, setup]

theorem place_ne_endpoint {b : Bool} {i j : ℕ} (hi : i < 150) (hj : j < 8) :
    place b i ≠ endpoint 0xC0 j := by
  intro h
  have hnat := congrArg BitVec.toNat h
  have hhigh : ∀ x : Byte, (BitVec.ofBool true ++ x).toNat = 256 + x.toNat := by decide
  have hC0 : (0xC0 : Byte).toNat = 192 := rfl
  have hb := b.toNat_le
  rw [toNat_place (by omega), endpoint, hhigh, BitVec.toNat_add, BitVec.toNat_ofNat, hC0] at hnat
  omega

theorem peeked (hbuffer : cpu.file BD0IAL = 0xC0) {r : ℕ} (hr : r ≤ RCPOD_SCRATCHPAD_SIZE) :
    (rcpod_PeekBuffer carry RCPOD_REG_SCRATCHPAD r cpu).2 =
        (List.range r).map (fun i => cpu.memory (place (misread carry r i) i)) ∧
      (rcpod_PeekBuffer carry RCPOD_REG_SCRATCHPAD r cpu).1.file BD0IAL = 0xC0 := by
  unfold RCPOD_SCRATCHPAD_SIZE at hr
  have hreplies := peekRest_replies carry 0 RCPOD_REG_SCRATCHPAD r cpu
  have hmisread : misread (fun j => carry (0 + j)) r = misread carry r := by
    simp only [Nat.zero_add]
  rw [peekAddresses_ofNat carry 0 (by unfold RCPOD_REG_SCRATCHPAD; omega), hmisread,
    hbuffer] at hreplies
  refine ⟨(hreplies.values fun a ha j hj => ?_).trans List.map_map, hreplies.BD0IAL.trans hbuffer⟩
  obtain ⟨i, hi, rfl⟩ := List.mem_map.mp ha
  rw [List.mem_range] at hi
  exact place_ne_endpoint (by omega) hj

end Scratchpad

section Requests

variable (slave : Slave) (idev : rcpod_i2c_dev)

@[simp] theorem sendAckCount_reply (s : Master) : (sendAckCount s).2 = [s.i2c_ack_count] := by
  have hfile : ∀ cpu : Firmware, (Send_Byte_pkt cpu).file BD0IAL = cpu.file BD0IAL := by
    simp [Send_Byte_pkt]
  simp [sendAckCount, reply, Send_Byte_pkt_memory, hfile]

@[simp] theorem sendAckCount_bus (s : Master) : (sendAckCount s).1.bus = s.bus := rfl

@[simp] theorem sendAckCount_BD0IAL (s : Master) :
    (sendAckCount s).1.cpu.file BD0IAL = s.cpu.file BD0IAL := by
  simp [sendAckCount, Send_Byte_pkt]

theorem sendAckCount_place {s : Master} (hs : s.cpu.file BD0IAL = 0xC0) (b : Bool) {i : ℕ}
    (hi : i < 150) : (sendAckCount s).1.cpu.memory (place b i) = s.cpu.memory (place b i) := by
  change (Send_Byte_pkt _).memory (place b i) = _
  rw [Send_Byte_pkt_memory]
  change Function.update _ (endpoint (s.cpu.file BD0IAL) 0) _ _ = _
  rw [hs, Function.update_of_ne (place_ne_endpoint hi (by omega))]

def readPart (r : ℕ) (bus : Bus) : Transfer :=
  if r = 0 then ⟨bus, [], 0⟩ else softi2c_read slave idev [] r bus

theorem txrxRead_spec {s : Master} (hs : s.Selects idev) {r : ℕ} (hr : r ≤ RCPOD_SCRATCHPAD_SIZE)
    (hcount : s.cpu.file (wValue, 1) = BitVec.ofNat 8 r) (hlow : s.cpu.file wIndex = 0x20)
    (hhigh : s.cpu.bit (wIndex, 1) 0 = false) :
    (txrxRead slave s).bus = (readPart slave idev r s.bus).bus ∧
      (txrxRead slave s).i2c_ack_count =
        s.i2c_ack_count + BitVec.ofNat 8 (readPart slave idev r s.bus).acks ∧
      (txrxRead slave s).cpu.file = s.cpu.file ∧ (txrxRead slave s).Selects idev ∧
      (0 < r → AcceptsRead slave idev s.bus → (txrxRead slave s).cpu.memory =
        writeAll s.cpu.memory
          (((List.range r).map (place false)).zip (answers slave idev r s.bus))) := by
  unfold RCPOD_SCRATCHPAD_SIZE at hr
  have hnat : (BitVec.ofNat 8 r).toNat = r := by
    rw [BitVec.toNat_ofNat]
    omega
  have hzero : BitVec.ofNat 8 r = 0 ↔ r = 0 := by
    rw [← BitVec.toNat_inj, hnat]
    rfl
  rw [txrxRead, hcount, hlow, hhigh, readPart]
  simp only [hzero]
  split_ifs with h0
  · exact ⟨rfl, by simp, rfl, hs, fun hpos => absurd h0 (by omega)⟩
  by_cases haccepts : AcceptsRead slave idev s.bus
  · have hacks : (softi2c_read slave idev [] r s.bus).acks = 1 := by
      rw [softi2c_read_accepted [] _ haccepts]
    rw [i2c_Read_accepted [] hs haccepts, hnat, targets_scratchpad (by omega), hacks]
    exact ⟨rfl, rfl, rfl, hs, fun _ _ => rfl⟩
  · have hacks : (softi2c_read slave idev [] r s.bus).acks = 0 := by
      rw [softi2c_read_refused [] _ haccepts]
    rw [i2c_Read_refused [] hs haccepts, hnat, hacks]
    exact ⟨rfl, by simp, rfl, hs, fun _ h => absurd h haccepts⟩

def txrxTransfer (g : ℕ → Byte) (w r : ℕ) (bus : Bus) : Transfer :=
  if w = 0 then readPart slave idev r bus
  else if (softi2c_write slave idev g w bus).2 = w + 1 then
    { readPart slave idev r (softi2c_write slave idev g w bus).1 with
      acks := w + 1 + (readPart slave idev r (softi2c_write slave idev g w bus).1).acks }
  else ⟨(softi2c_write slave idev g w bus).1, [], (softi2c_write slave idev g w bus).2⟩

def readBus (g : ℕ → Byte) (w : ℕ) (bus : Bus) : Bus :=
  if w = 0 then bus else (softi2c_write slave idev g w bus).1

def ReadsBack (g : ℕ → Byte) (w : ℕ) (bus : Bus) : Prop :=
  (w = 0 ∨ (softi2c_write slave idev g w bus).2 = w + 1) ∧
    AcceptsRead slave idev (readBus slave idev g w bus)

theorem softi2c_write_count_le (g : ℕ → Byte) (w : ℕ) (bus : Bus) :
    (softi2c_write slave idev g w bus).2 ≤ w + 1 := by
  rw [softi2c_write_eq]
  refine (transmit_count_le _ _).trans ?_
  simp [writeBytes]

theorem i2c_Write_soft {s : Master} (hs : s.Selects idev) {indf g : ℕ → Byte} {w : Byte}
    (h : ∀ i < w.toNat, indf i = g i) :
    i2c_Write slave indf w s =
      { s with
        bus := (softi2c_write slave idev g w.toNat s.bus).1
        i2c_ack_count := s.i2c_ack_count +
          BitVec.ofNat 8 (softi2c_write slave idev g w.toNat s.bus).2 } := by
  have hbytes : writeBytes idev.address indf w.toNat = writeBytes idev.address g w.toNat := by
    rw [writeBytes, writeBytes]
    congr 1
    exact List.map_congr_left fun i hi => h i (List.mem_range.mp hi)
  rw [i2c_Write_eq, softi2c_write_eq, hs.1, hs.2, hbytes]

theorem txrx_words {w : ℕ} (hw : w < 256) (r : ℕ) :
    (BitVec.ofNat 16 (r <<< 8 ||| w)).extractLsb' 0 8 = BitVec.ofNat 8 w ∧
      (BitVec.ofNat 16 (r <<< 8 ||| w)).extractLsb' 8 8 = BitVec.ofNat 8 r := by
  rw [← Nat.shiftLeft_add_eq_or_of_lt (by omega : w < 2 ^ 8), Nat.shiftLeft_eq]
  constructor <;> rw [← BitVec.toNat_inj] <;>
    simp only [BitVec.extractLsb'_toNat, BitVec.toNat_ofNat, Nat.shiftRight_eq_div_pow] <;> omega

section Setup

variable (wVal wInd : BitVec 16) (c : Bool) (cpu : Firmware)

theorem setup_wValue : (Rcpod.setup wVal wInd c cpu).file wValue = wVal.extractLsb' 0 8 := by
  simp [Rcpod.setup]

theorem setup_wValueHigh :
    (Rcpod.setup wVal wInd c cpu).file (wValue, 1) = wVal.extractLsb' 8 8 := by
  simp [Rcpod.setup]

theorem setup_wIndex : (Rcpod.setup wVal wInd c cpu).file wIndex = wInd.extractLsb' 0 8 := by
  simp [Rcpod.setup]

theorem setup_wIndexHigh :
    (Rcpod.setup wVal wInd c cpu).file (wIndex, 1) = wInd.extractLsb' 8 8 := by
  simp [Rcpod.setup]

theorem setup_BD0IAL : (Rcpod.setup wVal wInd c cpu).file BD0IAL = cpu.file BD0IAL := by
  simp [Rcpod.setup]

end Setup

structure Selected (s : Master) (idev : rcpod_i2c_dev) : Prop where
  selects : s.Selects idev
  BD0IAL : s.cpu.file BD0IAL = 0xC0

theorem request_I2CTxRx_skip {s : Master} (h : s.cpu.file wValue = 0) :
    request_I2CTxRx slave s = sendAckCount (txrxRead slave { s with i2c_ack_count := 0 }) :=
  if_pos h

theorem request_I2CTxRx_write {s u : Master} (h : s.cpu.file wValue ≠ 0)
    (hu : i2c_Write slave (fun j => s.cpu.memory (BitVec.ofBool (s.cpu.bit (wIndex, 1) 0) ++
        (s.cpu.file wIndex + BitVec.ofNat 8 j))) (s.cpu.file wValue)
        { s with i2c_ack_count := 0 } = u) :
    request_I2CTxRx slave s =
      if u.i2c_ack_count - 1 = u.cpu.file wValue then sendAckCount (txrxRead slave u)
      else sendAckCount u := by
  subst hu
  exact if_neg h

structure TxRx (g : ℕ → Byte) (w r : ℕ) (s : Master) (p : Master × List Byte) : Prop where
  bus : p.1.bus = (txrxTransfer slave idev g w r s.bus).bus
  count : p.2 = [BitVec.ofNat 8 (txrxTransfer slave idev g w r s.bus).acks]
  selected : Selected p.1 idev
  memory : 0 < r → ReadsBack slave idev g w s.bus → ∀ b, ∀ i < 150,
    p.1.cpu.memory (place b i) = writeAll s.cpu.memory
      (((List.range r).map (place false)).zip
        (answers slave idev r (readBus slave idev g w s.bus))) (place b i)

theorem requestTxRx_spec {s : rcpod_dev} (hs : Selected s.pod idev) {w r : ℕ}
    (hw : w ≤ RCPOD_SCRATCHPAD_SIZE) (hr : r ≤ RCPOD_SCRATCHPAD_SIZE) {g : ℕ → Byte}
    (hg : ∀ i < w, s.pod.cpu.memory (place false i) = g i) :
    TxRx slave idev g w r s.pod (requestTxRx slave s w r) := by
  unfold RCPOD_SCRATCHPAD_SIZE at hw
  obtain ⟨hlow, hhigh⟩ := txrx_words (by omega : w < 256) r
  let t : Master := { s.setup (BitVec.ofNat 16 (r <<< 8 ||| w))
    (BitVec.ofNat 16 RCPOD_REG_SCRATCHPAD) with i2c_ack_count := 0 }
  have hwValue : t.cpu.file wValue = BitVec.ofNat 8 w := (setup_wValue ..).trans hlow
  have hwValueHigh : t.cpu.file (wValue, 1) = BitVec.ofNat 8 r := (setup_wValueHigh ..).trans hhigh
  have hwIndex : t.cpu.file wIndex = 0x20 := setup_wIndex ..
  have hwIndexHigh : t.cpu.bit (wIndex, 1) 0 = false :=
    congrArg (·.getLsbD 0) (setup_wIndexHigh ..)
  have hBD0IAL : t.cpu.file BD0IAL = 0xC0 := (setup_BD0IAL ..).trans hs.BD0IAL
  have ht : t.Selects idev := hs.selects
  have hnat : (BitVec.ofNat 8 w).toNat = w := by
    rw [BitVec.toNat_ofNat]
    omega
  have hread : ∀ u : Master, u.Selects idev → u.cpu = t.cpu →
      (sendAckCount (txrxRead slave u)).1.bus = (readPart slave idev r u.bus).bus ∧
      (sendAckCount (txrxRead slave u)).2 =
        [u.i2c_ack_count + BitVec.ofNat 8 (readPart slave idev r u.bus).acks] ∧
      Selected (sendAckCount (txrxRead slave u)).1 idev ∧
      (0 < r → AcceptsRead slave idev u.bus → ∀ b, ∀ i < 150,
        (sendAckCount (txrxRead slave u)).1.cpu.memory (place b i) =
          writeAll s.pod.cpu.memory (((List.range r).map (place false)).zip
            (answers slave idev r u.bus)) (place b i)) := by
    intro u hu hcpu
    obtain ⟨hbus, hcount, hfile, hselects, hmemory⟩ := txrxRead_spec slave idev hu hr
      (by rw [hcpu, hwValueHigh]) (by rw [hcpu, hwIndex]) (by rw [hcpu, hwIndexHigh])
    have hsame : (txrxRead slave u).cpu.file BD0IAL = 0xC0 := by rw [hfile, hcpu, hBD0IAL]
    refine ⟨hbus, ?_, ⟨hselects, ?_⟩, fun hpos haccepts b i hi => ?_⟩
    · rw [sendAckCount_reply, hcount]
    · rw [sendAckCount_BD0IAL, hsame]
    · rw [sendAckCount_place hsame b hi, hmemory hpos haccepts, hcpu]
      rfl
  by_cases h0 : w = 0
  · obtain ⟨hbus, hcount, hselected, hmemory⟩ := hread t ht rfl
    have hskip : requestTxRx slave s w r = sendAckCount (txrxRead slave t) :=
      request_I2CTxRx_skip slave (hwValue.trans (by rw [h0]; rfl))
    rw [hskip]
    refine ⟨?_, ?_, hselected, fun hpos hreads => ?_⟩
    · rw [txrxTransfer, if_pos h0]
      exact hbus
    · rw [txrxTransfer, if_pos h0]
      refine hcount.trans ?_
      change [0#8 + _] = _
      rw [BitVec.zero_add]
      rfl
    · have haccepts := hreads.2
      rw [readBus, if_pos h0] at haccepts ⊢
      exact hmemory hpos haccepts
  · let W := softi2c_write slave idev g w s.pod.bus
    let u : Master := { t with bus := W.1, i2c_ack_count := BitVec.ofNat 8 W.2 }
    have hW : W.2 ≤ w + 1 := softi2c_write_count_le slave idev g w s.pod.bus
    have hu : i2c_Write slave (fun j => t.cpu.memory (BitVec.ofBool (t.cpu.bit (wIndex, 1) 0) ++
        (t.cpu.file wIndex + BitVec.ofNat 8 j))) (BitVec.ofNat 8 w) t = u := by
      rw [hwIndex, hwIndexHigh, i2c_Write_soft (g := g) slave idev ht, hnat]
      · change { t with bus := W.1, i2c_ack_count := 0#8 + BitVec.ofNat 8 W.2 } = u
        rw [BitVec.zero_add]
      · intro i hi
        rw [hnat] at hi
        rw [scratchpad_address (by omega)]
        exact hg i hi
    have hacks : u.i2c_ack_count - 1 = BitVec.ofNat 8 w ↔ W.2 = w + 1 := by
      rw [BitVec.sub_eq_iff_eq_add, ← BitVec.toNat_inj, BitVec.toNat_add, hnat]
      change W.2 % 256 = (w + 1) % 256 ↔ W.2 = w + 1
      omega
    have hzero : BitVec.ofNat 8 w ≠ 0 := by
      rw [ne_eq, ← BitVec.toNat_inj, hnat]
      exact h0
    have hwrite : requestTxRx slave s w r =
        if u.i2c_ack_count - 1 = u.cpu.file wValue then sendAckCount (txrxRead slave u)
        else sendAckCount u :=
      request_I2CTxRx_write slave (fun h => hzero (hwValue.symm.trans h)) (by rw [← hu, ← hwValue])
    have hwValue' : u.cpu.file wValue = BitVec.ofNat 8 w := hwValue
    rw [hwrite, hwValue']
    simp only [hacks]
    by_cases hall : W.2 = w + 1
    · obtain ⟨hbus, hcount, hselected, hmemory⟩ := hread u ht rfl
      rw [if_pos hall]
      refine ⟨?_, ?_, hselected, fun hpos hreads => ?_⟩
      · rw [txrxTransfer, if_neg h0, if_pos hall]
        exact hbus
      · rw [txrxTransfer, if_neg h0, if_pos hall, ← hall, BitVec.ofNat_add]
        exact hcount
      · have haccepts := hreads.2
        rw [readBus, if_neg h0] at haccepts ⊢
        exact hmemory hpos haccepts
    · rw [if_neg hall]
      refine ⟨?_, ?_, ⟨ht, ?_⟩, fun _ h => ?_⟩
      · rw [txrxTransfer, if_neg h0, if_neg hall]
        rfl
      · rw [txrxTransfer, if_neg h0, if_neg hall, sendAckCount_reply]
      · rw [sendAckCount_BD0IAL]
        exact hBD0IAL
      · exact absurd h.1 (not_or_intro h0 hall)

end Requests

section Short

variable {slave : Slave} {idev : rcpod_i2c_dev} {s : rcpod_dev}

theorem setupBytes_setup (f : ℕ → Byte) (c : Bool) (cpu : Firmware) {i : ℕ} (hi : i < 4) :
    setupBytes (Rcpod.setup (f 1 ++ f 0) (f 3 ++ f 2) c cpu) i = f i := by
  have hlow : ∀ hi lo : Byte, (hi ++ lo : BitVec 16).extractLsb' 0 8 = lo :=
    fun _ _ => BitVec.extractLsb'_append_eq_right
  have hhigh : ∀ hi lo : Byte, (hi ++ lo : BitVec 16).extractLsb' 8 8 = hi :=
    fun _ _ => BitVec.extractLsb'_append_eq_left
  match i, hi with
  | 0, _ => exact (setup_wValue ..).trans (hlow _ _)
  | 1, _ => exact (setup_wValueHigh ..).trans (hhigh _ _)
  | 2, _ => exact (setup_wIndex ..).trans (hlow _ _)
  | 3, _ => exact (setup_wIndexHigh ..).trans (hhigh _ _)

structure Keeps (idev : rcpod_i2c_dev) (s t : rcpod_dev) : Prop where
  selected : Selected t.pod idev
  last : t.last_i2c_dev = s.last_i2c_dev
  bcdDevice : t.bcdDevice = s.bcdDevice

theorem write4_cmd_eq {w : ℕ} (hw : w ≤ 4) :
    write4_cmd slave w = write4_common slave (BitVec.ofNat 8 w) := by
  match w, hw with
  | 0, _ | 1, _ | 2, _ | 3, _ | 4, _ => rfl

theorem i2c_write4_spec (hs : Selected s.pod idev) (f : ℕ → Byte) {w : ℕ} (hw : w ≤ 4) :
    (i2c_write4 slave s f w).dev.pod.bus = (softi2c_write slave idev f w s.pod.bus).1 ∧
      (i2c_write4 slave s f w).acks = (softi2c_write slave idev f w s.pod.bus).2 ∧
      Keeps idev s (i2c_write4 slave s f w).dev := by
  let t : Master := { s.setup (f 1 ++ f 0) (f 3 ++ f 2) with i2c_ack_count := 0 }
  have hnat : (BitVec.ofNat 8 w).toNat = w := by
    rw [BitVec.toNat_ofNat]
    omega
  have ht : t.Selects idev := hs.selects
  have hbytes : ∀ i < (BitVec.ofNat 8 w).toNat, setupBytes t.cpu i = f i :=
    fun i hi => setupBytes_setup f _ _ (by omega)
  have hwrite := i2c_Write_soft slave idev ht hbytes
  rw [hnat] at hwrite
  have hcount := softi2c_write_count_le slave idev f w s.pod.bus
  let p := sendAckCount (i2c_Write slave (setupBytes t.cpu) (BitVec.ofNat 8 w) t)
  have hresult : i2c_write4 slave s f w =
      ⟨{ s with pod := p.1 }, [], (p.2.headD 0).toNat, [0, 1, 2, 3]⟩ := by
    rw [i2c_write4, if_neg (Nat.not_lt.mpr hw), write4_cmd_eq hw]
    rfl
  simp only [hresult, p]
  rw [hwrite]
  refine ⟨rfl, ?_, ⟨⟨hs.selects, ?_⟩, rfl, rfl⟩⟩
  · rw [sendAckCount_reply, List.headD_cons]
    change (0#8 + BitVec.ofNat 8 _).toNat = _
    rw [BitVec.zero_add, BitVec.toNat_ofNat]
    exact Nat.mod_eq_of_lt (Nat.lt_of_le_of_lt hcount (by omega))
  · rw [sendAckCount_BD0IAL]
    exact (setup_BD0IAL ..).trans hs.BD0IAL

theorem receive_endpoint {u : Master} (hu : Selected u idev) {r : ℕ} (hr : r ≤ 8) (hpos : 0 < r)
    {c : Byte} (hc : u.i2c_ack_count + 1 = c) (acks : ℕ) (reads : List ℕ)
    (read_buffer : List Byte) :
    let v := i2c_Read slave true (u.cpu.file BD0IAL) (BitVec.ofNat 8 r) u
    let R := receive s acks reads read_buffer
      (if v.i2c_ack_count = c then (v, reply (BitVec.ofNat 8 r).toNat v.cpu) else (v, []))
    let T := softi2c_read slave idev read_buffer r u.bus
    R.dev.pod.bus = T.bus ∧ R.read_buffer = T.read_buffer ∧ R.acks = acks * T.acks ∧
      R.reads = reads ∧ Keeps idev s R.dev := by
  have hnat : (BitVec.ofNat 8 r).toNat = r := by
    rw [BitVec.toNat_ofNat]
    omega
  intro v R T
  by_cases h : AcceptsRead slave idev u.bus
  · have hv : v = _ := i2c_Read_accepted read_buffer hu.selects h true _ _
    have hT : T = _ := softi2c_read_accepted read_buffer r h
    have hcount : v.i2c_ack_count = c := by
      rw [hv]
      exact hc
    have hmap := @map_writeAll u.cpu.memory _ (answers slave idev r u.bus)
      (nodup_targets true (u.cpu.file BD0IAL) (by omega : r ≤ 256))
      (by rw [length_answers, targets, List.length_map, List.length_range])
    have hreply : reply r v.cpu = answers slave idev r u.bus := by
      rw [hv, hnat]
      exact List.map_map.symm.trans hmap
    have hne : answers slave idev r u.bus ≠ [] := by
      rw [← List.length_pos_iff, length_answers]
      exact hpos
    have hR : R = receive s acks reads read_buffer (v, answers slave idev r u.bus) := by
      simp only [R]
      rw [if_pos hcount, hnat, hreply]
    rw [hR, hT, receive, if_neg hne, length_answers]
    refine ⟨?_, rfl, (Nat.mul_one acks).symm, rfl, ⟨⟨?_, ?_⟩, rfl, rfl⟩⟩
    · change v.bus = _
      rw [hv, hnat, softi2c_read_accepted read_buffer r h]
    · rw [hv]
      exact hu.selects
    · rw [hv]
      exact hu.BD0IAL
  · have hv : v = _ := i2c_Read_refused read_buffer hu.selects h true _ _
    have hT : T = _ := softi2c_read_refused read_buffer r h
    have hcount : v.i2c_ack_count ≠ c := by
      have hnext : ∀ x : Byte, x ≠ x + 1 := by decide
      rw [hv, ← hc]
      exact hnext _
    have hR : R = receive s acks reads read_buffer (v, []) := by
      simp only [R]
      rw [if_neg hcount]
    rw [hR, hT]
    refine ⟨?_, rfl, rfl, rfl, ⟨⟨?_, ?_⟩, rfl, rfl⟩⟩
    · change v.bus = _
      rw [hv, hnat, softi2c_read_refused read_buffer r h]
    · rw [hv]
      exact hu.selects
    · rw [hv]
      exact hu.BD0IAL

theorem extractLsb_ofNat {r : ℕ} : (BitVec.ofNat 16 r).extractLsb' 0 8 = BitVec.ofNat 8 r := by
  rw [← BitVec.toNat_inj, BitVec.extractLsb'_toNat, BitVec.toNat_ofNat, BitVec.toNat_ofNat,
    Nat.shiftRight_zero]
  omega

theorem i2c_read8_spec (hs : Selected s.pod idev) {r : ℕ} (hr : r ≤ 8) (hpos : 0 < r)
    (read_buffer : List Byte) :
    let R := i2c_read8 slave s read_buffer r
    let T := softi2c_read slave idev read_buffer r s.pod.bus
    R.dev.pod.bus = T.bus ∧ R.read_buffer = T.read_buffer ∧ R.acks = T.acks ∧
      R.reads = [] ∧ Keeps idev s R.dev := by
  let t : Master := { s.setup (BitVec.ofNat 16 r) 0 with i2c_ack_count := 0 }
  have ht : Selected t idev := ⟨hs.selects, (setup_BD0IAL ..).trans hs.BD0IAL⟩
  have hcount : t.cpu.file wValue = BitVec.ofNat 8 r := (setup_wValue ..).trans extractLsb_ofNat
  have hresult := @receive_endpoint slave idev s t ht r hr hpos _ rfl 1 [] read_buffer
  rw [← hcount] at hresult
  simp only [Nat.one_mul] at hresult
  exact hresult

theorem i2c_write1_read8_spec (hs : Selected s.pod idev) {r : ℕ} (hr : r ≤ 8) (hpos : 0 < r)
    (read_buffer : List Byte) (f : ℕ → Byte) :
    let R := i2c_write1_read8 slave s (f 0) read_buffer r
    let W := softi2c_write slave idev f 1 s.pod.bus
    let T := softi2c_read slave idev read_buffer r W.1
    R.dev.pod.bus = (if W.2 = 2 then T.bus else W.1) ∧
      R.read_buffer = (if W.2 = 2 then T.read_buffer else read_buffer) ∧
      R.acks = (if W.2 = 2 then 3 * T.acks else 0) ∧ R.reads = [0] ∧ Keeps idev s R.dev := by
  intro R W T
  let t : Master :=
    { s.setup ((f 0).setWidth 16) (BitVec.ofNat 16 r) with i2c_ack_count := 0 }
  have ht : Selected t idev := ⟨hs.selects, (setup_BD0IAL ..).trans hs.BD0IAL⟩
  have hcount : t.cpu.file wIndex = BitVec.ofNat 8 r := (setup_wIndex ..).trans extractLsb_ofNat
  have hlow : ∀ data : Byte, (data.setWidth 16).extractLsb' 0 8 = data := by decide
  have hbytes : ∀ i < (1 : Byte).toNat, setupBytes t.cpu i = f i := by
    intro i hi
    obtain rfl : i = 0 := Nat.lt_one_iff.mp hi
    exact (setup_wValue ..).trans (hlow _)
  have hwrite := i2c_Write_soft slave idev ht.selects hbytes
  let u : Master := { t with bus := W.1, i2c_ack_count := 0#8 + BitVec.ofNat 8 W.2 }
  have hu : Selected u idev := ⟨ht.selects, ht.BD0IAL⟩
  have hW : W.2 ≤ 2 := softi2c_write_count_le slave idev f 1 s.pod.bus
  have htwo : u.i2c_ack_count = 2 ↔ W.2 = 2 := by
    rw [← BitVec.toNat_inj]
    change (0 + W.2 % 256) % 256 = 2 ↔ W.2 = 2
    omega
  have hrequest : R = receive s 3 [0] read_buffer
      (if u.i2c_ack_count = 2 then
        let v := i2c_Read slave true (u.cpu.file BD0IAL) (u.cpu.file wIndex) u
        if v.i2c_ack_count = 3 then (v, reply (u.cpu.file wIndex).toNat v.cpu) else (v, [])
      else (u, [])) := by
    have hu' : u = i2c_Write slave (setupBytes t.cpu) 1 t := hwrite.symm
    rw [hu']
    rfl
  have hcount' : u.cpu.file wIndex = BitVec.ofNat 8 r := hcount
  rw [hrequest, hcount']
  simp only [htwo]
  by_cases h : W.2 = 2
  · have hack : u.i2c_ack_count + 1 = 3 := by
      rw [htwo.mpr h]
      rfl
    simp only [h, if_true]
    exact receive_endpoint hu hr hpos hack 3 [0] read_buffer
  · simp only [h, if_false]
    exact ⟨rfl, rfl, rfl, rfl, ⟨hu, rfl, rfl⟩⟩

end Short

end NaviMisc.Rcpod.I2c
