import Mathlib.Data.BitVec
import Mathlib.Tactic.Ring

/-!
What the USB driver sends for a request of the host on endpoint 0 (tusb/src/usb_driver.c). An int
has 16 bits and wraps around.
-/

namespace NaviMisc.Tusb

abbrev Byte := BitVec 8

def int (z : ℤ) : ℤ := z.bmod (2 ^ 16)

def USB_DT_STRING : Byte := 0x03

section Buffer

variable (buffer : List Byte)

/-- The do-while loop, with the packets it sends and the last `packet_length`. The host has read
each packet when `usb_wait_for_ep0_in` returns. -/
def bufferLoop : ℕ → ℕ → ℤ → Option (List (List Byte) × ℤ)
  | 0, _, _ => none
  | fuel + 1, offset, length => do
    let packet_length := if 8 < length then 8 else length
    let packet := (buffer.drop offset).take packet_length.toNat
    let length := int (length - packet_length)
    if 0 < length then
      let (packets, last) ← bufferLoop fuel (offset + packet_length.toNat) length
      return (packet :: packets, last)
    else return ([packet], packet_length)

def usb_write_ep0_buffer (wLength : BitVec 16) (length : ℤ) : Option (List (List Byte)) := do
  -- The comparison with `wLength` makes the length unsigned.
  let explicit_stop := length % 2 ^ 16 < wLength.toNat
  let length := if explicit_stop then length else int wLength.toNat
  let (packets, packet_length) ← bufferLoop buffer (length.toNat + 1) 0 length
  return if explicit_stop ∧ packet_length = 8 then packets ++ [[]] else packets

end Buffer

structure CString where
  memory : ℕ → Byte
  strlen : ℕ
  memory_strlen : memory strlen = 0
  memory_ne_zero : ∀ i < strlen, memory i ≠ 0

section String

variable (string : CString)

/-- A packet that is being filled, and how far `string` has got. -/
structure Filling where
  packet : List Byte
  string : ℕ
  remaining_length : ℤ

def fill : ℕ → Filling → Filling
  | 0, s => s
  | pairs + 1, s =>
    if 0 < s.remaining_length ∧ s.packet.length < 8 then
      fill pairs ⟨s.packet ++ [string.memory s.string, 0], s.string + 1, int (s.remaining_length - 2)⟩
    else s

def stringLoop : ℕ → Filling → Option (List (List Byte) × ℤ)
  | 0, _ => none
  | fuel + 1, s => do
    let s := fill string 4 s
    if s.remaining_length ≤ 0 then return ([s.packet], s.packet.length)
    else
      let (packets, last) ← stringLoop fuel { s with packet := [] }
      return (s.packet :: packets, last)

def usb_write_ep0_string_descriptor (wLength : BitVec 16) : Option (List (List Byte)) := do
  let remaining_length := int wLength.toNat
  let total_length := int (2 + 2 * string.strlen)
  let explicit_stop := total_length < remaining_length
  let remaining_length := if explicit_stop then total_length else remaining_length
  let header := [BitVec.ofInt 8 total_length, USB_DT_STRING]
  let remaining_length := int (remaining_length - 2)
  let (packets, packet_length) ←
    stringLoop string (remaining_length.toNat + 1) ⟨header, 0, remaining_length⟩
  return if explicit_stop ∧ packet_length = 8 then packets ++ [[]] else packets

def CString.descriptor : List Byte :=
  [BitVec.ofNat 8 (2 + 2 * string.strlen), USB_DT_STRING] ++
    (List.range string.strlen).flatMap fun i => [string.memory i, 0]

end String

/-- The packets for a host that wants `wLength` bytes of the data. -/
structure Delivers (data : List Byte) (wLength : ℕ) (packets : List (List Byte)) : Prop where
  carries : packets.flatten = data.take wLength
  size : ∀ p ∈ packets, p.length ≤ 8
  full : ∀ p ∈ packets.dropLast, p.length = 8
  ends : data.length < wLength → ∃ p ∈ packets.getLast?, p.length < 8

section Fragments

inductive Fragments : List Byte → List (List Byte) → Prop
  | last {p : List Byte} (h : p.length ≤ 8) : Fragments p [p]
  | cons {p rest : List Byte} {ps : List (List Byte)} (h : p.length = 8) (hps : Fragments rest ps) :
      Fragments (p ++ rest) (p :: ps)

variable {bytes : List Byte} {packets : List (List Byte)}

namespace Fragments

theorem flatten (h : Fragments bytes packets) : packets.flatten = bytes := by
  induction h with
  | last h => exact List.flatten_singleton
  | cons h hps ih => rw [List.flatten_cons, ih]

theorem ne_nil (h : Fragments bytes packets) : packets ≠ [] := by
  cases h with
  | last h => exact List.cons_ne_nil _ _
  | cons h hps => exact List.cons_ne_nil _ _

theorem size (h : Fragments bytes packets) : ∀ p ∈ packets, p.length ≤ 8 := by
  induction h with
  | last h => simpa using h
  | cons h hps ih => exact List.forall_mem_cons.mpr ⟨Nat.le_of_eq h, ih⟩

theorem full (h : Fragments bytes packets) : ∀ p ∈ packets.dropLast, p.length = 8 := by
  induction h with
  | last h => simp
  | cons h hps ih =>
    rw [List.dropLast_cons_of_ne_nil hps.ne_nil]
    exact List.forall_mem_cons.mpr ⟨h, ih⟩

theorem delivers (h : Fragments bytes packets) {data : List Byte} {wLength : ℕ}
    (hbytes : bytes = data.take wLength) {explicit_stop : Prop} [Decidable explicit_stop]
    {last : ℤ} (hstop : data.length < wLength → explicit_stop ∨ last < 8)
    (hlast : ∃ p ∈ packets.getLast?, last = p.length) :
    Delivers data wLength (if explicit_stop ∧ last = 8 then packets ++ [[]] else packets) := by
  obtain ⟨p, hp, hlength⟩ := hlast
  have hpsize : p.length ≤ 8 := h.size p (List.mem_of_getLast? hp)
  split_ifs with hfull
  · constructor
    · rw [List.flatten_append, h.flatten, hbytes]
      exact List.append_nil _
    · intro q hq
      rcases List.mem_append.mp hq with hq | hq
      · exact h.size q hq
      · rw [List.mem_singleton.mp hq]
        exact Nat.zero_le 8
    · intro q hq
      rw [List.dropLast_concat, ← List.dropLast_append_getLast? p hp, List.mem_append,
        List.mem_singleton] at hq
      obtain hq | rfl := hq
      · exact h.full q hq
      · omega
    · intro _
      exact ⟨[], List.getLast?_concat, by decide⟩
  · refine ⟨h.flatten.trans hbytes, h.size, h.full, fun hshort => ⟨p, hp, ?_⟩⟩
    rcases hstop hshort with hstop | hlt
    · have hne : last ≠ 8 := fun heq => hfull ⟨hstop, heq⟩
      omega
    · omega

end Fragments

end Fragments

theorem int_of_lt {z : ℤ} (h : -2 ^ 15 ≤ z) (h' : z < 2 ^ 15) : int z = z := by
  rw [int, Int.bmod_eq_of_le_mul_two] <;> omega

theorem int_add_pow (z : ℤ) : int (z + 2 ^ 16) = int z :=
  Int.add_bmod_right z (2 ^ 16)

theorem int_sub_pow (z : ℤ) : int (z - 2 ^ 16) = int z := by
  rw [← int_add_pow, Int.sub_add_cancel]

theorem int_bounds (z : ℤ) : -2 ^ 15 ≤ int z ∧ int z < 2 ^ 15 := by
  have hle := Int.le_bmod (x := z) (m := 2 ^ 16) (by decide)
  have hlt := Int.bmod_lt (x := z) (m := 2 ^ 16) (by decide)
  rw [int]
  omega

theorem getLast?_cons {p q : List Byte} {packets : List (List Byte)} (h : q ∈ packets.getLast?) :
    q ∈ (p :: packets).getLast? := by
  rw [List.getLast?_cons, h]
  rfl

theorem bufferLoop_spec (buffer : List Byte) {fuel offset n : ℕ} (hfuel : n < fuel)
    (hn : n < 2 ^ 15) (hroom : offset + n ≤ buffer.length) :
    ∃ packets last, bufferLoop buffer fuel offset n = some (packets, last) ∧
      Fragments ((buffer.drop offset).take n) packets ∧ ∃ p ∈ packets.getLast?, last = p.length := by
  induction fuel generalizing offset n with
  | zero => omega
  | succ fuel ih =>
    by_cases hlong : 8 < n
    · have hrest : int ((n : ℤ) - 8) = (n - 8 : ℕ) := by
        rw [int_of_lt] <;> omega
      obtain ⟨packets, last, hloop, hfragments, p, hp, hlast⟩ :=
        ih (by omega : n - 8 < fuel) (by omega)
          (by omega : offset + 8 + (n - 8) ≤ buffer.length)
      have height : (if 8 < (n : ℤ) then 8 else (n : ℤ)) = 8 := if_pos (by omega)
      have hmore : 0 < ((n - 8 : ℕ) : ℤ) := by omega
      refine ⟨(buffer.drop offset).take 8 :: packets, last, ?_, ?_, p, getLast?_cons hp, hlast⟩
      · simp only [bufferLoop, height, hrest, if_pos hmore]
        change (bufferLoop buffer fuel (offset + 8) (n - 8 : ℕ)).bind _ = _
        rw [hloop]
        rfl
      · have hsplit : (buffer.drop offset).take n =
            (buffer.drop offset).take 8 ++ (buffer.drop (offset + 8)).take (n - 8) := by
          rw [← List.drop_drop, ← List.take_add]
          congr 1
          omega
        rw [hsplit]
        apply Fragments.cons _ hfragments
        rw [List.length_take, List.length_drop]
        omega
    · have hlast : (if 8 < (n : ℤ) then 8 else (n : ℤ)) = n := if_neg (by omega)
      have hdone : int ((n : ℤ) - n) = 0 := by
        rw [Int.sub_self]
        rfl
      have hlength : ((buffer.drop offset).take n).length = n := by
        rw [List.length_take, List.length_drop]
        omega
      refine ⟨[(buffer.drop offset).take n], n, ?_, .last ?_, _, rfl, congrArg _ hlength.symm⟩
      · simp only [bufferLoop, hlast, hdone]
        rfl
      · omega

theorem usb_write_ep0_buffer_delivers (data : List Byte) (hdata : data.length < 2 ^ 15)
    (wLength : BitVec 16) : ∃ packets, usb_write_ep0_buffer data wLength data.length = some packets ∧
      Delivers data wLength.toNat packets := by
  have hmod : (data.length : ℤ) % 2 ^ 16 = data.length := by omega
  have hlength : (if (data.length : ℤ) < wLength.toNat then (data.length : ℤ)
      else int wLength.toNat) = (min data.length wLength.toNat : ℕ) := by
    split_ifs with h
    · omega
    · rw [int_of_lt] <;> omega
  obtain ⟨packets, last, hloop, hfragments, hlast⟩ := bufferLoop_spec data
    (Nat.lt_succ_self (min data.length wLength.toNat)) (by omega : min _ _ < 2 ^ 15)
    (by omega : 0 + _ ≤ _)
  have htake : (data.drop 0).take (min data.length wLength.toNat) = data.take wLength.toNat := by
    rw [List.drop_zero, Nat.min_comm, List.take_eq_take_iff]
    omega
  have hstop : data.length < wLength.toNat → (data.length : ℤ) < wLength.toNat ∨ last < 8 :=
    fun h => .inl (by omega)
  refine ⟨_, ?_, hfragments.delivers htake hstop hlast⟩
  simp only [usb_write_ep0_buffer, hmod, hlength, Int.toNat_natCast]
  rw [hloop]
  rfl

section Pairs

variable (string : CString)

def pairs (start n : ℕ) : List Byte :=
  (List.range n).flatMap fun i => [string.memory (start + i), 0]

theorem pairs_succ (start n : ℕ) :
    pairs string start (n + 1) = [string.memory start, 0] ++ pairs string (start + 1) n := by
  rw [pairs, List.range_succ_eq_map, List.flatMap_cons, List.flatMap_map, pairs]
  congr 2
  funext i
  rw [Nat.succ_eq_add_one, Nat.add_comm i, Nat.add_assoc]

theorem pairs_add (start m n : ℕ) :
    pairs string start (m + n) = pairs string start m ++ pairs string (start + m) n := by
  induction m generalizing start with
  | zero => simp [pairs]
  | succ m ih =>
    rw [Nat.succ_add, pairs_succ, pairs_succ, ih, List.append_assoc, Nat.add_right_comm, Nat.add_assoc]

theorem length_pairs (start n : ℕ) : (pairs string start n).length = 2 * n := by
  induction n generalizing start with
  | zero => rfl
  | succ n ih =>
    rw [pairs_succ, List.length_append, ih, List.length_cons, List.length_singleton]
    omega

def needed (r : ℤ) : ℕ := ((r + 1) / 2).toNat

theorem fill_spec {f j : ℕ} (hf : j ≤ f) {s : Filling} (hj : s.packet.length + 2 * j = 8)
    (hr : -2 ^ 15 ≤ s.remaining_length) (hr' : s.remaining_length < 2 ^ 15) : fill string f s =
      ⟨s.packet ++ pairs string s.string (min j (needed s.remaining_length)),
        s.string + min j (needed s.remaining_length),
        s.remaining_length - 2 * (min j (needed s.remaining_length) : ℕ)⟩ := by
  induction f generalizing j s with
  | zero =>
    obtain rfl : j = 0 := by omega
    simp [fill, pairs]
  | succ f ih =>
    rw [fill]
    split_ifs with h
    · obtain ⟨j, rfl⟩ := Nat.exists_eq_succ_of_ne_zero (by omega : j ≠ 0)
      have hint : int (s.remaining_length - 2) = s.remaining_length - 2 := by
        rw [int_of_lt] <;> omega
      have hneeded : needed s.remaining_length = needed (s.remaining_length - 2) + 1 := by
        rw [needed, needed]
        omega
      rw [hint, ih (j := j) (by omega) (by simp; omega) (by dsimp only; omega) (by dsimp only; omega),
        hneeded, Nat.succ_eq_add_one, Nat.add_min_add_right, pairs_succ]
      simp only [List.append_assoc, Filling.mk.injEq, true_and]
      omega
    · have hzero : min j (needed s.remaining_length) = 0 := by
        rw [needed]
        omega
      rw [hzero]
      simp [pairs]

theorem stringLoop_spec {fuel j : ℕ} (hj₀ : 0 < j) (hj₄ : j ≤ 4) {packet : List Byte} {start : ℕ}
    {r : ℤ} (hj : packet.length + 2 * j = 8) (hfuel : needed r < fuel) (hr : -2 ^ 15 ≤ r)
    (hr' : r < 2 ^ 15) : ∃ packets last, stringLoop string fuel ⟨packet, start, r⟩ = some (packets, last) ∧
      Fragments (packet ++ pairs string start (needed r)) packets ∧
      ∃ p ∈ packets.getLast?, last = p.length := by
  induction fuel generalizing j packet start r with
  | zero => omega
  | succ fuel ih =>
    have hfill := fill_spec string (s := ⟨packet, start, r⟩) hj₄ hj hr hr'
    dsimp only at hfill
    by_cases hlast : needed r ≤ j
    · rw [Nat.min_eq_right hlast] at hfill
      have hdone : r - 2 * (needed r : ℕ) ≤ 0 := by
        rw [needed]
        omega
      refine ⟨_, _, ?_, .last ?_, _, rfl, rfl⟩
      · simp only [stringLoop, hfill, if_pos hdone]
        rfl
      · rw [List.length_append, length_pairs]
        omega
    · rw [Nat.min_eq_left (by omega)] at hfill
      have hmore : ¬r - 2 * (j : ℕ) ≤ 0 := by
        rw [needed] at hlast
        omega
      have hrest : needed (r - 2 * (j : ℕ)) = needed r - j := by
        rw [needed, needed]
        omega
      obtain ⟨packets, last, hloop, hfragments, p, hp, hplast⟩ :=
        @ih 4 (by decide) (Nat.le_refl 4) [] (start + j) (r - 2 * (j : ℕ)) rfl (by omega) (by omega)
          (by omega)
      refine ⟨(packet ++ pairs string start j) :: packets, last, ?_, ?_, p, getLast?_cons hp,
        hplast⟩
      · simp only [stringLoop, hfill, if_neg hmore]
        change (stringLoop string fuel _).bind _ = _
        rw [hloop]
        rfl
      · have hsplit : needed r = j + (needed r - j) := by omega
        rw [hsplit, pairs_add, ← List.append_assoc]
        apply Fragments.cons
        · rw [List.length_append, length_pairs]
          omega
        · rw [← hrest]
          exact hfragments

end Pairs

section Descriptor

variable (string : CString) (wLength : BitVec 16)

def afterHeader : ℤ :=
  int ((if int (2 + 2 * string.strlen) < int wLength.toNat then int (2 + 2 * string.strlen)
    else int wLength.toNat) - 2)

def header : List Byte := [BitVec.ofNat 8 (2 + 2 * string.strlen), USB_DT_STRING]

theorem descriptor_eq : string.descriptor = header string ++ pairs string 0 string.strlen := by
  simp [CString.descriptor, header, pairs]

theorem length_descriptor : string.descriptor.length = 2 + 2 * string.strlen := by
  rw [descriptor_eq, List.length_append, length_pairs]
  rfl

variable {string}

theorem afterHeader_bounds :
    -2 ^ 15 ≤ afterHeader string wLength ∧ afterHeader string wLength < 2 ^ 15 := by
  rw [afterHeader]
  exact int_bounds _

theorem usb_write_ep0_string_descriptor_spec (hstrlen : string.strlen ≤ 126) :
    ∃ (packets : List (List Byte)) (last : ℤ), usb_write_ep0_string_descriptor string wLength =
      some (if int (2 + 2 * string.strlen) < int wLength.toNat ∧ last = 8 then packets ++ [[]]
        else packets) ∧
      Fragments (header string ++ pairs string 0 (needed (afterHeader string wLength))) packets ∧
      ∃ p ∈ packets.getLast?, last = p.length := by
  have htotal : int (2 + 2 * string.strlen) = (2 + 2 * string.strlen : ℕ) := by
    rw [int_of_lt] <;> omega
  obtain ⟨hle, hlt⟩ := @afterHeader_bounds string wLength
  have hfuel : needed (afterHeader string wLength) < (afterHeader string wLength).toNat + 1 := by
    rw [needed]
    omega
  have hroom : (header string).length + 2 * 3 = 8 := rfl
  obtain ⟨packets, last, hloop, hrest⟩ := @stringLoop_spec string _ 3 (by decide) (by decide) _ 0
    _ hroom hfuel hle hlt
  refine ⟨packets, last, ?_, hrest⟩
  have hheader : [BitVec.ofInt 8 (int (2 + 2 * string.strlen)), USB_DT_STRING] = header string := by
    rw [htotal, BitVec.ofInt_natCast]
    rfl
  rw [usb_write_ep0_string_descriptor, hheader, ← afterHeader]
  rw [hloop]
  rfl

def Fits (string : CString) (wLength : BitVec 16) : Prop :=
  wLength.toNat < 2 ^ 15 ∧ (2 + 2 * string.strlen ≤ wLength.toNat ∨
    2 ≤ wLength.toNat ∧ 2 ∣ wLength.toNat)

variable {wLength}

theorem needed_afterHeader_iff (hstrlen : string.strlen ≤ 126) :
    2 + 2 * needed (afterHeader string wLength) = min wLength.toNat (2 + 2 * string.strlen) ↔
      Fits string wLength ∨ string.strlen = 0 ∧ 2 ^ 15 + 2 ≤ wLength.toNat := by
  have htotal : int (2 + 2 * string.strlen) = 2 + 2 * string.strlen := by
    rw [int_of_lt] <;> omega
  rw [Fits]
  rcases Nat.lt_or_ge wLength.toNat (2 ^ 15) with hsmall | hlarge
  · have hwant : int wLength.toNat = wLength.toNat := by
      rw [int_of_lt] <;> omega
    have hafter : afterHeader string wLength =
        min (wLength.toNat : ℤ) (2 + 2 * string.strlen) - 2 := by
      rw [afterHeader, htotal, hwant, int_of_lt] <;> split_ifs <;> omega
    rw [hafter, needed]
    omega
  · -- The requested length is a negative int, and may wrap around again with the header.
    have hwant : int wLength.toNat = wLength.toNat - 2 ^ 16 := by
      rw [← int_sub_pow, int_of_lt] <;> omega
    have hafter : afterHeader string wLength = int (wLength.toNat - 2 ^ 16 - 2) := by
      rw [afterHeader, htotal, hwant, if_neg (by omega)]
    rcases Nat.lt_or_ge wLength.toNat (2 ^ 15 + 2) with hwrap | hnegative
    · have hint : int (wLength.toNat - 2 ^ 16 - 2) = wLength.toNat - 2 := by
        rw [← int_add_pow, int_of_lt] <;> omega
      rw [hafter, hint, needed]
      omega
    · have hint : int (wLength.toNat - 2 ^ 16 - 2) = wLength.toNat - 2 ^ 16 - 2 := by
        rw [int_of_lt] <;> omega
      rw [hafter, hint, needed]
      omega

theorem carried_iff {r : ℕ} : header string ++ pairs string 0 r =
    string.descriptor.take wLength.toNat ↔
      2 + 2 * r = min wLength.toNat (2 + 2 * string.strlen) := by
  have hlength : (header string ++ pairs string 0 r).length = 2 + 2 * r := by
    rw [List.length_append, length_pairs]
    rfl
  constructor
  · intro h
    rw [← hlength, h, List.length_take, length_descriptor]
  · intro h
    obtain ⟨m, hm⟩ := Nat.exists_eq_add_of_le (by omega : r ≤ string.strlen)
    have hsplit : string.descriptor = (header string ++ pairs string 0 r) ++ pairs string r m := by
      rw [descriptor_eq, hm, pairs_add, Nat.zero_add, List.append_assoc]
    have htake : string.descriptor.take wLength.toNat = string.descriptor.take (2 + 2 * r) := by
      rw [List.take_eq_take_iff, length_descriptor]
      omega
    rw [htake, hsplit, ← hlength, List.take_left]

theorem usb_write_ep0_string_descriptor_delivers_iff (hstrlen : string.strlen ≤ 126) :
    (∃ packets, usb_write_ep0_string_descriptor string wLength = some packets ∧
      Delivers string.descriptor wLength.toNat packets) ↔
      Fits string wLength ∨ string.strlen = 0 ∧ 2 ^ 15 + 2 ≤ wLength.toNat := by
  obtain ⟨packets, last, hwrite, hfragments, hlast⟩ :=
    usb_write_ep0_string_descriptor_spec wLength hstrlen
  rw [hwrite, ← needed_afterHeader_iff hstrlen, ← carried_iff]
  constructor
  · rintro ⟨sent, hsent, hdelivers⟩
    obtain rfl := Option.some.inj hsent
    rw [← hdelivers.carries, ← hfragments.flatten]
    split_ifs
    · rw [List.flatten_append]
      exact (List.append_nil _).symm
    · rfl
  · intro hcarried
    refine ⟨_, rfl, hfragments.delivers hcarried (fun hshort => ?_) hlast⟩
    rw [length_descriptor] at hshort
    rcases (needed_afterHeader_iff hstrlen).mp (carried_iff.mp hcarried) with hfits | ⟨hzero, -⟩
    · left
      rw [int_of_lt, int_of_lt] <;> rw [Fits] at hfits <;> omega
    · -- There are only the two bytes of the header.
      right
      obtain ⟨p, hp, rfl⟩ := hlast
      have hle := (List.sublist_flatten_of_mem (List.mem_of_getLast? hp)).length_le
      rw [hfragments.flatten, List.length_append, length_pairs] at hle
      have hheader : (header string).length = 2 := rfl
      have hcount := carried_iff.mp hcarried
      omega

end Descriptor

section Answers

def Answers (data : List Byte) (wLength : BitVec 16) (reply : Option (List (List Byte))) : Prop :=
  ∃ packets, reply = some packets ∧ Delivers data wLength.toNat packets

theorem usb_write_ep0_answers_iff (data : List Byte) (hdata : data.length < 2 ^ 15)
    (string : CString) (hstrlen : string.strlen ≤ 126) (wLength : BitVec 16) :
    Answers data wLength (usb_write_ep0_buffer data wLength data.length) ∧
      (Answers string.descriptor wLength (usb_write_ep0_string_descriptor string wLength) ↔
        Fits string wLength ∨ string.strlen = 0 ∧ 2 ^ 15 + 2 ≤ wLength.toNat) :=
  ⟨usb_write_ep0_buffer_delivers data hdata wLength,
    usb_write_ep0_string_descriptor_delivers_iff hstrlen⟩

/-- The one character `A`. -/
def letter : CString where
  memory i := if i = 0 then 0x41 else 0
  strlen := 1
  memory_strlen := rfl
  memory_ne_zero i hi := by
    obtain rfl : i = 0 := by omega
    decide

theorem usb_write_ep0_answers_letter :
    Answers [1, 2, 3] 255 (usb_write_ep0_buffer [1, 2, 3] 255 3) ∧
      Answers letter.descriptor 255 (usb_write_ep0_string_descriptor letter 255) := by
  obtain ⟨hbuffer, hstring⟩ :=
    usb_write_ep0_answers_iff [1, 2, 3] (by decide) letter (by decide) 255
  exact ⟨hbuffer, hstring.mpr (.inl ⟨by decide, .inl (by decide)⟩)⟩

/-- A host that wants three bytes of a string descriptor gets four. -/
theorem not_usb_write_ep0_answers : ¬∀ (string : CString) (_ : string.strlen ≤ 126)
    (wLength : BitVec 16),
      Answers string.descriptor wLength (usb_write_ep0_string_descriptor string wLength) := by
  intro h
  obtain ⟨packets, hwrite, hdelivers⟩ := h letter (by decide) 3
  have hrun : usb_write_ep0_string_descriptor letter 3 = some [[4, 3, 0x41, 0]] := by
    decide +kernel
  obtain rfl := Option.some.inj (hrun.symm.trans hwrite)
  exact absurd hdelivers.carries (by decide)

end Answers

end NaviMisc.Tusb
