import NaviMisc.Lib.Memory
import NaviMisc.Wasabi.BitFile

/-!
Sending the firmware and the bitstream to the device (wasabi/devices/unicone/src/unicone_device.c).
-/

namespace NaviMisc.Wasabi.Unicone

open Lib.Memory

structure Usb where
  bulk_write : ℕ → ℤ
  config_begin : ℤ
  config_end : ℤ
  retbyte : Byte

structure Write where
  packet : List Byte
  retval : ℤ

def Write.accepted (write : Write) : List Byte := write.packet.take write.retval.toNat

def accepted (writes : List Write) : List Byte := writes.flatMap Write.accepted

def block_size : ℤ := 128

section Send

variable (results : ℕ → ℤ) (buffer : List Byte)

def sendLoop : ℕ → ℕ → ℕ → ℤ → ℤ → Option (ℤ × List Write)
  | 0, _, _, _, _ => none
  | fuel + 1, i, current, remaining, bytes_uploaded =>
    if 0 < remaining then
      let packet_size := if block_size < remaining then block_size else remaining
      let packet := (buffer.drop current).take packet_size.toNat
      let retval := min (results i) packet.length
      if retval ≤ 0 then some (retval, [⟨packet, retval⟩])
      else do
        let (result, writes) ← sendLoop fuel (i + 1) (current + retval.toNat) (remaining - retval)
          (bytes_uploaded + retval)
        return (result, ⟨packet, retval⟩ :: writes)
    else some (bytes_uploaded, [])

def send_bulk_ep_buffer (length : ℤ) : Option (ℤ × List Write) :=
  sendLoop results buffer (length.toNat + 1) 0 0 length 0

end Send

inductive Outcome
  | nullDereference
  | assertFailed
  | returned (value : ℤ) (writes : List Write)

section Firmware

def CODESPACE_SIZE : ℕ := 0x2000

def SHA1_STAMP_SIZE : ℕ := 20

def MAX_FIRMWARE_SIZE : ℕ := CODESPACE_SIZE - SHA1_STAMP_SIZE

def FIRMWARE_HEADER_SIZE : ℕ := 3

def arith_checksum_8bit (buffer : List Byte) : Byte := buffer.foldl (· + ·) 0

variable (sha_buffer : List Byte → Vector Byte 20)

def fw_buffer (image : List Byte) : ℕ → Byte :=
  let fw_buffer := copy (fun _ => 0) FIRMWARE_HEADER_SIZE image
  let fw_buffer := copy fw_buffer (FIRMWARE_HEADER_SIZE + CODESPACE_SIZE - SHA1_STAMP_SIZE)
    (sha_buffer image).toList
  let checksum := arith_checksum_8bit
    (read (fun i => fw_buffer (FIRMWARE_HEADER_SIZE + i)) CODESPACE_SIZE)
  copy fw_buffer 0
    [BitVec.ofNat 8 (CODESPACE_SIZE &&& 0xFF), BitVec.ofNat 8 (CODESPACE_SIZE >>> 8), checksum]

def unicone_device_upload_firmware (usb : Usb) (firmware_installed : Bool)
    (file : Option (List Byte)) : Option Outcome :=
  if firmware_installed then some .assertFailed
  else
    match file with
    | none => some (.returned (-1) [])
    | some file =>
      let image := file.take (MAX_FIRMWARE_SIZE + 1)
      if image.length ≤ 0 then some (.returned (-1) [])
      else if MAX_FIRMWARE_SIZE < image.length then some (.returned (-1) [])
      else do
        let size := FIRMWARE_HEADER_SIZE + CODESPACE_SIZE
        let (bytes_uploaded, writes) ←
          send_bulk_ep_buffer usb.bulk_write (read (fw_buffer sha_buffer image) size) size
        return .returned (if bytes_uploaded < 0 then -1 else bytes_uploaded) writes

end Firmware

section Bitstream

variable (heap : Heap) (sha_buffer : List Byte → Vector Byte 20)

/-- The characters of `4010xlpc84`. -/
def partName : List Byte := [0x34, 0x30, 0x31, 0x30, 0x78, 0x6C, 0x70, 0x63, 0x38, 0x34]

def UNICONE_STATUS_OK : Byte := 0x00

def bitstreamBuffer (file : Option (List Byte)) : Option (Except Outcome (List Byte × ℤ)) := do
  match file with
  | none => return .error (.returned (-1) [])
  | some file =>
    match ← bitfile_new_from_file heap file with
    | none => return .error (.returned (-1) [])
    | some bf =>
      match bf.string .part_number with
      | none => return .error .nullDereference
      | some part_number =>
        if part_number.takeWhile (· ≠ 0) ≠ partName then return .error (.returned (-1) [])
        else
          let (bf, retval) := bitfile_read_content heap bf
          if retval < 0 then return .error (.returned (-1) [])
          else
            let buffer_size := (bf.length + 20).bmod (2 ^ 32)
            if heap.malloc (size_t buffer_size) then
              let data := bf.data.getD []
              return .ok ((sha_buffer data).toList ++ data, buffer_size)
            else return .error .assertFailed

def unicone_device_upload_bitstream (usb : Usb) (firmware_installed : Bool)
    (file : Option (List Byte)) : Option Outcome := do
  if firmware_installed then
    match ← bitstreamBuffer heap sha_buffer file with
    | .error outcome => return outcome
    | .ok (buffer, buffer_size) =>
      if usb.config_begin < 0 then return .returned (-1) []
      else
        let (bytes_uploaded, writes) ← send_bulk_ep_buffer usb.bulk_write buffer buffer_size
        if bytes_uploaded < 0 then return .returned (-1) writes
        else if usb.config_end < 0 then return .returned (-1) writes
        else if usb.retbyte = UNICONE_STATUS_OK then return .returned bytes_uploaded writes
        else return .returned (-1) writes
  else return .assertFailed

end Bitstream

def Consecutive : List Byte → List Write → Prop
  | _, [] => True
  | buffer, write :: writes =>
    write.packet = buffer.take 128 ∧ write.packet ≠ [] ∧
      Consecutive (buffer.drop write.retval.toNat) writes

/-- How much of `n` bytes is sent before write `i`. -/
def sent (results : ℕ → ℤ) (n : ℕ) : ℕ → ℕ
  | 0 => 0
  | i + 1 => sent results n i + min (results i).toNat (min 128 (n - sent results n i))

/-- A write that takes nothing comes before the end and before any error. -/
def Stalls (results : ℕ → ℤ) (n : ℕ) : Prop :=
  ∃ i, results i = 0 ∧ (∀ j < i, 0 < results j) ∧ sent results n i < n

section Send

variable {results : ℕ → ℤ} {buffer : List Byte} {n i : ℕ}

theorem sent_le (results : ℕ → ℤ) (n i : ℕ) : sent results n i ≤ n := by
  induction i with
  | zero => exact Nat.zero_le n
  | succ i ih =>
    rw [sent]
    omega

theorem sent_mono {j : ℕ} (h : i ≤ j) : sent results n i ≤ sent results n j := by
  induction h with
  | refl => exact Nat.le_refl _
  | step _ ih => exact Nat.le_trans ih (Nat.le_add_right _ _)

theorem not_stalls_of_sent (hbefore : ∀ j < i, 0 < results j) (h : sent results n i = n) :
    ¬Stalls results n := by
  rintro ⟨k, hzero, -, hlt⟩
  rcases Nat.lt_or_ge k i with hk | hk
  · exact absurd (hbefore k hk) (by omega)
  · have hmono : sent results n i ≤ sent results n k := sent_mono hk
    omega

theorem not_stalls_of_neg (hbefore : ∀ j < i, 0 < results j) (h : results i < 0) :
    ¬Stalls results n := by
  rintro ⟨k, hzero, hpos, -⟩
  rcases Nat.lt_trichotomy k i with hk | rfl | hk
  · exact absurd (hbefore k hk) (by omega)
  · omega
  · exact absurd (hpos i hk) (by omega)

structure Sends (results : ℕ → ℤ) (n : ℕ) (rest : List Byte) (result : ℤ) (writes : List Write) :
    Prop where
  consecutive : Consecutive rest writes
  result_of_stalls : Stalls results n → result = 0 ∧ accepted writes ≠ rest
  result_of_not_stalls : ¬Stalls results n → result < 0 ∨ result = n ∧ accepted writes = rest

theorem Sends.done (hbefore : ∀ j < i, 0 < results j) (h : sent results n i = n) :
    Sends results n [] n [] where
  consecutive := trivial
  result_of_stalls hstalls := absurd hstalls (not_stalls_of_sent hbefore h)
  result_of_not_stalls _ := .inr ⟨rfl, rfl⟩

theorem packet_ne_nil {rest : List Byte} (hrest : rest ≠ []) : rest.take 128 ≠ [] := by
  rw [Ne, List.take_eq_nil_iff, not_or]
  exact ⟨by decide, hrest⟩

theorem Sends.error {rest : List Byte} (hbefore : ∀ j < i, 0 < results j) (hneg : results i < 0)
    (hrest : rest ≠ []) : Sends results n rest (results i) [⟨rest.take 128, results i⟩] where
  consecutive := ⟨rfl, packet_ne_nil hrest, trivial⟩
  result_of_stalls hstalls := absurd hstalls (not_stalls_of_neg hbefore hneg)
  result_of_not_stalls _ := .inl hneg

theorem Sends.stall {rest : List Byte} (hbefore : ∀ j < i, 0 < results j) (hzero : results i = 0)
    (hlt : sent results n i < n) (hrest : rest ≠ []) :
    Sends results n rest 0 [⟨rest.take 128, 0⟩] where
  consecutive := ⟨rfl, packet_ne_nil hrest, trivial⟩
  result_of_stalls _ := ⟨rfl, hrest.symm⟩
  result_of_not_stalls hstalls := absurd ⟨i, hzero, hbefore, hlt⟩ hstalls

theorem Sends.cons {rest : List Byte} {t : ℕ} {result : ℤ} {writes : List Write}
    (h : Sends results n (rest.drop t) result writes) (ht : t ≤ 128) (hrest : rest ≠ []) :
    Sends results n rest result (⟨rest.take 128, t⟩ :: writes) := by
  have haccepted : accepted (⟨rest.take 128, t⟩ :: writes) = rest.take t ++ accepted writes := by
    rw [accepted, List.flatMap_cons, Write.accepted, Int.toNat_natCast, List.take_take,
      Nat.min_eq_left ht, accepted]
  refine ⟨⟨rfl, packet_ne_nil hrest, h.consecutive⟩, ?_, ?_⟩
  · intro hstalls
    obtain ⟨hresult, hpart⟩ := h.result_of_stalls hstalls
    refine ⟨hresult, fun heq => hpart ?_⟩
    rw [haccepted] at heq
    exact List.append_cancel_left (heq.trans (List.take_append_drop t rest).symm)
  · intro hstalls
    rcases h.result_of_not_stalls hstalls with hresult | ⟨hresult, hall⟩
    · exact .inl hresult
    · exact .inr ⟨hresult, by rw [haccepted, hall, List.take_append_drop]⟩

theorem sendLoop_succ {s : ℕ} (fuel i : ℕ) (uploaded : ℤ) (hs : s < buffer.length) :
    sendLoop results buffer (fuel + 1) i s (buffer.length - s) uploaded =
      if results i ≤ 0 then some (results i, [⟨(buffer.drop s).take 128, results i⟩])
      else
        let t := min (results i).toNat (min 128 (buffer.length - s))
        (sendLoop results buffer fuel (i + 1) (s + t) (buffer.length - s - t) (uploaded + t)).map
          fun p => (p.1, ⟨(buffer.drop s).take 128, t⟩ :: p.2) := by
  have hremaining : (0 : ℤ) < buffer.length - s := by omega
  have hsize : (if block_size < (buffer.length - s : ℤ) then block_size
      else (buffer.length - s : ℤ)).toNat = min 128 (buffer.length - s) := by
    rw [block_size]
    split_ifs <;> omega
  have htake : (buffer.drop s).take (min 128 (buffer.length - s)) = (buffer.drop s).take 128 := by
    rw [List.take_eq_take_iff, List.length_drop]
    omega
  have hlength : ((buffer.drop s).take 128).length = min 128 (buffer.length - s) := by
    rw [List.length_take, List.length_drop]
  simp only [sendLoop, if_pos hremaining, hsize, htake, hlength]
  by_cases hresult : results i ≤ 0
  · have hretval : min (results i) ((min 128 (buffer.length - s) : ℕ) : ℤ) = results i := by omega
    rw [hretval, if_pos hresult, if_pos hresult]
  · obtain ⟨t, ht⟩ : ∃ t, min (results i).toNat (min 128 (buffer.length - s)) = t := ⟨_, rfl⟩
    have hretval : min (results i) ((min 128 (buffer.length - s) : ℕ) : ℤ) = t := by omega
    rw [hretval, ht, if_neg (by omega), if_neg hresult, Int.toNat_natCast]
    generalize sendLoop results buffer fuel (i + 1) (s + t) _ _ = rest
    cases rest <;> rfl

theorem sendLoop_spec {fuel : ℕ} (hbefore : ∀ j < i, 0 < results j)
    (hfuel : buffer.length - sent results buffer.length i < fuel) :
    ∃ result writes, sendLoop results buffer fuel i (sent results buffer.length i)
      (buffer.length - sent results buffer.length i) (sent results buffer.length i) =
        some (result, writes) ∧
      Sends results buffer.length (buffer.drop (sent results buffer.length i)) result writes := by
  induction fuel generalizing i with
  | zero => omega
  | succ fuel ih =>
    have hle := sent_le results buffer.length i
    have hrec : sent results buffer.length (i + 1) = sent results buffer.length i +
      min (results i).toNat (min 128 (buffer.length - sent results buffer.length i)) := rfl
    rcases Nat.lt_or_eq_of_le hle with hlt | hdone
    · have hrest : buffer.drop (sent results buffer.length i) ≠ [] := by
        rw [Ne, List.drop_eq_nil_iff]
        omega
      rw [sendLoop_succ fuel i _ hlt]
      rcases Int.lt_trichotomy (results i) 0 with hneg | hzero | hpos
      · rw [if_pos (Int.le_of_lt hneg)]
        exact ⟨_, _, rfl, .error hbefore hneg hrest⟩
      · rw [if_pos (Int.le_of_eq hzero), hzero]
        exact ⟨_, _, rfl, .stall hbefore hzero hlt hrest⟩
      · have hbefore' : ∀ j < i + 1, 0 < results j := by
          intro j hj
          rcases Nat.lt_succ_iff_lt_or_eq.mp hj with hj | rfl
          · exact hbefore j hj
          · exact hpos
        obtain ⟨result, writes, hloop, hsends⟩ := ih hbefore' (by omega)
        rw [hrec, Int.natCast_add, ← Int.sub_sub] at hloop
        rw [hrec, ← List.drop_drop] at hsends
        rw [if_neg (Int.not_le.mpr hpos)]
        dsimp only
        rw [hloop]
        exact ⟨_, _, rfl, hsends.cons (by omega) hrest⟩
    · have hremaining : ¬(0 : ℤ) < buffer.length - sent results buffer.length i := by omega
      rw [sendLoop, if_neg hremaining, List.drop_of_length_le (Nat.le_of_eq hdone.symm), hdone]
      exact ⟨_, _, rfl, .done hbefore hdone⟩

theorem send_bulk_ep_buffer_spec (results : ℕ → ℤ) (buffer : List Byte) :
    ∃ result writes, send_bulk_ep_buffer results buffer buffer.length = some (result, writes) ∧
      Sends results buffer.length buffer result writes := by
  have hfuel : buffer.length - sent results buffer.length 0 < buffer.length + 1 :=
    Nat.lt_succ_of_le (Nat.sub_le _ _)
  have hloop := sendLoop_spec (fun j hj => absurd hj (Nat.not_lt_zero j)) hfuel
  rw [sent, List.drop_zero, Int.natCast_zero, Int.sub_zero] at hloop
  rw [send_bulk_ep_buffer, Int.toNat_natCast]
  exact hloop

end Send

section Firmware

variable (sha_buffer : List Byte → Vector Byte 20)

def firmwareUpload (image : List Byte) : List Byte :=
  let code := image ++ List.replicate (MAX_FIRMWARE_SIZE - image.length) 0 ++
    (sha_buffer image).toList
  [0x00, 0x20, arith_checksum_8bit code] ++ code

variable {sha_buffer} {image : List Byte}

theorem length_firmwareUpload (himage : image.length ≤ MAX_FIRMWARE_SIZE) :
    (firmwareUpload sha_buffer image).length = FIRMWARE_HEADER_SIZE + CODESPACE_SIZE := by
  rw [MAX_FIRMWARE_SIZE, CODESPACE_SIZE, SHA1_STAMP_SIZE] at *
  simp only [firmwareUpload, List.length_append, List.length_cons, List.length_nil,
    List.length_replicate, Vector.length_toList, FIRMWARE_HEADER_SIZE, MAX_FIRMWARE_SIZE,
    CODESPACE_SIZE, SHA1_STAMP_SIZE]
  omega

theorem read_fw_buffer (himage : image.length ≤ MAX_FIRMWARE_SIZE) :
    read (fw_buffer sha_buffer image) (FIRMWARE_HEADER_SIZE + CODESPACE_SIZE) =
      firmwareUpload sha_buffer image := by
  let padded := image ++ List.replicate (MAX_FIRMWARE_SIZE - image.length) 0
  let stamp := (sha_buffer image).toList
  let m := copy (copy (fun _ => 0) FIRMWARE_HEADER_SIZE image)
    (FIRMWARE_HEADER_SIZE + CODESPACE_SIZE - SHA1_STAMP_SIZE) stamp
  have hpadded : padded.length = MAX_FIRMWARE_SIZE := by
    rw [List.length_append, List.length_replicate, Nat.add_sub_cancel' himage]
  have hstamp : stamp.length = SHA1_STAMP_SIZE := Vector.length_toList
  have hall : read m (FIRMWARE_HEADER_SIZE + CODESPACE_SIZE) =
      read (fun _ => 0) FIRMWARE_HEADER_SIZE ++ padded ++ stamp := by
    have hbody := read_copy (fun _ => (0 : Byte)) FIRMWARE_HEADER_SIZE padded
    have hread := read_copy (copy (fun _ => 0) FIRMWARE_HEADER_SIZE image)
      (FIRMWARE_HEADER_SIZE + MAX_FIRMWARE_SIZE) stamp
    rw [copy_replicate, hpadded] at hbody
    rw [hbody, hstamp] at hread
    exact hread
  have hcode : read (fun i => m (FIRMWARE_HEADER_SIZE + i)) CODESPACE_SIZE = padded ++ stamp := by
    rw [read_add, List.append_assoc] at hall
    exact (List.append_inj hall (by rw [length_read, length_read])).2
  have hcopied := read_copy_zero m [BitVec.ofNat 8 (CODESPACE_SIZE &&& 0xFF),
    BitVec.ofNat 8 (CODESPACE_SIZE >>> 8), arith_checksum_8bit (padded ++ stamp)] CODESPACE_SIZE
  change read (copy m 0 [_, _, arith_checksum_8bit _]) _ = _
  rw [hcode]
  exact hcopied.trans (congrArg (List.append _) hcode)

end Firmware

def Reports (whole : List Byte → Prop) (outcome : Outcome) : Prop :=
  ∀ value writes, outcome = .returned value writes → 0 ≤ value → whole (accepted writes)

theorem reports_failed (whole : List Byte → Prop) (writes : List Write) :
    Reports whole (.returned (-1) writes) := by
  intro value _ heq hvalue
  cases heq
  exact absurd hvalue (by decide)

section Uploads

variable (usb : Usb)

theorem reports_sends_iff {results : ℕ → ℤ} {buffer : List Byte} {result : ℤ} {writes : List Write}
    (h : Sends results buffer.length buffer result writes) :
    Reports (· = buffer) (.returned (if result < 0 then -1 else result) writes) ↔
      ¬Stalls results buffer.length := by
  constructor
  · intro hreports hstalls
    obtain ⟨rfl, hpart⟩ := h.result_of_stalls hstalls
    exact hpart (hreports _ _ rfl (by decide))
  · intro hstalls value writes' heq hvalue
    cases heq
    rcases h.result_of_not_stalls hstalls with hneg | ⟨-, hall⟩
    · rw [if_pos hneg] at hvalue
      exact absurd hvalue (by decide)
    · exact hall

theorem upload_firmware_iff (sha_buffer : List Byte → Vector Byte 20) (firmware_installed : Bool)
    (file : Option (List Byte)) : ∃ outcome,
      unicone_device_upload_firmware sha_buffer usb firmware_installed file = some outcome ∧
      (Reports (· = firmwareUpload sha_buffer (file.getD [])) outcome ↔
        ¬(firmware_installed = false ∧ 0 < (file.getD []).length ∧
          (file.getD []).length ≤ MAX_FIRMWARE_SIZE ∧
          Stalls usb.bulk_write (FIRMWARE_HEADER_SIZE + CODESPACE_SIZE))) := by
  cases firmware_installed with
  | true =>
    exact ⟨.assertFailed, rfl, fun _ h => Bool.noConfusion h.1, fun _ => nofun⟩
  | false =>
    cases file with
    | none => exact ⟨_, rfl, fun _ h => Nat.lt_irrefl 0 h.2.1, fun _ => reports_failed _ _⟩
    | some file =>
      simp only [unicone_device_upload_firmware, Option.getD_some, List.length_take,
        if_neg Bool.false_ne_true]
      by_cases hempty : min (MAX_FIRMWARE_SIZE + 1) file.length ≤ 0
      · rw [if_pos hempty]
        exact ⟨_, rfl, fun _ h => by omega, fun _ => reports_failed _ _⟩
      rw [if_neg hempty]
      by_cases hlarge : MAX_FIRMWARE_SIZE < min (MAX_FIRMWARE_SIZE + 1) file.length
      · rw [if_pos hlarge]
        exact ⟨_, rfl, fun _ h => by omega, fun _ => reports_failed _ _⟩
      have hsize : file.length ≤ MAX_FIRMWARE_SIZE := by omega
      obtain ⟨result, writes, hsend, hsends⟩ :=
        send_bulk_ep_buffer_spec usb.bulk_write (firmwareUpload sha_buffer file)
      have hiff := reports_sends_iff hsends
      rw [length_firmwareUpload hsize] at hsend hiff
      rw [if_neg hlarge, List.take_of_length_le (by omega), read_fw_buffer hsize, hsend]
      refine ⟨_, rfl, hiff.trans (not_congr ?_)⟩
      exact ⟨fun hstalls => ⟨trivial, by omega, hsize, hstalls⟩, fun h => h.2.2.2⟩

section Bitstream

variable (heap : Heap) (sha_buffer : List Byte → Vector Byte 20)

theorem buffer_size_eq {length : ℕ} (hlt : length < 2 ^ 31)
    (hmalloc : heap.malloc (size_t (((length : ℤ) + 20).bmod (2 ^ 32))) = true) :
    ((length : ℤ) + 20).bmod (2 ^ 32) = length + 20 := by
  by_cases hsmall : length + 20 < 2 ^ 31
  · rw [Int.bmod_eq_of_le_mul_two] <;> omega
  · have hwrap : ((length : ℤ) + 20).bmod (2 ^ 32) = length + 20 - 2 ^ 32 := by
      rw [← Int.sub_bmod_right, Int.bmod_eq_of_le_mul_two] <;> omega
    rw [hwrap, heap.malloc_large _ (by rw [size_t]; omega)] at hmalloc
    exact absurd hmalloc Bool.false_ne_true

theorem bitstreamBuffer_spec (file : Option (List Byte)) :
    (∃ outcome, bitstreamBuffer heap sha_buffer file = some (.error outcome) ∧
      ∀ whole, Reports whole outcome) ∨
    ∃ data, bitstreamBuffer heap sha_buffer file = some (.ok ((sha_buffer data).toList ++ data,
      (((sha_buffer data).toList ++ data).length : ℤ))) := by
  rcases file with _ | file
  · exact .inl ⟨_, rfl, fun whole => reports_failed whole []⟩
  obtain ⟨_ | bf, hbf⟩ := exists_new_from_file heap file
  · refine .inl ⟨.returned (-1) [], ?_, fun whole => reports_failed whole []⟩
    simp only [bitstreamBuffer, hbf]
    rfl
  simp only [bitstreamBuffer, hbf, Option.bind_eq_bind, Option.bind_some]
  rcases hstring : bf.string .part_number with _ | part_number
  · exact .inl ⟨.nullDereference, rfl, fun _ _ _ => nofun⟩
  dsimp only
  split_ifs with hpart hretval hmalloc
  · exact .inl ⟨.returned (-1) [], rfl, fun whole => reports_failed whole []⟩
  · exact .inl ⟨.returned (-1) [], rfl, fun whole => reports_failed whole []⟩
  · obtain ⟨data, hdata, hlength, hlt⟩ :=
      read_content_ok (new_from_file_length_lt heap hbf) (Prod.mk.eta).symm hretval
    rw [hlength] at hmalloc ⊢
    rw [hdata, buffer_size_eq heap hlt hmalloc]
    refine .inr ⟨data, ?_⟩
    rw [List.length_append, Vector.length_toList, Int.natCast_add, Int.add_comm]
    rfl
  · exact .inl ⟨.assertFailed, rfl, fun _ _ _ => nofun⟩

theorem upload_bitstream_buffer {file : Option (List Byte)} {buffer : List Byte}
    (hbuffer : bitstreamBuffer heap sha_buffer file = some (.ok (buffer, (buffer.length : ℤ)))) :
    ∃ outcome, unicone_device_upload_bitstream heap sha_buffer usb true file = some outcome ∧
      (Reports (· = buffer) outcome ↔
        ¬(0 ≤ usb.config_begin ∧ 0 ≤ usb.config_end ∧ usb.retbyte = UNICONE_STATUS_OK ∧
          Stalls usb.bulk_write buffer.length)) := by
  obtain ⟨result, writes, hsend, hsends⟩ := send_bulk_ep_buffer_spec usb.bulk_write buffer
  have hiff := reports_sends_iff hsends
  simp only [unicone_device_upload_bitstream, hbuffer, if_true, Option.bind_eq_bind,
    Option.bind_some]
  by_cases hbegin : usb.config_begin < 0
  · rw [if_pos hbegin]
    exact ⟨_, rfl, iff_of_true (reports_failed _ _) fun h => by omega⟩
  rw [if_neg hbegin, hsend, Option.bind_some]
  dsimp only
  by_cases hresult : result < 0
  · rw [if_pos hresult] at hiff ⊢
    exact ⟨_, rfl, iff_of_true (reports_failed _ _) fun h => hiff.mp (reports_failed _ _) h.2.2.2⟩
  rw [if_neg hresult] at hiff ⊢
  by_cases hend : usb.config_end < 0
  · rw [if_pos hend]
    exact ⟨_, rfl, iff_of_true (reports_failed _ _) fun h => by omega⟩
  rw [if_neg hend]
  by_cases hstatus : usb.retbyte = UNICONE_STATUS_OK
  · rw [if_pos hstatus]
    refine ⟨_, rfl, hiff.trans (not_congr ?_)⟩
    exact ⟨fun h => ⟨by omega, by omega, hstatus, h⟩, fun h => h.2.2.2⟩
  · rw [if_neg hstatus]
    exact ⟨_, rfl, iff_of_true (reports_failed _ _) fun h => hstatus h.2.2.1⟩

theorem upload_bitstream_iff (firmware_installed : Bool) (file : Option (List Byte)) : ∃ outcome,
    unicone_device_upload_bitstream heap sha_buffer usb firmware_installed file = some outcome ∧
    (Reports (fun sent => ∃ buffer_size,
        bitstreamBuffer heap sha_buffer file = some (.ok (sent, buffer_size))) outcome ↔
      ¬(firmware_installed = true ∧ 0 ≤ usb.config_begin ∧ 0 ≤ usb.config_end ∧
        usb.retbyte = UNICONE_STATUS_OK ∧ ∃ buffer buffer_size,
          bitstreamBuffer heap sha_buffer file = some (.ok (buffer, buffer_size)) ∧
          Stalls usb.bulk_write buffer.length)) := by
  cases firmware_installed with
  | false => exact ⟨.assertFailed, rfl, fun _ h => Bool.noConfusion h.1, fun _ _ _ => nofun⟩
  | true =>
    rcases bitstreamBuffer_spec heap sha_buffer file with
      ⟨outcome, hbuffer, hreports⟩ | ⟨data, hbuffer⟩
    · refine ⟨outcome, ?_, ?_⟩
      · simp only [unicone_device_upload_bitstream, hbuffer]
        rfl
      · refine iff_of_true (hreports _) ?_
        rintro ⟨-, -, -, -, buffer, buffer_size, hok, -⟩
        rw [hbuffer] at hok
        cases hok
    · obtain ⟨outcome, houtcome, hiff⟩ := upload_bitstream_buffer usb heap sha_buffer hbuffer
      refine ⟨outcome, houtcome, ?_⟩
      rw [hbuffer]
      simpa [eq_comm] using hiff

end Bitstream

theorem uploads_iff (heap : Heap) (sha_buffer : List Byte → Vector Byte 20)
    (firmware_installed : Bool) (file : Option (List Byte)) :
    (∀ buffer, ∃ result writes,
      send_bulk_ep_buffer usb.bulk_write buffer buffer.length = some (result, writes) ∧
      Consecutive buffer writes) ∧
    (∃ outcome,
      unicone_device_upload_firmware sha_buffer usb firmware_installed file = some outcome ∧
      (Reports (· = firmwareUpload sha_buffer (file.getD [])) outcome ↔
        ¬(firmware_installed = false ∧ 0 < (file.getD []).length ∧
          (file.getD []).length ≤ MAX_FIRMWARE_SIZE ∧
          Stalls usb.bulk_write (FIRMWARE_HEADER_SIZE + CODESPACE_SIZE)))) ∧
    ∃ outcome,
      unicone_device_upload_bitstream heap sha_buffer usb firmware_installed file = some outcome ∧
      (Reports (fun sent => ∃ buffer_size,
          bitstreamBuffer heap sha_buffer file = some (.ok (sent, buffer_size))) outcome ↔
        ¬(firmware_installed = true ∧ 0 ≤ usb.config_begin ∧ 0 ≤ usb.config_end ∧
          usb.retbyte = UNICONE_STATUS_OK ∧ ∃ buffer buffer_size,
            bitstreamBuffer heap sha_buffer file = some (.ok (buffer, buffer_size)) ∧
            Stalls usb.bulk_write buffer.length)) := by
  refine ⟨fun buffer => ?_, upload_firmware_iff usb sha_buffer firmware_installed file,
    upload_bitstream_iff usb heap sha_buffer firmware_installed file⟩
  obtain ⟨result, writes, hsend, hsends⟩ := send_bulk_ep_buffer_spec usb.bulk_write buffer
  exact ⟨result, writes, hsend, hsends.consecutive⟩

/-- Nothing is sent when the first write takes nothing, and that counts as success. -/
theorem not_uploads : ¬∀ (usb : Usb) (sha_buffer : List Byte → Vector Byte 20)
    (firmware_installed : Bool) (file : Option (List Byte)), ∃ outcome,
      unicone_device_upload_firmware sha_buffer usb firmware_installed file = some outcome ∧
      Reports (· = firmwareUpload sha_buffer (file.getD [])) outcome := by
  intro h
  let usb : Usb := ⟨fun _ => 0, 0, 0, 0⟩
  let sha_buffer : List Byte → Vector Byte 20 := fun _ => Vector.replicate 20 0
  obtain ⟨outcome, hupload, hreports⟩ := h usb sha_buffer false (some [0x01])
  obtain ⟨outcome', hupload', hiff⟩ := upload_firmware_iff usb sha_buffer false (some [0x01])
  obtain rfl := Option.some.inj (hupload.symm.trans hupload')
  exact hiff.mp hreports ⟨rfl, by decide, by decide, 0, rfl, nofun, by decide⟩

end Uploads

section Loading

variable {heap : Heap} {source : BitSource} {n : ℕ}

def Loads (heap : Heap) (source : BitSource) (file : List Byte) : Prop :=
  ∃ self, bitfile_new_from_file heap file = some (some self) ∧
    (∀ field, self.string field = some (source.string field)) ∧
    ∃ after, bitfile_read_content heap self = (after, (source.content.length : ℤ)) ∧
      after.data = some source.content

def Rejects (heap : Heap) (file : List Byte) : Prop :=
  bitfile_new_from_file heap file = some none ∨
    ∃ self, bitfile_new_from_file heap file = some (some self) ∧
      (bitfile_read_content heap self).2 = -1

def Checks (heap : Heap) (file : List Byte) : Prop :=
  ∀ sha_buffer usb,
    unicone_device_upload_bitstream heap sha_buffer usb true (some file) ≠ some .nullDereference

theorem bitstreamBuffer_null {sha_buffer : List Byte → Vector Byte 20} {file : List Byte} :
    bitstreamBuffer heap sha_buffer (some file) = some (.error .nullDereference) ↔
      ∃ self, bitfile_new_from_file heap file = some (some self) ∧
        self.string .part_number = none := by
  obtain ⟨_ | self, hself⟩ := exists_new_from_file heap file
  · simp [bitstreamBuffer, hself]
  · simp only [bitstreamBuffer, hself, Option.bind_eq_bind, Option.bind_some, Option.some.injEq,
      exists_eq_left']
    cases hstring : self.string .part_number with
    | none => exact iff_of_true rfl rfl
    | some part_number =>
      refine iff_of_false ?_ nofun
      dsimp only
      split_ifs <;> nofun

theorem upload_bitstream_null {sha_buffer : List Byte → Vector Byte 20} {usb : Usb}
    {file : Option (List Byte)} :
    unicone_device_upload_bitstream heap sha_buffer usb true file = some .nullDereference ↔
      bitstreamBuffer heap sha_buffer file = some (.error .nullDereference) := by
  rcases bitstreamBuffer_spec heap sha_buffer file with ⟨outcome, hbuffer, -⟩ | ⟨data, hbuffer⟩
  · simp [unicone_device_upload_bitstream, hbuffer]
  · obtain ⟨result, writes, hsend, -⟩ := send_bulk_ep_buffer_spec usb.bulk_write
      ((sha_buffer data).toList ++ data)
    rw [hbuffer]
    refine iff_of_false ?_ nofun
    simp only [unicone_device_upload_bitstream, hbuffer, if_true, Option.bind_eq_bind,
      Option.bind_some, hsend]
    split_ifs <;> nofun

theorem checks_iff {file : List Byte} : Checks heap file ↔
    ∀ self, bitfile_new_from_file heap file = some (some self) →
      self.string .part_number ≠ none := by
  constructor
  · intro h self hself hstring
    apply h (fun _ => Vector.replicate 20 0) ⟨fun _ => 0, 0, 0, 0⟩
    exact upload_bitstream_null.mpr (bitstreamBuffer_null.mpr ⟨self, hself, hstring⟩)
  · intro h sha_buffer usb hnull
    obtain ⟨self, hself, hstring⟩ := bitstreamBuffer_null.mp (upload_bitstream_null.mp hnull)
    exact h self hself hstring

/-- What is wanted of the first `n` bytes of a bit file. -/
def Handles (heap : Heap) (source : BitSource) (n : ℕ) : Prop :=
  if n = source.encode.length then Loads heap source source.encode
  else Rejects heap (source.encode.take n) ∧ Checks heap (source.encode.take n)

theorem loads_iff (hheap : heap.Ample) (source : BitSource) :
    Loads heap source source.encode ↔ ∀ field, source.string field ≠ [] := by
  have hencode := source.length_encode
  obtain ⟨self, file, hnew, hheader⟩ := new_from_file_of_le hheap source
    (by omega : 13 ≤ source.encode.length)
  rw [List.take_length] at hnew
  have hstring : ∀ field, self.string field = source.loaded field := by
    intro field
    have hends := source.ends_le (source.mem_order field)
    rw [hheader.string field (source.mem_order field), if_pos (by omega)]
  constructor
  · rintro ⟨self', hself', hloaded, -⟩ field hempty
    obtain rfl := Option.some.inj (Option.some.inj (hnew.symm.trans hself'))
    have hfield := (hstring field).symm.trans (hloaded field)
    rw [BitSource.loaded, if_pos hempty] at hfield
    cases hfield
  · intro h
    refine ⟨_, hnew, fun field => ?_, _, read_content_whole hheap hheader, rfl⟩
    exact (hstring field).trans (if_neg (h field))

theorem checks_take_iff (hheap : heap.Ample) (source : BitSource) :
    Checks heap (source.encode.take n) ↔
    n < 13 ∨ source.string .part_number ≠ [] ∧
      13 + source.ends source.order .part_number ≤ n := by
  rw [checks_iff]
  rcases Nat.lt_or_ge n 13 with hn | hn
  · rw [new_from_file_of_lt hheap source hn]
    exact iff_of_true (fun _ h => by cases h) (.inl hn)
  · obtain ⟨self, file, hnew, hheader⟩ := new_from_file_of_le hheap source hn
    rw [hnew]
    have hstring := hheader.string .part_number (source.mem_order .part_number)
    simp only [Option.some.injEq, forall_eq', hstring]
    rw [BitSource.loaded]
    split_ifs with hends hempty
    · exact iff_of_false (fun h => h rfl) (by rintro (h | h); omega; exact h.1 hempty)
    · exact iff_of_true (fun h => by cases h) (.inr ⟨hempty, by omega⟩)
    · exact iff_of_false (fun h => h rfl) (by omega)

theorem rejects_take (hheap : heap.Ample) (source : BitSource) (hn : n < source.encode.length) :
    Rejects heap (source.encode.take n) := by
  rcases Nat.lt_or_ge n 13 with hmagic | hmagic
  · exact .inl (new_from_file_of_lt hheap source hmagic)
  · obtain ⟨self, file, hnew, hheader⟩ := new_from_file_of_le hheap source hmagic
    exact .inr ⟨_, hnew, read_content_cut hn hheader⟩

theorem handles_iff (hheap : heap.Ample) (source : BitSource) (hn : n ≤ source.encode.length) :
    Handles heap source n ↔
      n = source.encode.length ∧ (∀ field, source.string field ≠ []) ∨
      n < source.encode.length ∧ (n < 13 ∨ source.string .part_number ≠ [] ∧
        13 + source.ends source.order .part_number ≤ n) := by
  rw [Handles]
  split_ifs with hwhole
  · rw [loads_iff hheap]
    constructor
    · exact fun h => .inl ⟨hwhole, h⟩
    · rintro (h | h)
      · exact h.2
      · exact absurd hwhole (Nat.ne_of_lt h.1)
  · have hcut : n < source.encode.length := Nat.lt_of_le_of_ne hn hwhole
    rw [checks_take_iff hheap]
    constructor
    · exact fun h => .inr ⟨hcut, h.2⟩
    · rintro (h | h)
      · exact absurd h.1 hwhole
      · exact ⟨rejects_take hheap source hcut, h.2⟩

def plenty : Heap where
  malloc size := size < 2 ^ 63
  malloc_large _ h := decide_eq_false (Nat.not_lt.mpr h)

theorem plenty_ample : plenty.Ample := fun _ _ h => decide_eq_true (Nat.lt_trans h (by decide))

def design : BitSource where
  order := [.ncd_filename, .part_number, .date, .time]
  nodup := by decide
  mem_order field := by cases field <;> decide
  string _ := [0x41, 0x00]
  string_lt _ := by decide
  content := [0xFF]
  content_pos := by decide
  content_lt := by decide

theorem handles_design : Handles plenty design design.encode.length :=
  (handles_iff plenty_ample design (Nat.le_refl _)).mpr (.inl ⟨rfl, fun _ => nofun⟩)

/-- After the magic number there is no part number to compare. -/
theorem not_handles : ¬∀ (heap : Heap) (_ : heap.Ample) (source : BitSource) (n : ℕ)
    (_ : n ≤ source.encode.length), Handles heap source n := by
  intro h
  have hmagic := h plenty plenty_ample design 13 (by decide)
  rw [Handles, if_neg (by decide), checks_take_iff plenty_ample] at hmagic
  exact absurd hmagic.2 (by decide)

end Loading

end NaviMisc.Wasabi.Unicone
