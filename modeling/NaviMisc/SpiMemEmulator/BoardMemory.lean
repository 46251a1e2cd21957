import Mathlib.Data.BitVec
import Mathlib.Tactic.Ring
import NaviMisc.SpiMemEmulator.Client

/-!
The reply to a command, and the accesses to the memory that it takes.
-/

namespace NaviMisc.SpiMemEmulator

open NaviMisc.Lib.ByteStuffing

structure Packet.Fits (p : Packet) (cmdId : BitVec 4) : Prop where
  type : p.type = cmdId ++ 0#20
  replyDataLen : ∀ r : SioReceive, r.cmdId = cmdId → r.cmdReplyLen.toNat = p.replyDataLen

namespace Packet

theorem fits_write (address : ℤ) : (write address).Fits CMD_WRITE where
  type := rfl
  replyDataLen r h := by rw [SioReceive.cmdReplyLen, h]; rfl

theorem fits_read16 (address : ℤ) : (read16 address).Fits CMD_READ_16 where
  type := rfl
  replyDataLen r h := by rw [SioReceive.cmdReplyLen, h]; rfl

theorem fits_read1K (address : ℤ) : (read1K address).Fits CMD_READ_1K where
  type := rfl
  replyDataLen r h := by rw [SioReceive.cmdReplyLen, h]; rfl

theorem fits_read64K (address : ℤ) : (read64K address).Fits CMD_READ_64K where
  type := rfl
  replyDataLen r h := by rw [SioReceive.cmdReplyLen, h]; rfl

theorem Fits.header_eq {p : Packet} {cmdId : BitVec 4} (h : p.Fits cmdId) :
    p.header = Heard.command cmdId p.address := by
  have hword : p.type ||| p.address.setWidth 24 = (cmdId ++ p.address : BitVec 24) := by
    rw [h.type]
    apply BitVec.eq_of_getLsbD_eq
    intro i hi
    have hwidth : (cmdId ++ 0#20 : BitVec 24).getLsbD i = (cmdId ++ 0#20).getLsbD i := rfl
    rw [BitVec.getLsbD_or, BitVec.getLsbD_setWidth, hwidth, BitVec.getLsbD_append,
      BitVec.getLsbD_append]
    by_cases hlow : i < 20
    · simp [hlow, hi]
    · simp [hlow, hi, BitVec.getLsbD_of_ge p.address i (by omega)]
  have hhigh : BitVec.extractLsb' 16 8 (cmdId ++ p.address : BitVec 24) =
      cmdId ++ p.address.extractLsb' 16 4 := by
    apply BitVec.eq_of_getLsbD_eq
    intro i hi
    rw [BitVec.getLsbD_extractLsb', BitVec.getLsbD_append, BitVec.getLsbD_append,
      BitVec.getLsbD_extractLsb']
    by_cases hlow : i < 4
    · have hlt : 16 + i < 20 := by omega
      simp [hlow, hlt, hi]
    · have hge : ¬16 + i < 20 := by omega
      have hsub : 16 + i - 20 = i - 4 := by omega
      simp [hlow, hge, hi, hsub]
  rw [header, hword, Heard.command]
  rw [hhigh, BitVec.extractLsb'_append_eq_of_add_le (by omega),
    BitVec.extractLsb'_append_eq_of_add_le (by omega)]

end Packet

def reply (cmdId : BitVec 4) (address : BitVec 20) (block : List Byte) : List (Symbol Byte) :=
  .flag :: (Heard.command cmdId address ++ block).map .data

namespace SioTransmit

def shown (r : SioTransmit) : Option (Symbol Byte) :=
  if r.txFlag then some .flag else if r.txDataStrobe then some (.data r.txData) else none

def stage : ℕ → TxState
  | 0 => .flag
  | 1 => .command
  | 2 => .addr2
  | 3 => .addr3
  | _ => .data

structure Replying (address : BitVec 20) (len k : ℕ) (r : SioTransmit) : Prop where
  le : k ≤ 4 + len
  txState : r.txState = stage k ∨ r.txState = .idle ∧ k = 4 + len
  txReplyLen : r.txReplyLen.toNat = len - (k - 4)
  txAddress : r.txAddress = address + BitVec.ofNat 20 (k - 4)

structure Quiescent (r : SioTransmit) : Prop where
  txState : r.txState = .idle ∨ r.txState = .data ∧ r.txReplyLen = 0
  shown : r.shown = none

variable {address : BitVec 20} {cmdId : BitVec 4} {block : List Byte} {len k : ℕ} {r : SioTransmit}
  {i : SioInput} {rx : SioReceive} {cmdReplyData : Byte}

theorem shown_eq_none_iff : r.shown = none ↔ r.txFlag = false ∧ r.txDataStrobe = false := by
  rw [shown]
  cases r.txFlag <;> cases r.txDataStrobe <;> simp

theorem clock_header (hheader : rx.cmdHeaderStrobe i = true) :
    (r.clock i rx cmdReplyData).Replying (rx.cmdNextAddress i) rx.cmdReplyLen.toNat 0 ∧
      (r.clock i rx cmdReplyData).shown = none := by
  rw [clock, if_pos hheader]
  exact ⟨⟨Nat.zero_le _, Or.inl rfl, rfl, (BitVec.add_zero _).symm⟩, rfl⟩

theorem clock_wait (hheader : rx.cmdHeaderStrobe i = false)
    (hwait : i.txReady = false ∨ r.shown ≠ none) :
    r.clock i rx cmdReplyData =
      { r with txData := i.txDataX, txDataStrobe := false, txFlag := false } := by
  have hnot : ¬(i.txReady && !r.txDataStrobe && !r.txFlag) = true := by
    rw [Bool.and_eq_true, Bool.and_eq_true]
    rintro ⟨⟨hready, hstrobe⟩, hflag⟩
    rcases hwait with hnot | hne
    · exact absurd (hready.symm.trans hnot) Bool.noConfusion
    · exact hne (shown_eq_none_iff.mpr ⟨by simpa using hflag, by simpa using hstrobe⟩)
  rw [clock, hheader, if_neg Bool.false_ne_true, if_neg hnot]

theorem clock_ready (hready : i.txReady = true) (hshown : r.shown = none) :
    (i.txReady && !r.txDataStrobe && !r.txFlag) = true := by
  rw [hready, (shown_eq_none_iff.mp hshown).1, (shown_eq_none_iff.mp hshown).2]
  rfl

theorem Replying.wait (h : Replying address len k r) (hheader : rx.cmdHeaderStrobe i = false)
    (hwait : i.txReady = false ∨ r.shown ≠ none) :
    (r.clock i rx cmdReplyData).Replying address len k ∧
      (r.clock i rx cmdReplyData).shown = none := by
  rw [clock_wait hheader hwait]
  exact ⟨⟨h.le, h.txState, h.txReplyLen, h.txAddress⟩, rfl⟩

theorem Replying.quiescent (h : Replying address len (4 + len) r) (hshown : r.shown = none) :
    r.Quiescent := by
  refine ⟨?_, hshown⟩
  rcases h.txState with hdata | ⟨hidle, -⟩
  · refine Or.inr ⟨?_, ?_⟩
    · rw [hdata, Nat.add_comm]
      rfl
    · apply BitVec.eq_of_toNat_eq
      rw [h.txReplyLen, Nat.add_sub_cancel_left, Nat.sub_self]
      rfl
  · exact Or.inl hidle

theorem Replying.rest (h : Replying address len (4 + len) r) (hheader : rx.cmdHeaderStrobe i = false)
    (hready : i.txReady = true) (hshown : r.shown = none) :
    (r.clock i rx cmdReplyData).Replying address len (4 + len) ∧
      (r.clock i rx cmdReplyData).shown = none := by
  have hlen := h.txReplyLen
  rw [Nat.add_sub_cancel_left, Nat.sub_self] at hlen
  have hzero : r.txReplyLen = 0 := BitVec.eq_of_toNat_eq hlen
  have hzero' : (0 : BitVec 17).toNat = len - (4 + len - 4) := by
    rw [Nat.add_sub_cancel_left, Nat.sub_self]
    rfl
  rw [clock, hheader, if_neg Bool.false_ne_true, if_pos (clock_ready hready hshown)]
  rcases (h.quiescent hshown).txState with hidle | ⟨hdata, -⟩
  · rw [hidle]
    exact ⟨⟨h.le, Or.inr ⟨rfl, rfl⟩, h.txReplyLen, h.txAddress⟩, rfl⟩
  · rw [hdata, hzero]
    exact ⟨⟨h.le, Or.inr ⟨rfl, rfl⟩, hzero', h.txAddress⟩, rfl⟩

theorem Quiescent.clock (h : r.Quiescent) (hheader : rx.cmdHeaderStrobe i = false) :
    (r.clock i rx cmdReplyData).Quiescent := by
  by_cases hready : i.txReady = true
  · rw [SioTransmit.clock, hheader, if_neg Bool.false_ne_true, if_pos (clock_ready hready h.shown)]
    rcases h.txState with hidle | ⟨hdata, hzero⟩
    · rw [hidle]
      exact ⟨Or.inl rfl, rfl⟩
    · rw [hdata, hzero]
      exact ⟨Or.inl rfl, rfl⟩
  · rw [clock_wait hheader (Or.inl (Bool.eq_false_iff.mpr hready))]
    exact ⟨h.txState, rfl⟩

theorem Replying.issue (h : Replying address block.length k r)
    (hheader : rx.cmdHeaderStrobe i = false) (hready : i.txReady = true) (hshown : r.shown = none)
    (hk : k < 4 + block.length) (hid : rx.cmdId = cmdId)
    (hdata : 4 ≤ k → block[k - 4]? = some cmdReplyData) :
    (r.clock i rx cmdReplyData).Replying address block.length (k + 1) ∧
      (r.clock i rx cmdReplyData).txState = stage (k + 1) ∧
        (r.clock i rx cmdReplyData).shown = (reply cmdId address block)[k]? := by
  have hstate : r.txState = stage k := h.txState.resolve_right fun hidle => by omega
  have hlen := h.txReplyLen
  have haddress := h.txAddress
  rw [clock, hheader, if_neg Bool.false_ne_true, if_pos (clock_ready hready hshown), hstate]
  match k with
  | 0 => exact ⟨⟨hk, Or.inl rfl, hlen, haddress⟩, rfl, rfl⟩
  | 1 =>
    have hsame : r.txAddress = address := haddress.trans (BitVec.add_zero _)
    rw [hsame, hid]
    exact ⟨⟨hk, Or.inl rfl, hlen, (BitVec.add_zero _).symm⟩, rfl, rfl⟩
  | 2 =>
    have hsame : r.txAddress = address := haddress.trans (BitVec.add_zero _)
    rw [hsame]
    exact ⟨⟨hk, Or.inl rfl, hlen, (BitVec.add_zero _).symm⟩, rfl, rfl⟩
  | 3 =>
    have hsame : r.txAddress = address := haddress.trans (BitVec.add_zero _)
    rw [hsame]
    exact ⟨⟨hk, Or.inl rfl, hlen, (BitVec.add_zero _).symm⟩, rfl, rfl⟩
  | j + 4 =>
    rw [Nat.add_sub_cancel] at hlen haddress
    have hne : r.txReplyLen ≠ 0 := by
      intro hzero
      rw [hzero] at hlen
      have hzero' : (0 : BitVec 17).toNat = 0 := rfl
      omega
    have hone : (1 : BitVec 17).toNat = 1 := rfl
    dsimp only [stage]
    rw [if_pos hne]
    refine ⟨⟨hk, Or.inl rfl, ?_, ?_⟩, rfl, ?_⟩
    · have hlt := r.txReplyLen.isLt
      have hle : (1 : BitVec 17) ≤ r.txReplyLen := by
        rw [BitVec.le_def, hone, hlen]
        omega
      change (r.txReplyLen - 1).toNat = _
      rw [BitVec.toNat_sub_of_le hle, hone, hlen]
      omega
    · change r.txAddress + 1 = _
      have hsucc : j + 4 + 1 - 4 = j + 1 := by omega
      rw [haddress, BitVec.add_assoc, hsucc, BitVec.ofNat_add]
      rfl
    · have hbyte := hdata (Nat.le_add_left 4 j)
      rw [Nat.add_sub_cancel] at hbyte
      have hreply : (reply cmdId address block)[j + 4]? = (block.map Symbol.data)[j]? := rfl
      rw [hreply, List.getElem?_map, hbyte]
      rfl

end SioTransmit

end NaviMisc.SpiMemEmulator

/-!
The memory of the board while commands are received and answered.
-/

namespace NaviMisc.SpiMemEmulator

open NaviMisc.Lib.ByteStuffing

namespace Board

def Accessing (mem : SioMemory) (request : Option Access) : Option Access → Prop
  | none => mem.memState = .idle ∧ mem.memBeginRd = false ∧ mem.memBeginWr = false ∧ request = none
  | some .read => mem.memState = .read ∧ mem.memBeginWr = false ∧
      request = if mem.memBeginRd then none else some .read
  | some .write => mem.memBeginRd = false ∧
      (mem.memState = if mem.memBeginWr then .write else .idle) ∧
        request = if mem.memBeginWr then none else some .write

def settled (access : Option Access) (b : Board) : Content :=
  if access = some .write then Function.update b.content b.sio.mem.memAddr b.sio.mem.memDataWr
  else b.content

def IsRead (cmdId : BitVec 4) : Prop :=
  cmdId = CMD_READ_16 ∨ cmdId = CMD_READ_1K ∨ cmdId = CMD_READ_64K

instance : DecidablePred IsRead := fun _ => inferInstanceAs (Decidable (_ ∨ _ ∨ _))

structure Serving (M : Content) (access : Option Access) (b : Board) : Prop where
  accessing : Accessing b.sio.mem b.request access
  write : access = some .write → ∃ address, b.sio.rx.heard = .data CMD_WRITE address
  read : access = some .read → b.txReady = false ∧ b.sio.tx.shown = none ∧
    ∃ cmdId address, IsRead cmdId ∧ b.sio.rx.heard = .data cmdId address
  shown : b.sio.tx.shown ≠ none → b.txReady = true ∧
    (∃ cmdId address, b.sio.rx.heard = .data cmdId address) ∧ Symbol.flag ∉ b.toBoard
  effect : b.sio.rx.heard.effect b.toBoard (b.settled access) = M

variable {M : Content} {access : Option Access} {access' : Access} {b : Board}

theorem Accessing.answered_iff (h : Accessing b.sio.mem b.request access) :
    b.answered = true ↔ access = none := by
  rw [answered]
  match access with
  | none => simp [h.2.1, h.2.2.1, h.2.2.2]
  | some .read =>
    rw [h.2.2]
    cases b.sio.mem.memBeginRd <;> simp
  | some .write =>
    rw [h.2.2]
    cases b.sio.mem.memBeginWr <;> simp

theorem received_input (c : Choice) (b : Board) : (b.input c).received = b.delivered c := by
  rw [SioInput.received, input]
  dsimp only
  cases b.delivered c with
  | none => rfl
  | some s => cases s <;> rfl

theorem heard_clock (c : Choice) (b : Board) :
    (b.clock c).sio.rx.heard = ((b.delivered c).map b.sio.rx.heard.step).getD b.sio.rx.heard := by
  rw [← received_input]
  exact SioReceive.heard_clock b.sio.rx (b.input c)

theorem heard_eq_data {r : SioReceive} {cmdId : BitVec 4} {address : BitVec 20}
    (h : r.heard = .data cmdId address) :
    r.rxState = .data ∧ r.cmdId = cmdId ∧ r.cmdAddress = address := by
  rw [SioReceive.heard] at h
  cases hstate : r.rxState <;> rw [hstate] at h <;> cases h
  exact ⟨rfl, rfl, rfl⟩

theorem delivered_eq_some {c : Choice} {s : Symbol Byte} (h : b.delivered c = some s) :
    b.answered = true ∧ b.toBoard = s :: b.toBoard.tail := by
  rw [delivered] at h
  split_ifs at h with hdeliver
  rw [Bool.and_eq_true] at hdeliver
  exact ⟨hdeliver.2, (List.cons_head?_tail h).symm⟩

def nextAccess (c : Choice) (access : Option Access) (b : Board) : Option Access :=
  match access with
  | none =>
    if b.sio.rx.cmdIsWrite && b.sio.rx.cmdDataStrobe (b.input c) then some .write
    else if b.sio.rx.cmdIsRead && b.sio.tx.txState == .data && b.sio.tx.txDataStrobe then some .read
    else none
  | some access => if (b.finished c).isSome then none else some access

theorem delivered_eq_none (h : Accessing b.sio.mem b.request (some access')) (c : Choice) :
    b.delivered c = none := by
  have hnot : b.answered = false := by
    rw [Bool.eq_false_iff, Ne, h.answered_iff]
    exact Option.some_ne_none access'
  rw [delivered, hnot, Bool.and_false]
  rfl

theorem cmdIsWrite_iff (c : Choice) (b : Board) :
    (b.sio.rx.cmdIsWrite && b.sio.rx.cmdDataStrobe (b.input c)) = true ↔
      ∃ address a, b.sio.rx.heard = .data CMD_WRITE address ∧ b.delivered c = some (.data a) := by
  rw [SioReceive.cmdIsWrite, SioReceive.cmdDataStrobe, SioReceive.cmdValid, SioReceive.heard, input]
  constructor
  · intro h
    simp only [Bool.and_eq_true, beq_iff_eq] at h
    obtain ⟨⟨-, hid⟩, hstate, hstrobe⟩ := h
    rw [hstate, hid]
    match hdelivered : b.delivered c with
    | none => simp [hdelivered] at hstrobe
    | some .flag => simp [hdelivered] at hstrobe
    | some (.data a) => exact ⟨_, a, rfl, rfl⟩
  · rintro ⟨address, a, hheard, hdelivered⟩
    obtain ⟨hstate, hid, -⟩ := heard_eq_data (r := b.sio.rx) hheard
    simp [hstate, hid, hdelivered]

theorem finished_eq_none (h : b.request = none) (c : Choice) : b.finished c = none := by
  rw [finished, h, ite_self]

def received (c : Choice) (access : Option Access) (b : Board) : Content :=
  ((b.delivered c).map (Heard.store (b.settled access) b.sio.rx.heard)).getD (b.settled access)

theorem received_of_not_write (c : Choice) (access : Option Access)
    (h : ¬(b.sio.rx.cmdIsWrite && b.sio.rx.cmdDataStrobe (b.input c)) = true) :
    b.received c access = b.settled access := by
  rw [cmdIsWrite_iff] at h
  rw [received]
  match hdelivered : b.delivered c, hheard : b.sio.rx.heard with
  | none, _ => rfl
  | some .flag, .nothing => rfl
  | some .flag, .header _ => rfl
  | some .flag, .data _ _ => rfl
  | some (.data a), .nothing => rfl
  | some (.data a), .header _ => rfl
  | some (.data a), .data cmdId address =>
    apply if_neg
    rintro rfl
    exact h ⟨address, a, hheard, hdelivered⟩

theorem clock_idle (h : Accessing b.sio.mem b.request none) (c : Choice) :
    Accessing (b.clock c).sio.mem (b.clock c).request (nextAccess c none b) ∧
      (b.clock c).settled (nextAccess c none b) = b.received c none ∧
      (nextAccess c none b = some .read → (b.clock c).sio.mem.memAddr = b.sio.tx.txAddress) ∧
      (b.clock c).sio.mem.cmdReplyData = b.sio.mem.cmdReplyData ∧
      (b.clock c).content = b.content := by
  obtain ⟨hstate, hrd, hwr, hrequest⟩ := h
  have hfinished := finished_eq_none hrequest c
  have hcontent : (b.clock c).content = b.content := by
    rw [clock, hfinished]
    rfl
  have hafter : (b.clock c).request = none := by
    rw [clock, hrd, hwr, hfinished, hrequest]
    rfl
  have hmem : (b.clock c).sio.mem = b.sio.mem.clock (b.input c) b.sio.rx b.sio.tx := rfl
  rw [SioMemory.clock, hstate] at hmem
  dsimp only at hmem
  rw [hafter, hcontent, nextAccess]
  by_cases hwrite : (b.sio.rx.cmdIsWrite && b.sio.rx.cmdDataStrobe (b.input c)) = true
  · rw [if_pos hwrite] at hmem ⊢
    obtain ⟨address, a, hheard, hdelivered⟩ := (cmdIsWrite_iff c b).mp hwrite
    have haddress := (heard_eq_data hheard).2.2
    have ha : (b.input c).rxData = a := by rw [input, hdelivered]
    refine ⟨?_, ?_, ?_, ?_, rfl⟩
    · rw [hmem]
      exact ⟨rfl, rfl, rfl⟩
    · rw [settled, if_pos rfl, hcontent, hmem, received, hdelivered, hheard]
      change Function.update b.content b.sio.rx.cmdAddress (b.input c).rxData =
        Function.update b.content address a
      rw [haddress, ha]
    · exact fun hread => by cases hread
    · rw [hmem]
  · rw [received_of_not_write c none hwrite]
    rw [if_neg hwrite] at hmem ⊢
    by_cases hread :
        (b.sio.rx.cmdIsRead && b.sio.tx.txState == .data && b.sio.tx.txDataStrobe) = true
    · rw [if_pos hread] at hmem ⊢
      rw [hmem, settled, hcontent]
      exact ⟨⟨rfl, rfl, rfl⟩, rfl, fun _ => rfl, rfl, rfl⟩
    · rw [if_neg hread] at hmem ⊢
      rw [hmem, settled, hcontent]
      exact ⟨⟨rfl, rfl, rfl, rfl⟩, rfl, (fun hread => by cases hread), rfl, rfl⟩

theorem clock_read (h : Accessing b.sio.mem b.request (some .read)) (c : Choice) :
    Accessing (b.clock c).sio.mem (b.clock c).request (nextAccess c (some .read) b) ∧
      (b.clock c).sio.mem.memAddr = b.sio.mem.memAddr ∧
      (nextAccess c (some .read) b = none →
        (b.clock c).sio.mem.cmdReplyData = b.content b.sio.mem.memAddr) ∧
      (b.clock c).content = b.content := by
  obtain ⟨hstate, hwr, hrequest⟩ := h
  have hmem : (b.clock c).sio.mem = b.sio.mem.clock (b.input c) b.sio.rx b.sio.tx := rfl
  rw [SioMemory.clock, hstate] at hmem
  dsimp only at hmem
  have hfinish : (b.input c).memFinish = (b.finished c == some .read) := rfl
  have hdata : (b.input c).memDataRd =
      if b.finished c = some .read then b.content b.sio.mem.memAddr else c.memDataX := rfl
  by_cases hrd : b.sio.mem.memBeginRd = true
  · rw [if_pos hrd] at hrequest
    have hfinished := finished_eq_none hrequest c
    have hnext : nextAccess c (some .read) b = some .read := by
      rw [nextAccess, hfinished]
      rfl
    have hafter : (b.clock c).request = some .read := by
      rw [clock, hrd]
      rfl
    rw [hfinish, hfinished] at hmem
    rw [hnext, hmem, hafter]
    refine ⟨⟨rfl, rfl, rfl⟩, rfl, (fun hnone => by cases hnone), ?_⟩
    rw [clock, hfinished]
    rfl
  · rw [if_neg hrd] at hrequest
    have hcontent : (b.clock c).content = b.content := by
      rw [clock, finished, hrequest]
      cases c.finish <;> rfl
    rw [hfinish, hdata] at hmem
    rw [hmem, hcontent, nextAccess, clock, Bool.eq_false_iff.mpr hrd, hwr, finished, hrequest]
    cases c.finish with
    | false => exact ⟨⟨rfl, rfl, rfl⟩, rfl, (fun hnone => by cases hnone), rfl⟩
    | true => exact ⟨⟨rfl, rfl, rfl, rfl⟩, rfl, fun _ => rfl, rfl⟩

theorem clock_write (h : Accessing b.sio.mem b.request (some .write)) (c : Choice)
    (hnot : b.sio.rx.cmdIsRead = false) :
    Accessing (b.clock c).sio.mem (b.clock c).request (nextAccess c (some .write) b) ∧
      (b.clock c).settled (nextAccess c (some .write) b) = b.settled (some .write) := by
  have hdelivered := delivered_eq_none h c
  obtain ⟨hrd, hstate, hrequest⟩ := h
  have hmem : (b.clock c).sio.mem = b.sio.mem.clock (b.input c) b.sio.rx b.sio.tx := rfl
  have hstrobe : (b.sio.rx.cmdIsWrite && b.sio.rx.cmdDataStrobe (b.input c)) = false := by
    rw [Bool.eq_false_iff, Ne, cmdIsWrite_iff, hdelivered]
    rintro ⟨address, a, -, hdata⟩
    cases hdata
  rw [SioMemory.clock, hstate, hnot, hstrobe] at hmem
  by_cases hwr : b.sio.mem.memBeginWr = true
  · rw [if_pos hwr] at hmem hrequest
    have hfinished := finished_eq_none hrequest c
    have hnext : nextAccess c (some .write) b = some .write := by
      rw [nextAccess, hfinished]
      rfl
    have hafter : (b.clock c).request = some .write := by
      rw [clock, hrd, hwr]
      rfl
    have hcontent : (b.clock c).content = b.content := by
      rw [clock, hfinished]
      rfl
    rw [hnext, settled, hmem, hafter, hcontent]
    exact ⟨⟨rfl, rfl, rfl⟩, rfl⟩
  · rw [if_neg hwr] at hmem hrequest
    rw [settled, hmem, nextAccess, clock, hrd, Bool.eq_false_iff.mpr hwr, finished, hrequest]
    cases c.finish with
    | false => exact ⟨⟨rfl, rfl, rfl⟩, rfl⟩
    | true => exact ⟨⟨rfl, rfl, rfl, rfl⟩, rfl⟩

theorem cmdIsRead_eq (cmdId : BitVec 4) (h : ∃ address, b.sio.rx.heard = .data cmdId address) :
    b.sio.rx.cmdIsRead = decide (IsRead cmdId) := by
  obtain ⟨address, hheard⟩ := h
  obtain ⟨hstate, hid, -⟩ := heard_eq_data hheard
  rw [SioReceive.cmdIsRead, SioReceive.cmdValid, hstate, hid]
  rw [Bool.eq_iff_iff, decide_eq_true_iff]
  simp [IsRead, or_assoc]

theorem effect_clock (c : Choice) (access : Option Access) (b : Board) :
    (b.clock c).sio.rx.heard.effect (b.clock c).toBoard (b.received c access) =
      b.sio.rx.heard.effect b.toBoard (b.settled access) := by
  rw [heard_clock, received, clock]
  cases hdelivered : b.delivered c with
  | none => rfl
  | some s =>
    conv_rhs => rw [(delivered_eq_some hdelivered).2]
    rfl

theorem rxDataStrobe_eq_false {c : Choice} (h : b.delivered c = none) :
    (b.input c).rxDataStrobe = false := by rw [input, h]

theorem cmdHeaderStrobe_eq_false {c : Choice}
    (h : b.delivered c = none ∨ ∃ cmdId address, b.sio.rx.heard = .data cmdId address) :
    b.sio.rx.cmdHeaderStrobe (b.input c) = false := by
  rw [SioReceive.cmdHeaderStrobe]
  rcases h with hnone | ⟨cmdId, address, hheard⟩
  · rw [rxDataStrobe_eq_false hnone, Bool.and_false]
  · rw [(heard_eq_data hheard).1]
    rfl

theorem heard_data_clock (c : Choice) {cmdId : BitVec 4} {address : BitVec 20}
    (h : b.sio.rx.heard = .data cmdId address) (hflag : Symbol.flag ∉ b.toBoard) :
    ∃ address', (b.clock c).sio.rx.heard = .data cmdId address' := by
  rw [heard_clock, h]
  match hdelivered : b.delivered c with
  | none => exact ⟨address, rfl⟩
  | some (.data a) => exact ⟨address + 1, rfl⟩
  | some .flag =>
    apply absurd _ hflag
    rw [(delivered_eq_some hdelivered).2]
    exact List.mem_cons_self

theorem Serving.clock (h : Serving M access b) (c : Choice)
    (hshown : (b.clock c).sio.tx.shown ≠ none → (b.clock c).txReady = true ∧
      (∃ cmdId address, (b.clock c).sio.rx.heard = .data cmdId address) ∧
        Symbol.flag ∉ (b.clock c).toBoard) :
    Serving M (nextAccess c access b) (b.clock c) := by
  have heffect := effect_clock c access b
  rw [h.effect] at heffect
  match access with
  | none =>
    obtain ⟨haccessing, hsettled, -, -, -⟩ := clock_idle h.accessing c
    refine ⟨haccessing, ?_, ?_, hshown, ?_⟩
    · intro hnext
      rw [nextAccess] at hnext
      split_ifs at hnext with hwrite hread
      · obtain ⟨address, a, hheard, hdelivered⟩ := (cmdIsWrite_iff c b).mp hwrite
        rw [heard_clock, hheard, hdelivered]
        exact ⟨address + 1, rfl⟩
      · cases hnext
    · intro hnext
      rw [nextAccess] at hnext
      split_ifs at hnext with hwrite hread
      · cases hnext
      rw [Bool.and_eq_true, Bool.and_eq_true] at hread
      obtain ⟨⟨hisRead, -⟩, hstrobe⟩ := hread
      have hne : b.sio.tx.shown ≠ none := by
        rw [Ne, SioTransmit.shown_eq_none_iff, hstrobe]
        rintro ⟨-, hfalse⟩
        cases hfalse
      obtain ⟨-, ⟨cmdId, address, hheard⟩, hflag⟩ := h.shown hne
      rw [cmdIsRead_eq cmdId ⟨address, hheard⟩, decide_eq_true_iff] at hisRead
      obtain ⟨address', hheard'⟩ := heard_data_clock c hheard hflag
      refine ⟨?_, ?_, cmdId, address', hisRead, hheard'⟩
      · rw [Board.clock, hstrobe, Bool.or_true]
        rfl
      · have hheader := cmdHeaderStrobe_eq_false (c := c) (Or.inr ⟨cmdId, address, hheard⟩)
        change (b.sio.tx.clock (b.input c) b.sio.rx b.sio.mem.cmdReplyData).shown = none
        rw [SioTransmit.clock_wait hheader (Or.inr hne)]
        rfl
    · rw [hsettled]
      exact heffect
  | some .read =>
    obtain ⟨haccessing, -, -, hcontent⟩ := clock_read h.accessing c
    have hdelivered := delivered_eq_none h.accessing c
    obtain ⟨hready, hnone, cmdId, address, hisRead, hheard⟩ := h.read rfl
    have hheard' : (b.clock c).sio.rx.heard = .data cmdId address := by
      rw [heard_clock, hdelivered, hheard]
      rfl
    have hnext : nextAccess c (some .read) b ≠ some .write := by
      rw [nextAccess]
      split_ifs <;> exact fun hwrite => by cases hwrite
    refine ⟨haccessing, fun hwrite => absurd hwrite hnext, fun _ => ⟨?_, ?_, cmdId, address, hisRead,
      hheard'⟩, hshown, ?_⟩
    · obtain ⟨hflag, hstrobe⟩ := SioTransmit.shown_eq_none_iff.mp hnone
      have hanswered : b.answered = false := by
        rw [Bool.eq_false_iff, Ne, h.accessing.answered_iff]
        exact Option.some_ne_none _
      rw [Board.clock, hflag, hstrobe, hready, hanswered, Bool.and_false]
      rfl
    · have hheader := cmdHeaderStrobe_eq_false (Or.inl hdelivered)
      change (b.sio.tx.clock (b.input c) b.sio.rx b.sio.mem.cmdReplyData).shown = none
      rw [SioTransmit.clock_wait hheader (Or.inl hready)]
      rfl
    · rw [settled, if_neg hnext, hcontent]
      rwa [received, hdelivered] at heffect
  | some .write =>
    obtain ⟨address, hheard⟩ := h.write rfl
    have hdelivered := delivered_eq_none h.accessing c
    have hnot : b.sio.rx.cmdIsRead = false := by
      rw [cmdIsRead_eq _ ⟨address, hheard⟩]
      rfl
    have hheard' : (b.clock c).sio.rx.heard = .data CMD_WRITE address := by
      rw [heard_clock, hdelivered, hheard]
      rfl
    obtain ⟨haccessing, hsettled⟩ := clock_write h.accessing c hnot
    have hnext : nextAccess c (some .write) b ≠ some .read := by
      rw [nextAccess]
      split_ifs <;> exact fun hread => by cases hread
    refine ⟨haccessing, fun _ => ⟨address, hheard'⟩, fun hread => absurd hread hnext, hshown, ?_⟩
    rw [hsettled]
    rwa [received, hdelivered] at heffect

end Board

end NaviMisc.SpiMemEmulator
