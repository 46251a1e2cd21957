import NaviMisc.SpiMemEmulator.BoardMemory

/-!
A command of the client from its flag to the last byte of the reply.
-/

namespace NaviMisc.SpiMemEmulator

open NaviMisc.Lib.ByteStuffing

namespace Board

structure AtRest (b : Board) : Prop where
  quiescent : b.sio.tx.Quiescent
  rxBuffer : b.port.rxBuffer = []
  flag : Symbol.flag ∉ b.toBoard
  heard : ∀ bytes, b.sio.rx.heard ≠ .header bytes

structure Asked (cmdId : BitVec 4) (address : BitVec 20) (data : List Byte) (b : Board) : Prop where
  quiescent : b.sio.tx.Quiescent
  rxBuffer : b.port.rxBuffer = []
  toBoard :
    (∃ before, Symbol.flag ∉ before ∧ (∀ bytes, b.sio.rx.heard ≠ .header bytes) ∧
      b.toBoard = before ++ .flag :: (Heard.command cmdId address ++ data).map .data) ∨
    ∃ bytes rest, b.sio.rx.heard = .header bytes ∧ bytes.length < 3 ∧
      bytes ++ rest = Heard.command cmdId address ++ data ∧ b.toBoard = rest.map .data

structure Answering (cmdId : BitVec 4) (address : BitVec 20) (block : List Byte) (k : ℕ)
    (access : Option Access) (b : Board) : Prop where
  heard : ∃ address', b.sio.rx.heard = .data cmdId address'
  flag : Symbol.flag ∉ b.toBoard
  replying : b.sio.tx.Replying address block.length k
  shown : b.sio.tx.shown = none ∨ 0 < k ∧ b.sio.tx.txState = SioTransmit.stage k ∧
    b.sio.tx.shown = (reply cmdId address block)[k - 1]?
  rxBuffer : b.port.rxBuffer = ((reply cmdId address block).take
    (if b.sio.tx.shown = none then k else k - 1)).foldl deliver []
  fetched : 4 ≤ k → IsRead cmdId → b.sio.tx.shown = none →
    access = some .read ∧ b.sio.mem.memAddr = b.sio.tx.txAddress ∨
      access = none ∧ b.sio.mem.cmdReplyData = b.content b.sio.tx.txAddress

structure Block (M : Content) (cmdId : BitVec 4) (address : BitVec 20) (block : List Byte) : Prop where
  read : ∀ j < block.length, block[j]? = some (M (address + BitVec.ofNat 20 j))
  write : ¬IsRead cmdId → block = []

variable {M : Content} {access : Option Access} {b : Board} {cmdId : BitVec 4} {address : BitVec 20}
  {data block : List Byte} {k : ℕ}

theorem sent_eq (b : Board) : b.sent = if b.txReady then b.sio.tx.shown else none := by
  rw [sent, SioTransmit.shown]
  cases b.txReady <;> rfl

theorem rxBuffer_clock (c : Choice) (b : Board) :
    (b.clock c).port.rxBuffer = b.sent.toList.foldl deliver b.port.rxBuffer := rfl

theorem rxBuffer_clock_of_none (c : Choice) (h : b.sio.tx.shown = none) :
    (b.clock c).port.rxBuffer = b.port.rxBuffer := by
  rw [rxBuffer_clock, sent_eq, h, ite_self]
  rfl

theorem flag_clock (c : Choice) (h : Symbol.flag ∉ b.toBoard) : Symbol.flag ∉ (b.clock c).toBoard := by
  intro hflag
  apply h
  rw [clock] at hflag
  dsimp only at hflag
  split_ifs at hflag
  · exact List.mem_of_mem_tail hflag
  · exact hflag

theorem cmdHeaderStrobe_iff (c : Choice) (b : Board) :
    b.sio.rx.cmdHeaderStrobe (b.input c) = true ↔
      ∃ b₀ b₁ b₂, b.sio.rx.heard = .header [b₀, b₁] ∧ b.delivered c = some (.data b₂) := by
  rw [SioReceive.cmdHeaderStrobe, SioReceive.heard, input, Bool.and_eq_true, beq_iff_eq]
  constructor
  · rintro ⟨hstate, hstrobe⟩
    rw [hstate]
    rcases hdelivered : b.delivered c with _ | _ | a
    · simp [hdelivered] at hstrobe
    · simp [hdelivered] at hstrobe
    · exact ⟨_, _, a, rfl, rfl⟩
  · rintro ⟨b₀, b₁, b₂, hheard, hdelivered⟩
    rw [hdelivered]
    refine ⟨?_, rfl⟩
    cases hstate : b.sio.rx.rxState <;> rw [hstate] at hheard <;> cases hheard

theorem cmdHeaderStrobe_of_not (c : Choice) (h : ∀ bytes, b.sio.rx.heard ≠ .header bytes) :
    b.sio.rx.cmdHeaderStrobe (b.input c) = false := by
  rw [Bool.eq_false_iff, Ne, cmdHeaderStrobe_iff]
  rintro ⟨b₀, b₁, b₂, hheard, -⟩
  exact h _ hheard

theorem AtRest.clock (h : b.AtRest) (c : Choice) : (b.clock c).AtRest := by
  refine ⟨?_, ?_, flag_clock c h.flag, ?_⟩
  · exact h.quiescent.clock (cmdHeaderStrobe_of_not c h.heard)
  · rw [rxBuffer_clock_of_none c h.quiescent.shown, h.rxBuffer]
  · intro bytes
    rw [heard_clock]
    match hdelivered : b.delivered c, hheard : b.sio.rx.heard with
    | none, _ =>
      rw [← hheard]
      exact h.heard bytes
    | some .flag, _ =>
      apply absurd _ h.flag
      rw [(delivered_eq_some hdelivered).2]
      exact List.mem_cons_self
    | some (.data a), .nothing => exact fun heq => by cases heq
    | some (.data a), .header bytes' => exact absurd hheard (h.heard bytes')
    | some (.data a), .data cmdId address => exact fun heq => by cases heq

theorem toBoard_clock_of_none {c : Choice} (h : b.delivered c = none) :
    (b.clock c).toBoard = b.toBoard := by
  rw [clock, h]
  rfl

theorem toBoard_clock_of_some {c : Choice} {s : Symbol Byte} (h : b.delivered c = some s) :
    b.toBoard = s :: (b.clock c).toBoard := by
  rw [clock, h]
  exact (delivered_eq_some h).2

theorem step_header_of_lt {bytes : List Byte} (h : bytes.length < 2) (a : Byte) :
    (Heard.header bytes).step (.data a) = .header (bytes ++ [a]) := by
  match bytes with
  | [] => rfl
  | [_] => rfl
  | _ :: _ :: _ => exact absurd h (by simp)

theorem answering_of_header (c : Choice) (access : Option Access) {b₀ b₁ b₂ : Byte}
    (hrx : b.port.rxBuffer = []) (hshown : b.sio.tx.shown = none)
    (hheard : b.sio.rx.heard = .header [b₀, b₁]) (hdelivered : b.delivered c = some (.data b₂))
    (hcommand : Heard.command cmdId address = [b₀, b₁, b₂])
    (hflag : Symbol.flag ∉ (b.clock c).toBoard)
    (hlen : ∀ r : SioReceive, r.cmdId = cmdId → r.cmdReplyLen.toNat = block.length) :
    (b.clock c).Answering cmdId address block 0 access := by
  have hheader := (cmdHeaderStrobe_iff c b).mpr ⟨b₀, b₁, b₂, hheard, hdelivered⟩
  have hheard' : (b.clock c).sio.rx.heard = .data cmdId address := by
    have hstep := Heard.foldl_step_command .nothing cmdId address
    rw [hcommand] at hstep
    rw [heard_clock, hheard, hdelivered]
    exact hstep
  obtain ⟨-, hid, haddress⟩ := heard_eq_data hheard'
  have hrx' : (b.clock c).sio.rx = b.sio.rx.clock (b.input c) := rfl
  have hdata : (b.input c).rxFlag = false ∧ (b.input c).rxDataStrobe = true := by
    rw [input, hdelivered]
    exact ⟨rfl, rfl⟩
  have hstate : b.sio.rx.rxState = .addr3 := by
    rw [SioReceive.cmdHeaderStrobe, Bool.and_eq_true, beq_iff_eq] at hheader
    exact hheader.1
  rw [hrx', SioReceive.clock, hdata.1, hdata.2, hstate] at hid haddress
  obtain ⟨hreplying, hnone⟩ :=
    @SioTransmit.clock_header b.sio.tx (b.input c) b.sio.rx b.sio.mem.cmdReplyData hheader
  have hnone' : (b.clock c).sio.tx.shown = none := hnone
  refine ⟨⟨address, hheard'⟩, hflag, ?_, Or.inl hnone', ?_, fun hk => by omega⟩
  · rw [hlen b.sio.rx hid] at hreplying
    have hnext : b.sio.rx.cmdNextAddress (b.input c) = address := haddress
    rw [hnext] at hreplying
    exact hreplying
  · rw [rxBuffer_clock_of_none c hshown, hrx, hnone', if_pos rfl]
    rfl

theorem Asked.clock (h : b.Asked cmdId address data) (c : Choice) (access : Option Access)
    (hlen : ∀ r : SioReceive, r.cmdId = cmdId → r.cmdReplyLen.toNat = block.length) :
    (b.clock c).Asked cmdId address data ∨ (b.clock c).Answering cmdId address block 0 access := by
  have hrx' : (b.clock c).port.rxBuffer = [] := by
    rw [rxBuffer_clock_of_none c h.quiescent.shown, h.rxBuffer]
  rcases h.toBoard with ⟨before, hbefore, hheard, hto⟩ | ⟨bytes, rest, hheard, hlt, hsplit, hto⟩
  · have hquiescent : (b.clock c).sio.tx.Quiescent :=
      h.quiescent.clock (cmdHeaderStrobe_of_not c hheard)
    refine Or.inl ⟨hquiescent, hrx', ?_⟩
    rw [heard_clock]
    cases hdelivered : b.delivered c with
    | none =>
      rw [toBoard_clock_of_none hdelivered]
      exact Or.inl ⟨before, hbefore, hheard, hto⟩
    | some s =>
      have hnext := toBoard_clock_of_some hdelivered
      rw [hto] at hnext
      cases before with
      | nil =>
        obtain ⟨rfl, htail⟩ := List.cons.inj hnext
        exact Or.inr ⟨[], _, Heard.step_flag b.sio.rx.heard, Nat.zero_lt_succ 2, rfl, htail.symm⟩
      | cons s' before =>
        obtain ⟨rfl, htail⟩ := List.cons.inj hnext
        rw [List.mem_cons, not_or] at hbefore
        refine Or.inl ⟨before, hbefore.2, ?_, htail.symm⟩
        intro bytes
        match s', b.sio.rx.heard, hheard with
        | .flag, _, _ => exact absurd rfl hbefore.1
        | .data a, .nothing, _ => exact fun heq => by cases heq
        | .data a, .header bytes', hheard => exact absurd rfl (hheard bytes')
        | .data a, .data _ _, _ => exact fun heq => by cases heq
  · cases hdelivered : b.delivered c with
    | none =>
      have hheader := cmdHeaderStrobe_eq_false (Or.inl hdelivered)
      refine Or.inl ⟨h.quiescent.clock hheader, hrx', Or.inr ⟨bytes, rest, ?_, hlt, hsplit, ?_⟩⟩
      · rw [heard_clock, hdelivered, hheard]
        rfl
      · rw [toBoard_clock_of_none hdelivered, hto]
    | some s =>
      have hnext := toBoard_clock_of_some hdelivered
      rw [hto] at hnext
      cases rest with
      | nil => cases hnext
      | cons a rest =>
        obtain ⟨rfl, htail⟩ := List.cons.inj hnext
        by_cases htwo : bytes.length < 2
        · have hheader : b.sio.rx.cmdHeaderStrobe (b.input c) = false := by
            rw [Bool.eq_false_iff, Ne, cmdHeaderStrobe_iff]
            rintro ⟨b₀, b₁, b₂, hheard', -⟩
            rw [hheard] at hheard'
            cases hheard'
            exact Nat.lt_irrefl 2 htwo
          refine Or.inl ⟨h.quiescent.clock hheader, hrx', Or.inr ⟨bytes ++ [a], rest, ?_, ?_, ?_, ?_⟩⟩
          · rw [heard_clock, hdelivered, hheard]
            exact step_header_of_lt htwo a
          · rw [List.length_append]
            exact Nat.succ_lt_succ htwo
          · rw [List.append_assoc]
            exact hsplit
          · exact htail.symm
        · obtain ⟨b₀, b₁, rfl⟩ : ∃ b₀ b₁, bytes = [b₀, b₁] := by
            match bytes, hlt, htwo with
            | [b₀, b₁], _, _ => exact ⟨b₀, b₁, rfl⟩
            | [], _, htwo => exact absurd (Nat.zero_lt_succ 1) htwo
            | [_], _, htwo => exact absurd Nat.one_lt_two htwo
          have hcommand : Heard.command cmdId address = [b₀, b₁, a] := by
            have htake := congrArg (List.take 3) hsplit
            exact htake.symm
          refine Or.inr (answering_of_header c access h.rxBuffer h.quiescent.shown hheard hdelivered
            hcommand ?_ hlen)
          rw [← htail]
          simp

theorem Answering.cmdHeaderStrobe_eq (h : b.Answering cmdId address block k access) (c : Choice) :
    b.sio.rx.cmdHeaderStrobe (b.input c) = false := by
  obtain ⟨address', hheard⟩ := h.heard
  exact cmdHeaderStrobe_eq_false (Or.inr ⟨cmdId, address', hheard⟩)

theorem Answering.content_eq (h : b.Answering cmdId address block k access)
    (hserving : Serving M access b) (hread : IsRead cmdId) :
    access ≠ some .write ∧ b.content = M := by
  obtain ⟨address', hheard⟩ := h.heard
  have hne : cmdId ≠ CMD_WRITE := by
    rintro rfl
    exact absurd hread (by decide)
  have haccess : access ≠ some .write := by
    intro hwrite
    obtain ⟨address'', hheard'⟩ := hserving.write hwrite
    rw [hheard] at hheard'
    cases hheard'
    exact hne rfl
  refine ⟨haccess, ?_⟩
  have hdata : ∃ data : List Byte, b.toBoard = data.map .data := by
    have hflag := h.flag
    revert hflag
    induction b.toBoard with
    | nil => exact fun _ => ⟨[], rfl⟩
    | cons s l ih =>
      intro hflag
      rw [List.mem_cons, not_or] at hflag
      obtain ⟨data, rfl⟩ := ih hflag.2
      cases s with
      | flag => exact absurd rfl hflag.1
      | data a => exact ⟨a :: data, rfl⟩
  obtain ⟨data, hdata⟩ := hdata
  have heffect := hserving.effect
  rw [hheard, hdata, Heard.effect_data, if_neg hne, settled, if_neg haccess] at heffect
  exact heffect

theorem take_reply_succ (h : k < (reply cmdId address block).length) {s : Symbol Byte}
    (hs : some s = (reply cmdId address block)[k]?) (fragments : List (List Byte)) :
    ((reply cmdId address block).take (k + 1)).foldl deliver fragments =
      deliver (((reply cmdId address block).take k).foldl deliver fragments) s := by
  have hget := List.getElem?_eq_getElem h
  rw [hget, Option.some.injEq] at hs
  rw [List.take_succ_eq_append_getElem h, List.foldl_append, hs]
  rfl

theorem length_reply : (reply cmdId address block).length = 4 + block.length := by
  rw [reply, List.length_cons, List.length_map, List.length_append, Heard.command]
  simp only [List.length_cons, List.length_nil]
  omega

theorem Answering.clock_shown (h : b.Answering cmdId address block k access)
    (hserving : Serving M access b) (c : Choice) (hshown : b.sio.tx.shown ≠ none) :
    (b.clock c).Answering cmdId address block k (nextAccess c access b) ∧
      (b.clock c).sio.tx.shown = none := by
  obtain ⟨address', hheard⟩ := h.heard
  obtain ⟨hk, hstate, hlast⟩ := h.shown.resolve_left hshown
  obtain ⟨hready, -, -⟩ := hserving.shown hshown
  obtain ⟨hreplying, hnone⟩ :=
    h.replying.wait (h.cmdHeaderStrobe_eq c) (Or.inr hshown)
  have hnone' : (b.clock c).sio.tx.shown = none := hnone
  refine ⟨⟨?_, flag_clock c h.flag, hreplying, Or.inl hnone', ?_, ?_⟩, hnone'⟩
  · exact heard_data_clock c hheard h.flag
  · obtain ⟨s, hs⟩ := Option.ne_none_iff_exists'.mp hshown
    rw [hs] at hlast
    have hle := h.replying.le
    rw [rxBuffer_clock, sent_eq, if_pos hready, hs, hnone', if_pos rfl, h.rxBuffer, if_neg hshown]
    obtain ⟨k, rfl⟩ := Nat.exists_eq_add_of_le' hk
    rw [Nat.add_sub_cancel] at hlast ⊢
    rw [take_reply_succ (by rw [length_reply]; omega) hlast]
    rfl
  · intro hfour hread _
    obtain ⟨hnot, -⟩ := h.content_eq hserving hread
    have haccess : access = none := by
      rcases access with _ | _ | _
      · rfl
      · exact absurd (hserving.read rfl).2.1 hshown
      · exact absurd rfl hnot
    subst haccess
    obtain ⟨-, -, haddr, -, -⟩ := clock_idle hserving.accessing c
    have hnotWrite : ¬(b.sio.rx.cmdIsWrite && b.sio.rx.cmdDataStrobe (b.input c)) = true := by
      rw [cmdIsWrite_iff]
      rintro ⟨address'', a, hheard', -⟩
      rw [hheard] at hheard'
      cases hheard'
      exact absurd hread (by decide)
    have hfetch : (b.sio.rx.cmdIsRead && b.sio.tx.txState == .data && b.sio.tx.txDataStrobe) = true := by
      have hstrobe : b.sio.tx.txDataStrobe = true := by
        have hdata : b.sio.tx.shown ≠ some .flag := by
          rw [hlast]
          obtain ⟨j, rfl⟩ := Nat.exists_eq_add_of_le' hfour
          have hsub : j + 4 - 1 = j + 2 + 1 := by omega
          rw [hsub, reply, List.getElem?_cons_succ, List.getElem?_map]
          cases (Heard.command cmdId address ++ block)[j + 2]? <;> simp
        by_contra hstrobe
        rw [SioTransmit.shown, if_neg hstrobe] at hshown hdata
        by_cases hflag : b.sio.tx.txFlag = true
        · rw [if_pos hflag] at hdata
          exact hdata rfl
        · rw [if_neg hflag] at hshown
          exact hshown rfl
      have hstage : SioTransmit.stage k = .data := by
        obtain ⟨j, rfl⟩ := Nat.exists_eq_add_of_le' hfour
        rfl
      rw [cmdIsRead_eq cmdId ⟨address', hheard⟩, hstate, hstage, hstrobe, decide_eq_true hread]
      rfl
    have hnext : nextAccess c none b = some .read := by
      rw [nextAccess, if_neg hnotWrite, if_pos hfetch]
    refine Or.inl ⟨hnext, (haddr hnext).trans ?_⟩
    change b.sio.tx.txAddress =
      (b.sio.tx.clock (b.input c) b.sio.rx b.sio.mem.cmdReplyData).txAddress
    rw [SioTransmit.clock_wait (h.cmdHeaderStrobe_eq c) (Or.inr hshown)]

theorem Answering.clock_issue (h : b.Answering cmdId address block k access)
    (hserving : Serving M access b) (hblock : Block M cmdId address block) (c : Choice)
    (hshown : b.sio.tx.shown = none) (hready : b.txReady = true) (hk : k < 4 + block.length) :
    (b.clock c).Answering cmdId address block (k + 1) (nextAccess c access b) ∧
      (b.clock c).sio.tx.shown ≠ none ∧ (b.clock c).txReady = true := by
  obtain ⟨address', hheard⟩ := h.heard
  have hnotRead : access ≠ some .read := by
    intro hread
    rw [(hserving.read hread).1] at hready
    cases hready
  have hdata : 4 ≤ k → block[k - 4]? = some b.sio.mem.cmdReplyData := by
    intro hfour
    have hread : IsRead cmdId := by
      by_contra hnot
      rw [hblock.write hnot] at hk
      exact Nat.not_le_of_lt hk hfour
    obtain ⟨-, hcontent⟩ := h.content_eq hserving hread
    have hbyte := (h.fetched hfour hread hshown).resolve_left fun hfetch => hnotRead hfetch.1
    rw [hbyte.2, hcontent, h.replying.txAddress, hblock.read (k - 4) (by omega)]
  obtain ⟨hreplying, hstage, hnext⟩ := h.replying.issue (i := b.input c) (h.cmdHeaderStrobe_eq c) hready
    hshown hk (heard_eq_data hheard).2.1 hdata
  have hnext' : (b.clock c).sio.tx.shown = (reply cmdId address block)[k]? := hnext
  have hlt : k < (reply cmdId address block).length := by rwa [length_reply]
  have hne : (b.clock c).sio.tx.shown ≠ none := by
    rw [hnext', List.getElem?_eq_getElem hlt]
    exact Option.some_ne_none _
  refine ⟨⟨?_, flag_clock c h.flag, hreplying, ?_, ?_, fun _ _ hnone => absurd hnone hne⟩, hne, ?_⟩
  · exact heard_data_clock c hheard h.flag
  · exact Or.inr ⟨Nat.succ_pos k, hstage, hnext'⟩
  · rw [rxBuffer_clock_of_none c hshown, h.rxBuffer, if_pos hshown, if_neg hne, Nat.add_sub_cancel]
  · obtain ⟨hflag, hstrobe⟩ := SioTransmit.shown_eq_none_iff.mp hshown
    rw [clock, hflag, hstrobe, hready]
    rfl

theorem Answering.clock_silent (h : b.Answering cmdId address block k access)
    (hserving : Serving M access b) (c : Choice) (hshown : b.sio.tx.shown = none)
    (hwait : b.txReady = false ∨ k = 4 + block.length) :
    (b.clock c).Answering cmdId address block k (nextAccess c access b) ∧
      (b.clock c).sio.tx.shown = none := by
  obtain ⟨address', hheard⟩ := h.heard
  have hheader := h.cmdHeaderStrobe_eq c
  have hafter : (b.clock c).sio.tx.Replying address block.length k ∧
      (b.clock c).sio.tx.shown = none := by
    by_cases hready : b.txReady = true
    · obtain rfl := hwait.resolve_left (by rw [hready]; exact Bool.noConfusion)
      exact h.replying.rest hheader hready hshown
    · exact h.replying.wait hheader (Or.inl (Bool.eq_false_iff.mpr hready))
  obtain ⟨hreplying, hnone⟩ := hafter
  refine ⟨⟨?_, flag_clock c h.flag, hreplying, Or.inl hnone, ?_, ?_⟩, hnone⟩
  · exact heard_data_clock c hheard h.flag
  · rw [rxBuffer_clock_of_none c hshown, h.rxBuffer, if_pos hshown, if_pos hnone]
  · intro hfour hread _
    have haddress : (b.clock c).sio.tx.txAddress = b.sio.tx.txAddress := by
      rw [hreplying.txAddress, h.replying.txAddress]
    rw [haddress]
    obtain ⟨hnot, -⟩ := h.content_eq hserving hread
    match access, hserving.accessing, h.fetched hfour hread hshown, hnot with
    | some .write, _, _, hnot => exact absurd rfl hnot
    | some .read, haccessing, hfetch, _ =>
      obtain ⟨-, haddr, hdone, hcontent⟩ := clock_read haccessing c
      have haddr' := (hfetch.resolve_right fun hnone => by cases hnone.1).2
      by_cases hdone' : nextAccess c (some .read) b = none
      · rw [hdone hdone', hcontent, haddr']
        exact Or.inr ⟨hdone', rfl⟩
      · have hnext : nextAccess c (some .read) b = some .read := by
          rw [nextAccess] at hdone' ⊢
          split_ifs at hdone' ⊢ with hfinished
          · exact absurd rfl hdone'
          · rfl
        exact Or.inl ⟨hnext, haddr.trans haddr'⟩
    | none, haccessing, hfetch, _ =>
      obtain ⟨-, -, -, hdata, hcontent⟩ := clock_idle haccessing c
      have hbyte := (hfetch.resolve_left fun hread => by cases hread.1).2
      have hstrobe := (SioTransmit.shown_eq_none_iff.mp hshown).2
      have hnotWrite : ¬(b.sio.rx.cmdIsWrite && b.sio.rx.cmdDataStrobe (b.input c)) = true := by
        rw [cmdIsWrite_iff]
        rintro ⟨address'', a, hheard', -⟩
        rw [hheard] at hheard'
        cases hheard'
        exact absurd hread (by decide)
      have hnext : nextAccess c none b = none := by
        rw [nextAccess, if_neg hnotWrite, hstrobe, Bool.and_false]
        rfl
      rw [hdata, hcontent]
      exact Or.inr ⟨hnext, hbyte⟩

end Board

end NaviMisc.SpiMemEmulator
