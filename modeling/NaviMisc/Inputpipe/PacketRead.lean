import NaviMisc.Inputpipe.PacketWrite
import NaviMisc.Lib.Lists

/-!
The receive side of `packet.c`: packets are read from a non-blocking stream
whose bytes arrive in chunks.
-/

namespace NaviMisc.Inputpipe.PacketRead

open Lib.ByteOrder (Endian Byte)

/-- `avail` is what has arrived and is not yet consumed; `packet` is the memory of the header. -/
structure PacketSocket where
  avail : List Byte
  packet : List Byte
  receivedHeader : Bool

def init : PacketSocket := ⟨[], [0, 0, 0, 0], false⟩

/-- `fread(buf, n, 1, f)`: with fewer than `n` bytes there they are consumed all the same. -/
def fread (n : ℕ) (avail : List Byte) : Option (List Byte) × List Byte :=
  if n ≤ avail.length then (some (avail.take n), avail.drop n) else (none, [])

structure Received where
  type : BitVec 16
  length : ℕ
  content : Option (List Byte)
  deriving DecidableEq

def readContent (e : Endian) (self : PacketSocket) : PacketSocket × Received :=
  let pkt := InputpipePacket.ofBytes e self.packet
  let type := ntohs e pkt.type
  let length := (ntohs e pkt.length).toNat
  if length > 0 then
    match fread length self.avail with
    | (some content, avail) =>
      ({ self with avail := avail, receivedHeader := false }, ⟨type, length, some content⟩)
    | (none, avail) => ({ self with avail := avail }, ⟨0, length, none⟩)
  else ({ self with receivedHeader := false }, ⟨type, length, none⟩)

def packetSocketRead (e : Endian) (self : PacketSocket) : PacketSocket × Received :=
  if self.receivedHeader then readContent e self
  else
    match fread sizeofHeader self.avail with
    | (some packet, avail) => readContent e ⟨avail, packet, true⟩
    | (none, avail) =>
      ({ self with
          avail := avail
          packet := self.avail ++ self.packet.drop self.avail.length }, ⟨0, 0, none⟩)

def held (self : PacketSocket) : ℕ := if self.receivedHeader then sizeofHeader else 0

def weight (self : PacketSocket) : ℕ := held self + self.avail.length

section read

variable {e : Endian} {self : PacketSocket} {n : ℕ} {avail : List Byte}

theorem fread_ok (h : n ≤ avail.length) : fread n avail = (some (avail.take n), avail.drop n) :=
  if_pos h

theorem fread_short (h : avail.length < n) : fread n avail = (none, []) :=
  if_neg (Nat.not_le.mpr h)

theorem readContent_empty (h : (ntohs e (InputpipePacket.ofBytes e self.packet).length).toNat = 0) :
    readContent e self = ({ self with receivedHeader := false },
      ⟨ntohs e (InputpipePacket.ofBytes e self.packet).type, 0, none⟩) := by
  simp [readContent, h]

theorem readContent_some (h : (ntohs e (InputpipePacket.ofBytes e self.packet).length).toNat = n)
    (hpos : 0 < n) (hn : n ≤ self.avail.length) :
    readContent e self = ({ self with avail := self.avail.drop n, receivedHeader := false },
      ⟨ntohs e (InputpipePacket.ofBytes e self.packet).type, n, some (self.avail.take n)⟩) := by
  simp [readContent, h, hpos, fread_ok hn]

theorem readContent_short (h : (ntohs e (InputpipePacket.ofBytes e self.packet).length).toNat = n)
    (hn : self.avail.length < n) :
    readContent e self = ({ self with avail := [] }, ⟨0, n, none⟩) := by
  simp [readContent, h, Nat.zero_lt_of_lt hn, fread_short hn]

theorem weight_readContent (h : self.receivedHeader = true) :
    weight (readContent e self).1 ≤ weight self ∧
      ((readContent e self).2.type ≠ 0 →
        sizeofHeader + (readContent e self).2.length + weight (readContent e self).1 =
          weight self) := by
  generalize hn : (ntohs e (InputpipePacket.ofBytes e self.packet).length).toNat = n
  rcases Nat.eq_zero_or_pos n with rfl | hpos
  · rw [readContent_empty hn]
    simp [weight, held, h]
  · rcases Nat.lt_or_ge self.avail.length n with hshort | hok
    · rw [readContent_short hn hshort]
      simp [weight, held, h]
    · rw [readContent_some hn hpos hok]
      simp only [weight, held, h, List.length_drop]
      simp
      omega

theorem packetSocketRead_header (h : self.receivedHeader = false)
    (hn : sizeofHeader ≤ self.avail.length) :
    packetSocketRead e self = readContent e
      ⟨self.avail.drop sizeofHeader, self.avail.take sizeofHeader, true⟩ := by
  simp [packetSocketRead, h, fread_ok hn]

theorem packetSocketRead_short (h : self.receivedHeader = false)
    (hn : self.avail.length < sizeofHeader) :
    packetSocketRead e self =
      (⟨[], self.avail ++ self.packet.drop self.avail.length, false⟩, ⟨0, 0, none⟩) := by
  simp [packetSocketRead, h, fread_short hn]

theorem weight_read (e : Endian) (self : PacketSocket) :
    weight (packetSocketRead e self).1 ≤ weight self ∧
      ((packetSocketRead e self).2.type ≠ 0 →
        sizeofHeader + (packetSocketRead e self).2.length + weight (packetSocketRead e self).1 =
          weight self) := by
  cases h : self.receivedHeader with
  | true =>
    have hread : packetSocketRead e self = readContent e self := if_pos h
    rw [hread]
    exact weight_readContent h
  | false =>
    rcases Nat.lt_or_ge self.avail.length sizeofHeader with hshort | hok
    · rw [packetSocketRead_short h hshort]
      simp [weight, held]
    · rw [packetSocketRead_header h hok]
      have hweight : weight ⟨self.avail.drop sizeofHeader, self.avail.take sizeofHeader, true⟩ =
          weight self := by
        simp only [weight, held, h, List.length_drop]
        simp
        omega
      rw [← hweight]
      exact weight_readContent rfl

end read

def drain (e : Endian) (self : PacketSocket) : PacketSocket × List Received :=
  if (packetSocketRead e self).2.type ≠ 0 then
    ((drain e (packetSocketRead e self).1).1,
      (packetSocketRead e self).2 :: (drain e (packetSocketRead e self).1).2)
  else ((packetSocketRead e self).1, [])
termination_by weight self
decreasing_by
  all_goals
    rename_i h
    have hweight := (weight_read e self).2 h
    simp only [sizeofHeader] at hweight
    omega

def arrive (self : PacketSocket) (chunk : List Byte) : PacketSocket :=
  { self with avail := self.avail ++ chunk }

def receive (e : Endian) : PacketSocket → List (List Byte) → List Received
  | _, [] => []
  | self, chunk :: chunks =>
    (drain e (arrive self chunk)).2 ++ receive e (drain e (arrive self chunk)).1 chunks

def Received.size (r : Received) : ℕ := sizeofHeader + r.length

def totalSize (l : List Received) : ℕ := (l.map Received.size).sum

section weight

variable {e : Endian}

theorem totalSize_append (l l' : List Received) :
    totalSize (l ++ l') = totalSize l + totalSize l' := by
  rw [totalSize, List.map_append, List.sum_append]
  rfl

theorem weight_drain (e : Endian) (self : PacketSocket) :
    totalSize (drain e self).2 + weight (drain e self).1 ≤ weight self := by
  fun_induction drain e self with
  | case1 self h ih =>
    have hweight := (weight_read e self).2 h
    simp only [totalSize, List.map_cons, List.sum_cons, Received.size] at *
    omega
  | case2 self h =>
    have hweight := (weight_read e self).1
    simpa [totalSize] using hweight

theorem weight_receive (e : Endian) (self : PacketSocket) (chunks : List (List Byte)) :
    totalSize (receive e self chunks) ≤ weight self + chunks.flatten.length := by
  induction chunks generalizing self with
  | nil => simp [receive, totalSize]
  | cons chunk chunks ih =>
    have hdrain := weight_drain e (arrive self chunk)
    have hrest := ih (drain e (arrive self chunk)).1
    have harrive : weight (arrive self chunk) = weight self + chunk.length := by
      simp only [weight, arrive, held, List.length_append]
      exact (Nat.add_assoc _ _ _).symm
    rw [receive, totalSize_append, List.flatten_cons, List.length_append]
    omega

end weight

def received (p : Packet) : Received where
  type := p.type
  length := p.content.length
  content := if p.content = [] then none else some p.content

def totalBytes (packets : List Packet) : ℕ := (stream packets).length

/-- Position `n` of the stream lies before a packet, between a header and its content, or at the
end. -/
def Boundary : List Packet → ℕ → Prop
  | [], n => n = 0
  | p :: packets, n =>
    n = 0 ∨ n = sizeofHeader ∨ (p.bytes.length ≤ n ∧ Boundary packets (n - p.bytes.length))

inductive Awaits (self : PacketSocket) : List Byte → List Packet → Prop
  | header {packets : List Packet} : self.receivedHeader = false →
      Awaits self (stream packets) packets
  | content {p : Packet} {packets : List Packet} : self.receivedHeader = true →
      self.packet = header p.type p.content.length → p.content ≠ [] →
      Awaits self (p.content ++ stream packets) (p :: packets)

section boundary

variable {p : Packet} {packets packets' : List Packet} {m : ℕ}

@[simp] theorem totalSize_received (packets : List Packet) :
    totalSize (packets.map received) = totalBytes packets := by
  induction packets with
  | nil => rfl
  | cons p packets ih =>
    simp only [totalSize, totalBytes, List.map_cons, List.sum_cons, stream_cons,
      List.length_append] at *
    rw [ih]
    simp [Received.size, received]

theorem boundary_zero (packets : List Packet) : Boundary packets 0 := by
  cases packets with
  | nil => rfl
  | cons p packets => exact .inl rfl

theorem boundary_content : Boundary (p :: packets) (sizeofHeader + m) ↔
    m = 0 ∨ (p.content.length ≤ m ∧ Boundary packets (m - p.content.length)) := by
  have hzero : sizeofHeader + m ≠ 0 := by simp [sizeofHeader]
  have hsub : sizeofHeader + m - (sizeofHeader + p.content.length) = m - p.content.length :=
    Nat.add_sub_add_left ..
  rw [Boundary, Packet.length_bytes, hsub, or_iff_right hzero, Nat.add_eq_left,
    Nat.add_le_add_iff_left]

theorem boundary_append : Boundary (packets ++ packets') (totalBytes packets + m) ↔
    Boundary packets' m := by
  induction packets with
  | nil => simp [totalBytes]
  | cons p packets ih =>
    have htotal : totalBytes (p :: packets) = p.bytes.length + totalBytes packets := by
      simp [totalBytes]
    have hsub : p.bytes.length + totalBytes packets + m - p.bytes.length =
        totalBytes packets + m := by omega
    rw [htotal, List.cons_append, Boundary, hsub, ih]
    constructor
    · rintro (hzero | hheader | ⟨-, h⟩)
      · simp [sizeofHeader] at hzero
      · have hm : m = 0 := by
          rw [Packet.length_bytes] at hheader
          omega
        rw [hm]
        exact boundary_zero packets'
      · exact h
    · intro h
      exact .inr (.inr ⟨by omega, h⟩)

end boundary

section reading

variable {e : Endian} {self : PacketSocket} {rest : List Byte} {p : Packet} {packets : List Packet}

theorem drain_some (h : (packetSocketRead e self).2.type ≠ 0) :
    drain e self = ((drain e (packetSocketRead e self).1).1,
      (packetSocketRead e self).2 :: (drain e (packetSocketRead e self).1).2) := by
  rw [drain, if_pos h]

theorem drain_none (h : (packetSocketRead e self).2.type = 0) :
    drain e self = ((packetSocketRead e self).1, []) := by
  rw [drain, if_neg (not_not.mpr h)]

theorem ofBytes_fields (p : Packet) (hp : self.packet = header p.type p.content.length) :
    ntohs e (InputpipePacket.ofBytes e self.packet).type = p.type ∧
      (ntohs e (InputpipePacket.ofBytes e self.packet).length).toNat = p.content.length := by
  rw [hp, ofBytes_header, InputpipePacket.encode, ntohs_htons, ntohs_htons, BitVec.toNat_ofNat]
  exact ⟨rfl, Nat.mod_eq_of_lt p.length_lt⟩

def Drains (e : Endian) (self : PacketSocket) (rest : List Byte) (packets : List Packet) : Prop :=
  (Boundary packets (weight self) → ∃ done packets', packets = done ++ packets' ∧
    (drain e self).2 = done.map received ∧ (drain e self).1.avail = [] ∧
    Awaits (drain e self).1 rest packets' ∧
    totalBytes done + held (drain e self).1 = weight self) ∧
  (¬Boundary packets (weight self) →
    totalSize (drain e self).2 + weight (drain e self).1 < weight self)

theorem weight_content (h : self.receivedHeader = true) :
    weight self = sizeofHeader + self.avail.length := by
  rw [weight, held, if_pos h]

theorem weight_header (h : self.receivedHeader = false) : weight self = self.avail.length := by
  simp [weight, held, h]

theorem readContent_received (hpacket : self.packet = header p.type p.content.length)
    (hle : p.content.length ≤ self.avail.length)
    (htake : self.avail.take p.content.length = p.content) :
    readContent e self =
      ({ self with avail := self.avail.drop p.content.length, receivedHeader := false },
        received p) := by
  obtain ⟨hftype, hflength⟩ := ofBytes_fields (e := e) p hpacket
  rcases Nat.eq_zero_or_pos p.content.length with hzero | hpos
  · have hnil : p.content = [] := List.length_eq_zero_iff.mp hzero
    rw [readContent_empty (hflength.trans hzero), hftype, received, if_pos hnil, hzero,
      List.drop_zero]
  · have hne : p.content ≠ [] := List.length_pos_iff.mp hpos
    rw [readContent_some hflength hpos hle, hftype, htake, received, if_neg hne]

section content

-- The reader has a header, now or before its first `fread`.
variable {self₁ : PacketSocket} (hread : packetSocketRead e self = readContent e self₁)
  (hweight : weight self = weight self₁) (hheader : self₁.receivedHeader = true)
  (hpacket : self₁.packet = header p.type p.content.length)
  (hrest : self₁.avail ++ rest = p.content ++ stream packets)

include hread hweight hheader hpacket hrest

theorem drains_content_short (hshort : self₁.avail.length < p.content.length) :
    Drains e self rest (p :: packets) := by
  rw [readContent_short (ofBytes_fields p hpacket).2 hshort] at hread
  have hdrain := @drain_none e self (by rw [hread])
  rw [hread] at hdrain
  rw [Drains, hweight, weight_content hheader, boundary_content, hdrain]
  constructor
  · rintro (hzero | ⟨hle, -⟩)
    · have hnil : self₁.avail = [] := List.length_eq_zero_iff.mp hzero
      have hne : p.content ≠ [] := by
        rintro hcontent
        rw [hcontent] at hshort
        exact absurd hshort (Nat.not_lt_zero _)
      rw [hnil, List.nil_append] at hrest
      refine ⟨[], p :: packets, rfl, rfl, rfl, ?_, ?_⟩
      · rw [hrest]
        exact .content hheader hpacket hne
      · simp [totalBytes, held, hheader, hzero]
    · exact absurd hle (Nat.not_le.mpr hshort)
  · intro hno
    have hpos : self₁.avail.length ≠ 0 := fun hzero => hno (.inl hzero)
    simp only [totalSize, weight, held, hheader, List.map_nil, List.sum_nil, List.length_nil,
      if_true]
    omega

theorem drains_content_whole (htype : p.type ≠ 0)
    (ih : ∀ {self' rest}, self'.receivedHeader = false → self'.avail ++ rest = stream packets →
      Drains e self' rest packets)
    (hle : p.content.length ≤ self₁.avail.length) : Drains e self rest (p :: packets) := by
  obtain ⟨htake, hrest'⟩ := Lib.Lists.take_drop_of_append_eq hrest hle
  rw [readContent_received hpacket hle htake] at hread
  have hdrain := @drain_some e self (by rw [hread]; exact htype)
  rw [hread] at hdrain
  obtain ⟨hyes, hno⟩ := @ih { self₁ with
    avail := self₁.avail.drop p.content.length, receivedHeader := false } rest rfl hrest'
  rw [weight_header rfl, List.length_drop] at hyes hno
  have hcond : (self₁.avail.length = 0 ∨ p.content.length ≤ self₁.avail.length ∧
      Boundary packets (self₁.avail.length - p.content.length)) ↔
      Boundary packets (self₁.avail.length - p.content.length) := by
    constructor
    · rintro (hzero | ⟨-, h⟩)
      · rw [hzero, Nat.zero_sub]
        exact boundary_zero packets
      · exact h
    · exact fun h => .inr ⟨hle, h⟩
  rw [Drains, hweight, weight_content hheader, boundary_content, hcond, hdrain]
  constructor
  · intro hb
    obtain ⟨done, packets', rfl, hgot, havail, hawaits, htotal⟩ := hyes hb
    refine ⟨p :: done, packets', rfl, by rw [hgot, List.map_cons], havail, hawaits, ?_⟩
    simp only [totalBytes, stream_cons, List.length_append, Packet.length_bytes] at *
    omega
  · intro hb
    have hlost := hno hb
    simp only [totalSize, List.map_cons, List.sum_cons, Received.size, received] at *
    omega

theorem drains_content (htype : p.type ≠ 0)
    (ih : ∀ {self' rest}, self'.receivedHeader = false → self'.avail ++ rest = stream packets →
      Drains e self' rest packets) : Drains e self rest (p :: packets) := by
  rcases Nat.lt_or_ge self₁.avail.length p.content.length with hshort | hle
  · exact drains_content_short hread hweight hheader hpacket hrest hshort
  · exact drains_content_whole hread hweight hheader hpacket hrest htype ih hle

end content

theorem drains_header_short (hheader : self.receivedHeader = false)
    (hrest : self.avail ++ rest = stream (p :: packets)) (hshort : self.avail.length < sizeofHeader) :
    Drains e self rest (p :: packets) := by
  have hread := packetSocketRead_short (e := e) hheader hshort
  have hdrain := @drain_none e self (by rw [hread])
  rw [hread] at hdrain
  have hcond : Boundary (p :: packets) self.avail.length ↔ self.avail.length = 0 := by
    rw [Boundary, Packet.length_bytes]
    omega
  rw [Drains, hdrain, weight_header hheader, hcond]
  constructor
  · intro hzero
    have hnil : self.avail = [] := List.length_eq_zero_iff.mp hzero
    rw [hnil, List.nil_append] at hrest
    refine ⟨[], p :: packets, rfl, rfl, rfl, ?_, ?_⟩
    · rw [hrest]
      exact .header rfl
    · simp [totalBytes, held, hzero]
  · intro hpos
    simp only [totalSize, weight, held, List.map_nil, List.sum_nil, List.length_nil]
    simp
    omega

theorem drains_header (htypes : ∀ p ∈ packets, p.type ≠ 0) (hheader : self.receivedHeader = false)
    (hrest : self.avail ++ rest = stream packets) : Drains e self rest packets := by
  induction packets generalizing self rest with
  | nil =>
    obtain ⟨havail, rfl⟩ := List.append_eq_nil_iff.mp hrest
    have hread := packetSocketRead_short (e := e) hheader (by rw [havail]; simp [sizeofHeader])
    have hdrain := @drain_none e self (by rw [hread])
    rw [hread] at hdrain
    have hweight : weight self = 0 := by rw [weight_header hheader, havail, List.length_nil]
    rw [Drains, hdrain, hweight]
    exact ⟨fun _ => ⟨[], [], rfl, rfl, rfl, @Awaits.header _ [] rfl, rfl⟩,
      fun hno => absurd (boundary_zero _) hno⟩
  | cons p packets ih =>
    have htype : p.type ≠ 0 := htypes p List.mem_cons_self
    have ih' : ∀ {self' : PacketSocket} {rest : List Byte}, self'.receivedHeader = false →
        self'.avail ++ rest = stream packets → Drains e self' rest packets :=
      fun h₁ h₂ => ih (fun q hq => htypes q (List.mem_cons_of_mem p hq)) h₁ h₂
    rcases Nat.lt_or_ge self.avail.length sizeofHeader with hshort | hok
    · exact drains_header_short hheader hrest hshort
    · have hlength := length_header p.type p.content.length
      have hbytes : self.avail ++ rest =
          header p.type p.content.length ++ (p.content ++ stream packets) := by
        rw [hrest, stream_cons, Packet.bytes, List.append_assoc]
      obtain ⟨htake, hdrop⟩ := Lib.Lists.take_drop_of_append_eq hbytes (hlength ▸ hok)
      rw [hlength] at htake hdrop
      refine @drains_content e self rest p packets ⟨self.avail.drop sizeofHeader,
        self.avail.take sizeofHeader, true⟩ (packetSocketRead_header hheader hok) ?_ rfl htake hdrop
        htype ih'
      rw [weight_header hheader, weight_content rfl, List.length_drop]
      omega

theorem Awaits.drains (htypes : ∀ p ∈ packets, p.type ≠ 0)
    (h : Awaits self (self.avail ++ rest) packets) : Drains e self rest packets := by
  generalize hbytes : self.avail ++ rest = bytes at h
  cases h with
  | header hheader => exact drains_header htypes hheader hbytes
  | @content p packets hheader hpacket hne =>
    have htypes' : ∀ q ∈ packets, q.type ≠ 0 := fun q hq => htypes q (List.mem_cons_of_mem p hq)
    exact drains_content (if_pos hheader) rfl hheader hpacket hbytes (htypes p List.mem_cons_self)
      fun h₁ h₂ => drains_header htypes' h₁ h₂

theorem Awaits.boundary_held (h : Awaits self rest packets) : Boundary packets (held self) := by
  cases h with
  | header hheader =>
    simp only [held, hheader]
    exact boundary_zero packets
  | content hheader hpacket hne =>
    simp only [held, hheader]
    exact .inr (.inl rfl)

theorem Awaits.arrive (h : Awaits self rest packets) (chunk : List Byte) :
    Awaits (arrive self chunk) rest packets := by
  cases h with
  | header hheader => exact .header hheader
  | content hheader hpacket hne => exact .content hheader hpacket hne

theorem Awaits.totalBytes_eq (h : Awaits self rest packets) :
    totalBytes packets = held self + rest.length := by
  cases h with
  | header hheader => simp [totalBytes, held, hheader]
  | content hheader hpacket hne => simp [totalBytes, held, hheader, Nat.add_assoc]

theorem Awaits.nil (h : Awaits self [] packets) : packets = [] := by
  generalize hbytes : ([] : List Byte) = bytes at h
  cases h with
  | header hheader =>
    cases packets with
    | nil => rfl
    | cons p packets =>
      have hlength := congrArg List.length hbytes
      rw [stream_cons, List.length_append, Packet.length_bytes] at hlength
      simp only [List.length_nil, sizeofHeader] at hlength
      omega
  | @content p packets hheader hpacket hne =>
    exact absurd (List.append_eq_nil_iff.mp hbytes.symm).1 hne

theorem receive_eq_iff {chunks : List (List Byte)} (htypes : ∀ p ∈ packets, p.type ≠ 0)
    (havail : self.avail = []) (h : Awaits self chunks.flatten packets) :
    receive e self chunks = packets.map received ↔
      ∀ k ≤ chunks.length, Boundary packets (held self + (chunks.take k).flatten.length) := by
  induction chunks generalizing self packets with
  | nil =>
    have hnil : packets = [] := h.nil
    have hheld := h.boundary_held
    subst hnil
    refine iff_of_true rfl ?_
    intro k _
    simpa using hheld
  | cons chunk chunks ih =>
    have harrive : Awaits (arrive self chunk) ((arrive self chunk).avail ++ chunks.flatten)
        packets := by
      have hbytes : (arrive self chunk).avail ++ chunks.flatten = (chunk :: chunks).flatten := by
        simp [arrive, havail]
      rw [hbytes]
      exact h.arrive chunk
    have hweight : weight (arrive self chunk) = held self + chunk.length := by
      simp [weight, arrive, held, havail]
    obtain ⟨hyes, hno⟩ := harrive.drains (e := e) htypes
    rw [hweight] at hyes hno
    by_cases hcut : Boundary packets (held self + chunk.length)
    · obtain ⟨done, packets', rfl, hgot, havail', hawaits, htotal⟩ := hyes hcut
      have htypes' : ∀ p ∈ packets', p.type ≠ 0 := fun p hp =>
        htypes p (List.mem_append_right done hp)
      rw [receive, hgot, List.map_append, List.append_cancel_left_eq, ih htypes' havail' hawaits]
      have hshift : ∀ k, Boundary (done ++ packets')
          (held self + ((chunk :: chunks).take (k + 1)).flatten.length) ↔
          Boundary packets' (held (drain e (arrive self chunk)).1 +
            (chunks.take k).flatten.length) := by
        intro k
        have hposition : held self + ((chunk :: chunks).take (k + 1)).flatten.length =
            totalBytes done + (held (drain e (arrive self chunk)).1 +
              (chunks.take k).flatten.length) := by
          rw [List.take_succ_cons, List.flatten_cons, List.length_append]
          omega
        rw [hposition, boundary_append]
      constructor
      · intro hall k hk
        cases k with
        | zero => simpa using h.boundary_held
        | succ k => exact (hshift k).mpr (hall k (Nat.le_of_succ_le_succ hk))
      · intro hall k hk
        exact (hshift k).mp (hall (k + 1) (Nat.succ_le_succ hk))
    · -- too few bytes are left for the packets
      refine iff_of_false ?_ ?_
      · intro heq
        have hlost := hno hcut
        have hrest := weight_receive e (drain e (arrive self chunk)).1 chunks
        have hsize := congrArg totalSize heq
        rw [receive, totalSize_append, totalSize_received, h.totalBytes_eq, List.flatten_cons,
          List.length_append] at hsize
        omega
      · intro hall
        have hone := hall 1 (by simp)
        simp only [List.take_succ_cons, List.take_zero, List.flatten_cons, List.flatten_nil,
          List.append_nil] at hone
        exact hcut hone

end reading

theorem reassembles_iff (e : Endian) {packets : List Packet} {chunks : List (List Byte)}
    (htypes : ∀ p ∈ packets, p.type ≠ 0) (h : chunks.flatten = stream packets) :
    receive e init chunks = packets.map received ↔
      ∀ k ≤ chunks.length, Boundary packets (chunks.take k).flatten.length := by
  have hawaits : Awaits init chunks.flatten packets := by
    rw [h]
    exact .header rfl
  have hiff := receive_eq_iff (e := e) htypes rfl hawaits
  simpa [held, init] using hiff

theorem reassembles_iff_before_content :
    receive .little init [[1, 1, 0, 1], [7]] = [⟨0x101, 1, some [7]⟩] := by
  have hstream : [[1, 1, 0, 1], [7]].flatten = stream [⟨0x101, [7], by simp⟩] := by decide
  apply (reassembles_iff .little (by simp) hstream).mpr
  intro k hk
  match k, hk with
  | 0, _ => exact boundary_zero _
  | 1, _ => exact .inr (.inl rfl)
  | 2, _ => exact .inr (.inr ⟨le_rfl, rfl⟩)

/-- A header that arrives in two parts. -/
theorem split_header_lost : ∃ p : Packet, p.type ≠ 0 ∧ [[3], [1, 0, 0]].flatten = stream [p] ∧
    receive .little init [[3], [1, 0, 0]] ≠ [received p] := by
  have hstream : [[3], [1, 0, 0]].flatten = stream [⟨0x301, [], by simp⟩] := by decide
  have hawaits : Awaits init [[3], [1, 0, 0]].flatten [⟨0x301, [], by simp⟩] := by
    rw [hstream]
    exact .header rfl
  refine ⟨⟨0x301, [], by simp⟩, by simp, hstream, ?_⟩
  intro hgot
  have hcut := (receive_eq_iff (by simp) rfl hawaits).mp hgot 1 (by simp)
  simp [Boundary, held, init, sizeofHeader] at hcut

end NaviMisc.Inputpipe.PacketRead
