import NaviMisc.Camserv.PictureUsers

/-!
What a browser gets is the preamble and then pictures with separators between them.
-/

namespace NaviMisc.Camserv

open NaviMisc.Lib.ByteOrder NaviMisc.Lib.Runs

def Manager.entries (m : Manager) : List (ℤ × List Byte × ℕ) :=
  m.binList.map fun bin => (bin.picture_id, bin.picture_data, bin.picture_size)

structure Managed (m : Manager) (pictures : List (List Byte)) : Prop where
  current : m.current_picture_id = pictures.length
  entries : ∀ e ∈ m.entries, ∃ k : ℕ, e.1 = k ∧ pictures[k]? = some e.2.1 ∧ e.2.2 = e.2.1.length
  newest : ∀ e, m.entries.head? = some e → e.1 + 1 = pictures.length

section Entries

variable {m m' : Manager} {bin : Picture_Bin} {pictures : List (List Byte)}

theorem entries_new_client (h : manager_new_client m = some (bin, m')) :
    m'.entries = m.entries ∧ m'.current_picture_id = m.current_picture_id ∧
      m.entries.head? = some (bin.picture_id, bin.picture_data, bin.picture_size) := by
  unfold manager_new_client at h
  split at h
  next => cases h
  next first bins hbins =>
    cases h
    simp [Manager.entries, hbins]

theorem entries_dest_client (m : Manager) (id : ℤ) :
    (manager_dest_client m id).entries = m.entries := by
  simp only [Manager.entries, manager_dest_client, List.map_map]
  apply List.map_congr_left
  intro bin _
  rw [Function.comp_apply]
  split_ifs <;> rfl

theorem Managed.of_entries (h : Managed m pictures) (hentries : m'.entries = m.entries)
    (hcurrent : m'.current_picture_id = m.current_picture_id) : Managed m' pictures :=
  ⟨hcurrent ▸ h.current, hentries ▸ h.entries, hentries ▸ h.newest⟩

theorem Managed.dest_client (h : Managed m pictures) (id : ℤ) :
    Managed (manager_dest_client m id) pictures :=
  h.of_entries (entries_dest_client m id) rfl

theorem Managed.dest (h : Managed m pictures) (management_data : Option ℤ) :
    Managed (management_data.elim m (manager_dest_client m)) pictures := by
  cases management_data with
  | none => exact h
  | some id => exact h.dest_client id

theorem managed_new_picture (h : Managed m pictures) (data : List Byte) :
    Managed (manager_new_picture m data data.length) (pictures ++ [data]) := by
  refine ⟨?_, ?_, ?_⟩
  · simp [manager_new_picture, h.current]
  · intro e he
    obtain ⟨bin, hbin, rfl⟩ := List.mem_map.mp he
    rcases List.mem_cons.mp hbin with rfl | hbin
    · exact ⟨pictures.length, h.current, by simp, rfl⟩
    · obtain ⟨k, hid, hdata, hsize⟩ := h.entries _
        (List.mem_map_of_mem (List.mem_of_mem_filter hbin))
      refine ⟨k, hid, ?_, hsize⟩
      rw [List.getElem?_append_left (List.getElem?_eq_some_iff.mp hdata).1]
      exact hdata
  · intro e he
    simp only [Manager.entries, manager_new_picture, List.map_cons, List.head?_cons,
      Option.some.injEq] at he
    subst he
    simp [h.current]

end Entries

theorem new_picture_none_eq {m m' : Manager} {cinfo cinfo' : ClientInfo}
    (h : new_picture m cinfo = (none, m', cinfo')) :
    cinfo' = { cinfo with management_data := none } := by
  unfold new_picture at h
  split at h
  next =>
    cases h
    rfl
  next =>
    split_ifs at h
    · cases h
      rfl
    · cases h

section Writes

variable {m m' : Manager} {cinfo cinfo' : ClientInfo} {found : Option Picture_Bin}
  {writeset : SockSet} {pictures : List (List Byte)} (h : Managed m pictures)
include h

theorem managed_new (hnew : new_picture m cinfo = (found, m', cinfo')) : Managed m' pictures := by
  unfold new_picture at hnew
  split at hnew
  next =>
    cases hnew
    exact h
  next bin manager hclient =>
    obtain ⟨hentries, hcurrent, -⟩ := entries_new_client hclient
    have hmanaged := h.of_entries hentries hcurrent
    split_ifs at hnew
    · cases hnew
      exact hmanaged.dest_client _
    · cases hnew
      exact hmanaged

theorem managed_write_proxy (host : Host) (written : Option ℕ) :
    Managed (write_proxy_client host m cinfo writeset written).manager pictures := by
  unfold write_proxy_client
  dsimp only
  split
  next => exact h
  next => exact h
  next =>
    split_ifs
    · exact h
    · unfold next_proxy_picture
      split
      next hnew => exact managed_new (h.dest _) hnew
      next hnew => exact managed_new (h.dest _) hnew

theorem managed_write_regular (now : ℤ) (written : Option ℕ) :
    Managed (write_regular_client m cinfo writeset now written).manager pictures := by
  unfold write_regular_client
  dsimp only
  split
  next => exact h
  next => exact h
  next =>
    split_ifs
    · unfold next_regular_picture
      split
      next hnew => exact managed_new h hnew
      next hnew => exact managed_new h hnew
    · unfold finish_regular_picture
      dsimp only
      split_ifs <;> exact h.dest _

theorem newer_of_new {bin : Picture_Bin} (hnew : new_picture m cinfo = (some bin, m', cinfo'))
    (hlast : cinfo.last_picture_id < pictures.length) : ∃ k : ℕ, bin.picture_id = k ∧
      cinfo.last_picture_id < k ∧ pictures[k]? = some bin.picture_data ∧
      bin.picture_size = bin.picture_data.length ∧
      cinfo' = { cinfo with management_data := some bin.picture_id } := by
  unfold new_picture at hnew
  split at hnew
  next => cases hnew
  next bin' manager hclient =>
    obtain ⟨-, -, hhead⟩ := entries_new_client hclient
    split_ifs at hnew with hid
    · cases hnew
    · cases hnew
      obtain ⟨k, hk, hdata, hsize⟩ := h.entries _ (List.mem_of_mem_head? hhead)
      have hnewest := h.newest _ hhead
      dsimp only at hk hdata hsize hnewest
      refine ⟨k, hk, ?_, hdata, hsize, rfl⟩
      omega

end Writes

inductive Streamed (preamble : List Byte) (pictures : List (List Byte)) :
    CInfoState → ℤ → List Byte → Prop
  | preamble : Streamed preamble pictures .PREAMBLE (-1) preamble
  | picture (state : CInfoState) (last : ℤ) (text : List Byte) (k : ℕ) (data : List Byte) :
      Streamed preamble pictures state last text → state ≠ .PICTURE → last < k →
      pictures[k]? = some data → Streamed preamble pictures .PICTURE k (text ++ data)
  | seperator (last : ℤ) (text : List Byte) : Streamed preamble pictures .PICTURE last text →
      Streamed preamble pictures .SEPERATOR last (text ++ get_seperator_text)

def parts (pictures : List (List Byte)) (ids : List ℕ) : List Byte :=
  ids.flatMap fun id => pictures.getD id [] ++ get_seperator_text

namespace Streamed

variable {preamble text : List Byte} {pictures : List (List Byte)} {state : CInfoState} {last : ℤ}

theorem last_lt (h : Streamed preamble pictures state last text) : last < pictures.length := by
  induction h with
  | preamble => omega
  | picture _ _ _ k data _ _ _ hdata _ =>
    exact_mod_cast (List.getElem?_eq_some_iff.mp hdata).1
  | seperator _ _ _ ih => exact ih

theorem state_eq (h : Streamed preamble pictures state last text)
    (hstate : ¬(state = .PREAMBLE ∨ state = .SEPERATOR)) : state = .PICTURE := by
  cases h with
  | preamble => exact absurd (.inl rfl) hstate
  | picture => rfl
  | seperator => exact absurd (.inr rfl) hstate

theorem of_preamble (h : Streamed preamble pictures state last text) (hstate : state = .PREAMBLE) :
    last = -1 ∧ text = preamble := by
  cases h with
  | preamble => exact ⟨rfl, rfl⟩
  | picture => cases hstate
  | seperator => cases hstate

theorem append (h : Streamed preamble pictures state last text) (data : List Byte) :
    Streamed preamble (pictures ++ [data]) state last text := by
  induction h with
  | preamble => exact .preamble
  | picture state last text k data' _ hstate hlt hdata ih =>
    refine .picture state last text k data' ih hstate hlt ?_
    rw [List.getElem?_append_left (List.getElem?_eq_some_iff.mp hdata).1]
    exact hdata
  | seperator last text _ ih => exact .seperator last text ih

theorem exists_ids (h : Streamed preamble pictures state last text) :
    ∃ ids : List ℕ, ids.Pairwise (· < ·) ∧ (∀ id ∈ ids, id < pictures.length) ∧
      if state = .PICTURE then ∃ k : ℕ, last = k ∧ k < pictures.length ∧ (∀ id ∈ ids, id < k) ∧
        text = preamble ++ parts pictures ids ++ pictures.getD k []
      else (∀ id ∈ ids, (id : ℤ) ≤ last) ∧ text = preamble ++ parts pictures ids := by
  induction h with
  | preamble => exact ⟨[], .nil, by simp, by simp [parts]⟩
  | picture state last text k data _ hstate hlt hdata ih =>
    obtain ⟨ids, hpairwise, hids, htext⟩ := ih
    rw [if_neg hstate] at htext
    have hk := List.getElem?_eq_some_iff.mp hdata
    refine ⟨ids, hpairwise, hids, ?_⟩
    rw [if_pos rfl]
    refine ⟨k, rfl, hk.1, fun id hid => ?_, ?_⟩
    · have hle := htext.1 id hid
      omega
    · rw [htext.2, List.getD_eq_getElem?_getD, hdata, Option.getD_some]
  | seperator last text _ ih =>
    obtain ⟨ids, hpairwise, hids, htext⟩ := ih
    rw [if_pos rfl] at htext
    obtain ⟨k, hlast, hk, hlt, htext⟩ := htext
    refine ⟨ids ++ [k], ?_, ?_, ?_⟩
    · rw [List.pairwise_append]
      exact ⟨hpairwise, List.pairwise_singleton _ _, by simpa using hlt⟩
    · simpa [or_imp, forall_and] using ⟨hids, hk⟩
    · rw [if_neg (by decide)]
      constructor
      · intro id hid
        rcases List.mem_append.mp hid with hid | hid
        · have hlt' := hlt id hid
          omega
        · rw [List.mem_singleton] at hid
          omega
      · simp [htext, parts]

end Streamed

theorem getD_append {pictures : List (List Byte)} {k : ℕ} (hk : k < pictures.length)
    (data : List Byte) : (pictures ++ [data]).getD k [] = pictures.getD k [] := by
  rw [List.getD_eq_getElem?_getD, List.getElem?_append_left hk, List.getD_eq_getElem?_getD]

def Buffer.data (pictures : List (List Byte)) : Buffer → List Byte
  | .text bytes => bytes
  | .picture id => pictures.getD id.toNat []
  | _ => []

theorem contents_eq_text {m : Manager} {pictures : List (List Byte)} (h : Managed m pictures)
    (host : Host) (picsize : ℕ) {buffer : Buffer}
    (hbuffer : (∃ bytes, buffer = .text bytes) ∨
      ∃ id p, buffer = .picture id ∧ m.picture id = some p) :
    contents host m picsize buffer = buffer.data pictures := by
  rcases hbuffer with ⟨bytes, rfl⟩ | ⟨id, p, rfl, hpicture⟩
  · rfl
  · rw [contents, Buffer.data, hpicture]
    obtain ⟨bin, hbin, rfl⟩ := Option.map_eq_some_iff.mp hpicture
    obtain ⟨k, hid, hdata, -⟩ := h.entries _ (List.mem_map_of_mem (List.mem_of_find?_eq_some hbin))
    have hfound : bin.picture_id = id := by simpa using List.find?_some hbin
    dsimp only at hid hdata
    rw [← hfound, hid, Int.toNat_natCast, List.getD_eq_getElem?_getD, hdata]
    rfl

def preamble : ClientType → List Byte
  | .SINGLE => get_single_preamble_text
  | _ => get_multi_preamble_text

structure Follows (pictures : List (List Byte)) (cinfo : ClientInfo) (out text : List Byte) :
    Prop where
  streamed : Streamed (preamble cinfo.client_type) pictures cinfo.state cinfo.last_picture_id text
  left : out ++ (cinfo.writebuf.buffer.data pictures).drop cinfo.writebuf.data_p = text
  size : cinfo.writebuf.buffer_size = (cinfo.writebuf.buffer.data pictures).length
  data_p : cinfo.writebuf.data_p ≤ cinfo.writebuf.buffer_size
  sending : cinfo.state = .PICTURE → cinfo.management_data = some cinfo.last_picture_id ∧
    cinfo.writebuf.buffer = .picture cinfo.last_picture_id ∧
    (cinfo.writebuf.data_p = cinfo.writebuf.buffer_size → cinfo.writebuf.buffer_size = 0)
  between : cinfo.state ≠ .PICTURE → ∃ bytes, cinfo.writebuf.buffer = .text bytes
  single : cinfo.client_type = .SINGLE → cinfo.state ≠ .PREAMBLE → cinfo.state = .PICTURE ∧
    ∃ k : ℕ, cinfo.last_picture_id = k ∧ k < pictures.length ∧
      text = get_single_preamble_text ++ pictures.getD k []

namespace Follows

variable {pictures : List (List Byte)} {cinfo : ClientInfo} {out text : List Byte} {m : Manager}
  (h : Follows pictures cinfo out text)
include h

theorem contents_eq (hmanaged : Managed m pictures)
    (hheld : ∀ id, cinfo.management_data = some id → ∃ p, m.picture id = some p) (host : Host) :
    contents host m cinfo.proxypic_size cinfo.writebuf.buffer =
      cinfo.writebuf.buffer.data pictures := by
  apply contents_eq_text hmanaged
  by_cases hstate : cinfo.state = .PICTURE
  · obtain ⟨hdata, hbuffer, -⟩ := h.sending hstate
    obtain ⟨p, hp⟩ := hheld _ hdata
    exact .inr ⟨_, p, hbuffer, hp⟩
  · exact .inl (h.between hstate)

theorem text_append (hstate : cinfo.state = .PICTURE) (data : List Byte) :
    cinfo.writebuf.buffer.data (pictures ++ [data]) = cinfo.writebuf.buffer.data pictures := by
  obtain ⟨-, hbuffer, -⟩ := h.sending hstate
  obtain ⟨ids, -, -, htext⟩ := h.streamed.exists_ids
  rw [if_pos hstate] at htext
  obtain ⟨k, hlast, hk, -⟩ := htext
  rw [hbuffer, hlast, Buffer.data, Buffer.data, Int.toNat_natCast, getD_append hk]

theorem append (data : List Byte) : Follows (pictures ++ [data]) cinfo out text := by
  have htext : cinfo.writebuf.buffer.data (pictures ++ [data]) =
      cinfo.writebuf.buffer.data pictures := by
    by_cases hstate : cinfo.state = .PICTURE
    · exact h.text_append hstate data
    · obtain ⟨bytes, hbuffer⟩ := h.between hstate
      rw [hbuffer]
      rfl
  refine ⟨h.streamed.append data, htext ▸ h.left, htext ▸ h.size, h.data_p, h.sending, h.between,
    fun hsingle hstate => ?_⟩
  obtain ⟨hpicture, k, hlast, hk, hsame⟩ := h.single hsingle hstate
  refine ⟨hpicture, k, hlast, hk.trans_le (by simp), ?_⟩
  rw [getD_append hk]
  exact hsame

theorem finish_picture (hpicture : cinfo.state = .PICTURE) {writebuf : DataBuf}
    {writeset : SockSet} (now : ℤ)
    (hclose : (finish_regular_picture m { cinfo with writebuf := writebuf } writeset now).result ≠
      .close) :
    ∃ text', Follows pictures (finish_regular_picture m { cinfo with writebuf := writebuf }
      writeset now).cinfo text text' := by
  have hstreamed := h.streamed
  rw [hpicture] at hstreamed
  unfold finish_regular_picture at hclose ⊢
  dsimp only at hclose ⊢
  split_ifs at hclose ⊢ with hdrop
  · exact absurd rfl hclose
  · refine ⟨text ++ get_seperator_text, .seperator _ _ hstreamed, ?_, rfl, Nat.zero_le _, nofun,
      fun _ => ⟨_, rfl⟩, fun hsingle => absurd (.inl hsingle) hdrop⟩
    simp [databuf_buf_set, Buffer.data]

omit h in
theorem next_picture (h : Follows pictures cinfo text text) (hmanaged : Managed m pictures)
    (hstate : cinfo.state ≠ .PICTURE) (writeset : SockSet) :
    ∃ text', Follows pictures (next_regular_picture m cinfo writeset).cinfo text text' := by
  unfold next_regular_picture
  split
  next m' cinfo' hnew =>
    rw [new_picture_none_eq hnew]
    exact ⟨text, h.streamed, h.left, h.size, h.data_p, fun hpicture => absurd hpicture hstate,
      h.between, h.single⟩
  next bin m' cinfo' hnew =>
    obtain ⟨k, hid, hlt, hdata, hsize, rfl⟩ := newer_of_new hmanaged hnew h.streamed.last_lt
    have hdata' : (Buffer.picture bin.picture_id).data pictures = bin.picture_data := by
      rw [Buffer.data, hid, Int.toNat_natCast, List.getD_eq_getElem?_getD, hdata]
      rfl
    refine ⟨text ++ bin.picture_data, ?_, ?_, ?_, Nat.zero_le _, ?_, fun hne => absurd rfl hne, ?_⟩
    · rw [hid]
      exact .picture _ _ _ k _ h.streamed hstate hlt hdata
    · simp [databuf_buf_set, hdata']
    · simp [databuf_buf_set, hdata', hsize]
    · exact fun _ => ⟨rfl, rfl, fun hzero => hzero.symm⟩
    · intro hsingle _
      have hpreamble : cinfo.state = .PREAMBLE := by
        by_contra hne
        exact hstate (h.single hsingle hne).1
      have htype : cinfo.client_type = .SINGLE := hsingle
      have htext := (h.streamed.of_preamble hpreamble).2
      rw [htype] at htext
      refine ⟨rfl, k, hid, (List.getElem?_eq_some_iff.mp hdata).1, ?_⟩
      rw [htext, List.getD_eq_getElem?_getD, hdata]
      rfl

theorem write (hmanaged : Managed m pictures)
    (hheld : ∀ id, cinfo.management_data = some id → ∃ p, m.picture id = some p) (host : Host)
    (writeset : SockSet) (now : ℤ) (res : ℕ) :
    let w := write_regular_client m cinfo writeset now (some res)
    let out' := out ++ cinfo.writebuf.taken
      (contents host m cinfo.proxypic_size cinfo.writebuf.buffer) res
    out' <+: text ∧ (w.result ≠ .close → ∃ text', Follows pictures w.cinfo out' text') := by
  dsimp only
  rw [h.contents_eq hmanaged hheld host]
  have htaken := cinfo.writebuf.taken_append_drop (cinfo.writebuf.buffer.data pictures) res
  have hleft : (out ++ cinfo.writebuf.taken (cinfo.writebuf.buffer.data pictures) res) ++
      (cinfo.writebuf.buffer.data pictures).drop (cinfo.writebuf.advance res).data_p = text := by
    rw [List.append_assoc, htaken, h.left]
  generalize out ++ cinfo.writebuf.taken (cinfo.writebuf.buffer.data pictures) res = out' at hleft ⊢
  refine ⟨⟨_, hleft⟩, fun hclose => ?_⟩
  by_cases hdone : (cinfo.writebuf.advance res).data_p = cinfo.writebuf.buffer_size
  · have hall : out' = text := by
      rw [hdone, h.size, List.drop_length, List.append_nil] at hleft
      exact hleft
    rw [hall] at hleft ⊢
    simp only [write_regular_client, DataBuf.databuf_write_done hdone] at hclose ⊢
    split_ifs at hclose ⊢ with hstate
    · have hbetween : cinfo.state ≠ .PICTURE := by
        rcases hstate with hstate | hstate <;> simp [hstate]
      have hfull : Follows pictures { cinfo with writebuf := cinfo.writebuf.advance res } text
          text :=
        ⟨h.streamed, hleft, h.size, DataBuf.advance_le h.data_p,
          fun hpicture => absurd hpicture hbetween, h.between, h.single⟩
      exact hfull.next_picture hmanaged hbetween writeset
    · exact h.finish_picture (h.streamed.state_eq hstate) now hclose
  · simp only [write_regular_client, DataBuf.databuf_write_more hdone]
    refine ⟨text, h.streamed, hleft, h.size, DataBuf.advance_le h.data_p, fun hstate => ?_,
      h.between, h.single⟩
    obtain ⟨hdata, hbuffer, -⟩ := h.sending hstate
    exact ⟨hdata, hbuffer, fun heq => absurd heq hdone⟩

end Follows

def BrowserStream (pictures : List (List Byte)) (out : List Byte) : Prop :=
  ∃ ids : List ℕ, ids.Pairwise (· < ·) ∧ (∀ id ∈ ids, id < pictures.length) ∧
    out <+: get_multi_preamble_text ++ parts pictures ids

def SingleFrame (pictures : List (List Byte)) (out : List Byte) : Prop :=
  out <+: get_single_preamble_text ∨
    ∃ id < pictures.length, out <+: get_single_preamble_text ++ pictures.getD id []

structure WellFormed (pictures : List (List Byte)) (stream : ClientType × List Byte) : Prop where
  browser : stream.1 = .BROWSER → BrowserStream pictures stream.2
  single : stream.1 = .SINGLE → SingleFrame pictures stream.2

def Waiting (pictures : List (List Byte)) (cinfo : ClientInfo) (out : List Byte) : Prop :=
  cinfo.last_picture_id = -1 ∧ out <+: get_single_preamble_text ∨
    ∃ k : ℕ, cinfo.last_picture_id = k ∧ k < pictures.length ∧
      out <+: get_single_preamble_text ++ pictures.getD k [] ∧
      (out = get_single_preamble_text ++ pictures.getD k [] → pictures.getD k [] = [])

theorem preamble_browser : preamble .BROWSER = get_multi_preamble_text := rfl

section WellFormed

variable {pictures : List (List Byte)} {cinfo : ClientInfo} {out text : List Byte}
  {stream : ClientType × List Byte}

theorem parts_append {ids : List ℕ} (h : ∀ id ∈ ids, id < pictures.length) (data : List Byte) :
    parts (pictures ++ [data]) ids = parts pictures ids := by
  apply List.flatMap_congr
  intro id hid
  rw [getD_append (h id hid)]

theorem WellFormed.append (h : WellFormed pictures stream) (data : List Byte) :
    WellFormed (pictures ++ [data]) stream := by
  have hlength : pictures.length ≤ (pictures ++ [data]).length := by simp
  constructor
  · intro hbrowser
    obtain ⟨ids, hpairwise, hids, hout⟩ := h.browser hbrowser
    refine ⟨ids, hpairwise, fun id hid => (hids id hid).trans_le hlength, ?_⟩
    rw [parts_append hids]
    exact hout
  · intro hsingle
    refine (h.single hsingle).imp id ?_
    rintro ⟨k, hk, hout⟩
    refine ⟨k, hk.trans_le hlength, ?_⟩
    rw [getD_append hk]
    exact hout

theorem Follows.wellFormed (h : Follows pictures cinfo out text) {out' : List Byte}
    (hout : out' <+: text) : WellFormed pictures (cinfo.client_type, out') := by
  constructor
  · intro hbrowser
    obtain ⟨ids, hpairwise, hids, htext⟩ := h.streamed.exists_ids
    have htype : cinfo.client_type = .BROWSER := hbrowser
    rw [htype, preamble_browser] at htext
    split_ifs at htext with hstate
    · obtain ⟨k, -, hk, hlt, htext⟩ := htext
      rw [htext] at hout
      refine ⟨ids ++ [k], ?_, ?_, hout.trans ?_⟩
      · rw [List.pairwise_append]
        exact ⟨hpairwise, List.pairwise_singleton _ _, by simpa using hlt⟩
      · simpa [or_imp, forall_and] using ⟨hids, hk⟩
      · simp [parts]
    · rw [htext.2] at hout
      exact ⟨ids, hpairwise, hids, hout⟩
  · intro hsingle
    have htype : cinfo.client_type = .SINGLE := hsingle
    by_cases hpreamble : cinfo.state = .PREAMBLE
    · obtain ⟨-, rfl⟩ := h.streamed.of_preamble hpreamble
      rw [htype] at hout
      exact .inl hout
    · obtain ⟨-, k, -, hk, rfl⟩ := h.single htype hpreamble
      exact .inr ⟨k, hk, hout⟩

theorem Follows.waiting (h : Follows pictures cinfo out text) (hsingle : cinfo.client_type = .SINGLE) :
    Waiting pictures cinfo out := by
  have hout : out <+: text := ⟨_, h.left⟩
  by_cases hpreamble : cinfo.state = .PREAMBLE
  · obtain ⟨hlast, rfl⟩ := h.streamed.of_preamble hpreamble
    rw [hsingle] at hout
    exact .inl ⟨hlast, hout⟩
  · obtain ⟨hpicture, k, hlast, hk, rfl⟩ := h.single hsingle hpreamble
    refine .inr ⟨k, hlast, hk, hout, fun hall => ?_⟩
    obtain ⟨-, hbuffer, hzero⟩ := h.sending hpicture
    have hdata : cinfo.writebuf.buffer.data pictures = pictures.getD k [] := by
      rw [hbuffer, hlast, Buffer.data, Int.toNat_natCast]
    have hleft := h.left
    rw [hall, List.append_right_eq_self, List.drop_eq_nil_iff, hdata] at hleft
    have hsize := h.size
    rw [hdata] at hsize
    have hfull := h.data_p.antisymm (hsize ▸ hleft)
    rw [hzero hfull] at hsize
    exact List.eq_nil_of_length_eq_zero hsize.symm

theorem follows_text {bytes : List Byte} {cinfo' : ClientInfo} (hstate : cinfo'.state = .PREAMBLE)
    (hlast : cinfo'.last_picture_id = -1) (hbytes : preamble cinfo'.client_type = bytes)
    (hbuf : cinfo'.writebuf = databuf_buf_set (.text bytes) bytes.length) :
    Follows pictures cinfo' [] bytes := by
  refine ⟨?_, ?_, ?_, ?_, ?_, ?_, fun _ hne => absurd hstate hne⟩
  · rw [hstate, hlast, hbytes]
    exact .preamble
  · rw [hbuf]
    exact List.nil_append _
  · rw [hbuf]
    rfl
  · rw [hbuf]
    exact Nat.zero_le _
  · intro hpicture
    rw [hstate] at hpicture
    cases hpicture
  · exact fun _ => ⟨bytes, by rw [hbuf, databuf_buf_set]⟩

end WellFormed

namespace Server

variable {s t : Server} {id : ℕ} {cinfo : ClientInfo}

structure Following (s : Server) : Prop where
  managed : Managed s.manager s.pictures
  types : ∀ id cinfo, s.clients id = some cinfo → (s.streams id).1 = cinfo.client_type
  unnamed : ∀ id cinfo, s.clients id = some cinfo → cinfo.client_type = .UNINIT →
    cinfo.last_picture_id = -1
  follows : ∀ id cinfo, s.clients id = some cinfo → regular cinfo = true →
    ∃ text, Follows s.pictures cinfo (s.streams id).2 text
  wellFormed : ∀ id, WellFormed s.pictures (s.streams id)
  fresh : ∀ id, s.next_client ≤ id → s.streams id = (.UNINIT, [])

theorem Following.transport (h : Following s) (hmanager : t.manager = s.manager)
    (hpictures : t.pictures = s.pictures) (hclients : t.clients = s.clients)
    (hstreams : t.streams = s.streams) (hnext : t.next_client = s.next_client) : Following t :=
  ⟨hmanager ▸ hpictures ▸ h.managed, hclients ▸ hstreams ▸ h.types, hclients ▸ h.unnamed,
    hclients ▸ hpictures ▸ hstreams ▸ h.follows, hpictures ▸ hstreams ▸ h.wellFormed,
    hnext ▸ hstreams ▸ h.fresh⟩

theorem Shared.held (h : Shared s) (hnodup : s.client_sockets.Nodup)
    (hid : s.clients id = some cinfo) (hlisted : id ∈ s.client_sockets) (picture : ℤ)
    (hdata : cinfo.management_data = some picture) : ∃ p, s.manager.picture picture = some p := by
  obtain ⟨others, husers, -⟩ := others_users hnodup hlisted hid
  have hused : s.users picture ≠ 0 := by
    rw [husers, hdata, sharing, if_pos rfl]
    exact Nat.succ_ne_zero _
  obtain ⟨bin, hbin, rfl⟩ := h.counted.held picture hused
  exact ⟨_, h.counted.picture_of_mem hbin⟩

theorem follows_identified {pictures : List (List Byte)} (hstate : cinfo.state = .PREAMBLE) (hlast : cinfo.last_picture_id = -1)
    (client_type : ClientType) :
    (regular (identified cinfo client_type) = true →
      ∃ text, Follows pictures (identified cinfo client_type) [] text) ∧
    WellFormed pictures (client_type, []) := by
  have hnil : WellFormed pictures (client_type, []) :=
    ⟨fun _ => ⟨[], .nil, by simp, List.nil_prefix⟩, fun _ => .inl List.nil_prefix⟩
  refine ⟨fun hregular => ?_, hnil⟩
  cases client_type with
  | PROXY => simp [regular, identified] at hregular
  | UNINIT => simp [regular, identified] at hregular
  | BROWSER => exact ⟨_, follows_text hstate hlast rfl rfl⟩
  | SINGLE => exact ⟨_, follows_text hstate hlast rfl rfl⟩

section Operations

variable {host : Host} {limits : Limits} (hr : Registered s) (hs : Shared s) (h : Following s)
include h

theorem Following.drop_client : Following (s.drop_client id cinfo) := by
  have hclients : ∀ id' cinfo', (s.drop_client id cinfo).clients id' = some cinfo' →
      s.clients id' = some cinfo' := by
    intro id' cinfo' hid'
    rw [Server.drop_client] at hid'
    simp only [Function.update_apply] at hid'
    split_ifs at hid'
    exact hid'
  exact ⟨h.managed.dest _, fun id' cinfo' hid' => h.types id' cinfo' (hclients id' cinfo' hid'),
    fun id' cinfo' hid' => h.unnamed id' cinfo' (hclients id' cinfo' hid'),
    fun id' cinfo' hid' => h.follows id' cinfo' (hclients id' cinfo' hid'), h.wellFormed, h.fresh⟩

theorem Following.picture_taken (r : Returned) : Following (s.picture_taken r) := by
  have hsame : Following { s with
      writeset := sockset_unhold_all s.writeset
      readset := sockset_unhold_all s.readset
      picture_client_ready := true } := h.transport rfl rfl rfl rfl rfl
  unfold Server.picture_taken dispatch_pictaker
  split
  next nbytes hreport =>
    dsimp only
    split_ifs
    · have hlength : ((List.range nbytes).map r.picture_mem).length = nbytes := by simp
      have hmanaged := managed_new_picture h.managed ((List.range nbytes).map r.picture_mem)
      rw [hlength] at hmanaged
      refine ⟨hmanaged, h.types, h.unnamed, ?_, fun id => (h.wellFormed id).append _, h.fresh⟩
      intro id cinfo hid hregular
      obtain ⟨text, hfollows⟩ := h.follows id cinfo hid hregular
      exact ⟨text, hfollows.append _⟩
    · exact hsame
  next => exact hsame

theorem Following.update {client : Option ClientInfo} {stream : ClientType × List Byte}
    (hlt : id < s.next_client) (hmanaged : Managed t.manager s.pictures)
    (hclients : t.clients = Function.update s.clients id client)
    (hstreams : t.streams = Function.update s.streams id stream)
    (hpictures : t.pictures = s.pictures) (hnext : t.next_client = s.next_client)
    (hclient : ∀ cinfo', client = some cinfo' → cinfo'.client_type ≠ .UNINIT ∧
      stream.1 = cinfo'.client_type ∧
      (regular cinfo' = true → ∃ text, Follows s.pictures cinfo' stream.2 text))
    (hstream : WellFormed s.pictures stream) : Following t := by
  refine ⟨hpictures ▸ hmanaged, ?_, ?_, ?_, ?_, ?_⟩
  · intro id' info hid'
    rw [hclients, Function.update_apply] at hid'
    rw [hstreams, Function.update_apply]
    split_ifs at hid' ⊢ with heq
    · exact (hclient info hid').2.1
    · exact h.types id' info hid'
  · intro id' info hid' htype
    rw [hclients, Function.update_apply] at hid'
    split_ifs at hid' with heq
    · exact absurd htype (hclient info hid').1
    · exact h.unnamed id' info hid' htype
  · intro id' info hid' hregular
    rw [hclients, Function.update_apply] at hid'
    rw [hstreams, Function.update_apply, hpictures]
    split_ifs at hid' ⊢ with heq
    · exact (hclient info hid').2.2 hregular
    · exact h.follows id' info hid' hregular
  · intro id'
    rw [hstreams, Function.update_apply, hpictures]
    split_ifs
    · exact hstream
    · exact h.wellFormed id'
  · intro id' hid'
    rw [hnext] at hid'
    rw [hstreams, Function.update_of_ne (by omega)]
    exact h.fresh id' hid'

include hr

omit h in
theorem lt_next (hid : s.clients id = some cinfo) : id < s.next_client := by
  by_contra hge
  rw [hr.fresh id (not_lt.mp hge)] at hid
  cases hid

theorem Following.new_client {fd : ℕ} (hfd : s.isOpen fd = false) (hlt : fd < FD_SETSIZE) (now : ℤ) :
    Following (s.new_client limits fd now) := by
  obtain ⟨readset, -, -, -, heq⟩ := @hr.new_client_eq _ limits fd hfd hlt now
  rw [heq]
  refine ⟨h.managed, ?_, ?_, ?_, h.wellFormed, fun id hid => h.fresh id (Nat.le_of_succ_le hid)⟩
  · intro id cinfo hid
    simp only [Function.update_apply] at hid
    split_ifs at hid with hnext
    · cases hid
      exact congrArg Prod.fst (h.fresh id hnext.ge)
    · exact h.types id cinfo hid
  · intro id cinfo hid htype
    simp only [Function.update_apply] at hid
    split_ifs at hid with hnext
    · cases hid
      rfl
    · exact h.unnamed id cinfo hid htype
  · intro id cinfo hid hregular
    simp only [Function.update_apply] at hid
    split_ifs at hid with hnext
    · cases hid
      simp [regular, new_cinfo, clientinfo_new] at hregular
    · exact h.follows id cinfo hid hregular

include hs

theorem Following.first_message (hid : s.clients id = some cinfo)
    (htype : cinfo.client_type = .UNINIT) (cmdbuf : List Byte) :
    Following (s.first_message id cinfo cmdbuf) := by
  have hstate := ((hs.settled id cinfo hid).unnamed htype).1
  have hlast := h.unnamed id cinfo hid htype
  have hnamed : identify cmdbuf ≠ .UNINIT := by
    unfold identify
    split_ifs <;> decide
  have hinfo : (identified cinfo (identify cmdbuf)).client_type = identify cmdbuf := by
    unfold identified
    split <;> simp_all
  obtain ⟨hfollows, hwell⟩ :=
    @follows_identified cinfo s.pictures hstate hlast (identify cmdbuf)
  apply h.update (t := s.first_message id cinfo cmdbuf) (lt_next hr hid) h.managed rfl rfl rfl rfl
  · rintro cinfo' ⟨rfl⟩
    exact ⟨by rwa [hinfo], hinfo.symm, hfollows⟩
  · exact hwell

theorem Following.write_socket (hid : s.clients id = some cinfo) (hlisted : id ∈ s.client_sockets)
    (htype : cinfo.client_type ≠ .UNINIT) (r : Returned) :
    Following (s.write_socket host r id cinfo) := by
  have hkeeps := s.write_client_keeps host r cinfo
  have hmanaged : Managed (s.write_client host r cinfo).manager s.pictures := by
    unfold write_client
    split_ifs
    · exact managed_write_regular h.managed _ _
    · exact managed_write_proxy h.managed _ _
  have hwritten : WellFormed s.pictures
        (cinfo.client_type, (s.streams id).2 ++ s.taken host cinfo r.written) ∧
      (regular cinfo = true → (s.write_client host r cinfo).result ≠ .close →
        ∃ text, Follows s.pictures (s.write_client host r cinfo).cinfo
          ((s.streams id).2 ++ s.taken host cinfo r.written) text) := by
    by_cases hregular : regular cinfo = true
    · obtain ⟨text, hfollows⟩ := h.follows id cinfo hid hregular
      rw [write_client, if_pos hregular, taken]
      cases r.written with
      | none =>
        rw [Option.elim_none, List.append_nil]
        exact ⟨hfollows.wellFormed ⟨_, hfollows.left⟩, fun _ _ => ⟨text, hfollows⟩⟩
      | some res =>
        obtain ⟨hpre, hnext⟩ := hfollows.write h.managed
          (hs.held hr.nodup hid hlisted) host s.writeset r.now res
        exact ⟨hfollows.wellFormed hpre, fun _ => hnext⟩
    · refine ⟨?_, fun hreg => absurd hreg hregular⟩
      constructor <;> intro hclient <;> simp_all [regular]
  have hregular : regular (s.write_client host r cinfo).cinfo = regular cinfo := by
    rw [regular, hkeeps.client_type, regular]
  unfold Server.write_socket
  dsimp only
  split_ifs with hdrop
  · exact h.update (t := (s.written host r id cinfo).drop_client id
      (s.write_client host r cinfo).cinfo) (lt_next hr hid) (hmanaged.dest _)
      (Function.update_idem ..) rfl rfl rfl (by simp) hwritten.1
  · apply h.update (t := s.written host r id cinfo) (lt_next hr hid) hmanaged rfl rfl rfl rfl _
      hwritten.1
    rintro cinfo' ⟨rfl⟩
    refine ⟨by rwa [hkeeps.client_type], hkeeps.client_type.symm, fun hreg => ?_⟩
    rw [hregular] at hreg
    apply hwritten.2 hreg
    exact fun hclose => hdrop (.inr ⟨hreg, hclose⟩)

theorem Following.read_socket (hid : s.clients id = some cinfo) (r : Returned) :
    Following (s.read_socket limits r id cinfo) := by
  unfold Server.read_socket
  split_ifs with hlisten hinput hpicture htype
  · cases haccept : s.accept_client r with
    | none => exact h
    | some fd =>
      obtain ⟨hfd, hlt⟩ := accept_client_free haccept
      exact h.new_client hr hfd hlt r.now
  · have hunheld : Following { s with writeset := sockset_unhold_all s.writeset } :=
      h.transport rfl rfl rfl rfl rfl
    exact hunheld.drop_client
  · exact h.picture_taken r
  · exact h.first_message hr hs hid htype _
  · exact h

theorem Following.step (host : Host) (limits : Limits) (r : Returned) :
    Following (s.step host limits r) := by
  have hstepped := hr.stepped host limits r
  generalize s.step host limits r = t at hstepped ⊢
  cases hstepped with
  | stay => exact h
  | goto => exact h.transport rfl rfl rfl rfl rfl
  | select =>
    unfold select
    dsimp only
    split_ifs <;> exact h.transport rfl rfl rfl rfl rfl
  | read id cinfo set_socks hphase hid hread hnot hserving =>
    have hfollowing : Following { s with phase := .reading set_socks } :=
      h.transport rfl rfl rfl rfl rfl
    exact hfollowing.read_socket (hr.goto hserving) (hs.transport rfl rfl rfl) hid r
  | write id cinfo set_socks hphase hid hwrite hread hlisted htype hnot hserving =>
    have hfollowing : Following { s with phase := .writing set_socks } :=
      h.transport rfl rfl rfl rfl rfl
    exact hfollowing.write_socket (hr.goto hserving) (hs.transport rfl rfl rfl) hid hlisted htype r

end Operations

theorem start_clients (fds : Descriptors) (hid : (start fds).clients id = some cinfo) :
    ∃ sock, cinfo = clientinfo_new sock := by
  simp only [start, Function.update_apply] at hid
  split_ifs at hid <;> cases hid <;> exact ⟨_, rfl⟩

theorem shared_start (fds : Descriptors) : Shared (start fds) := by
  refine ⟨counted_start, fun id cinfo hid => ?_⟩
  obtain ⟨sock, rfl⟩ := start_clients fds hid
  exact ⟨fun _ => ⟨rfl, rfl⟩, fun _ _ => rfl⟩

theorem following_start (fds : Descriptors) : Following (start fds) := by
  refine ⟨⟨rfl, by simp [start, manager_start, Manager.entries], by
    simp [start, manager_start, Manager.entries]⟩, ?_, ?_, ?_, ?_, fun _ _ => rfl⟩
  · intro id cinfo hid
    obtain ⟨sock, rfl⟩ := start_clients fds hid
    rfl
  · intro id cinfo hid _
    obtain ⟨sock, rfl⟩ := start_clients fds hid
    rfl
  · intro id cinfo hid hregular
    obtain ⟨sock, rfl⟩ := start_clients fds hid
    simp [regular, clientinfo_new] at hregular
  · intro id
    constructor <;> intro htype <;> cases htype

/-- What browsers get in a state, whether they are there or have gone, and that a client for a
single frame is gone when it has all of its picture. -/
structure StreamsSound (s : Server) : Prop where
  types : ∀ id cinfo, s.clients id = some cinfo → (s.streams id).1 = cinfo.client_type
  wellFormed : ∀ id, WellFormed s.pictures (s.streams id)
  waiting : ∀ id cinfo, s.clients id = some cinfo → cinfo.client_type = .SINGLE →
    Waiting s.pictures cinfo (s.streams id).2

theorem Following.streamsSound (h : Following s) : StreamsSound s := by
  refine ⟨h.types, h.wellFormed, fun id cinfo hid hsingle => ?_⟩
  obtain ⟨text, hfollows⟩ := h.follows id cinfo hid (by simp [regular, hsingle])
  exact hfollows.waiting hsingle

/-- Whatever the sockets do, each browser gets a preamble and whole pictures. -/
theorem browser_streams_sound (host : Host) (limits : Limits) (fds : Descriptors)
    (run : List Returned) : Always (step host limits) StreamsSound (start fds) run := by
  have hall : Always (step host limits) (fun s => Registered s ∧ Shared s ∧ Following s)
      (start fds) run := by
    apply always_of_invariant
    · rintro s r ⟨hr, hs, h⟩
      exact ⟨hr.step host limits r, hs.step hr host limits r, h.step hr hs host limits r⟩
    · exact ⟨registered_start fds, shared_start fds, following_start fds⟩
  exact hall.mono fun s h => h.2.2.streamsSound

end Server

end NaviMisc.Camserv
