import NaviMisc.Camserv.ClientCounts

/-!
The bins count the clients of main_loop that have their pictures.
-/

namespace NaviMisc.Camserv

open NaviMisc.Lib.ByteOrder NaviMisc.Lib.Runs

structure ClientInfo.Settled (cinfo : ClientInfo) : Prop where
  unnamed : cinfo.client_type = .UNINIT → cinfo.state = .PREAMBLE ∧ cinfo.management_data = none
  between : cinfo.client_type ≠ .PROXY → cinfo.state ≠ .PICTURE → cinfo.management_data = none

section Writes

variable {host : Host} {m : Manager} {others : ℤ → ℕ} {cinfo : ClientInfo} {writeset : SockSet}

theorem next_proxy_picture_sharing (h : Counted m others) :
    let w := next_proxy_picture host m cinfo writeset
    Counted w.manager (sharing others w.cinfo.management_data) := by
  unfold next_proxy_picture
  split
  next hnew => exact new_picture_sharing h hnew
  next hnew =>
    have hcounted := new_picture_sharing h hnew
    exact hcounted

theorem write_proxy_client_sharing (h : Counted m (sharing others cinfo.management_data))
    (written : Option ℕ) :
    let w := write_proxy_client host m cinfo writeset written
    Counted w.manager (sharing others w.cinfo.management_data) := by
  unfold write_proxy_client
  dsimp only
  split
  next => exact h
  next => exact h
  next =>
    split_ifs
    · exact h
    · exact next_proxy_picture_sharing h.dest_sharing

theorem next_regular_picture_sharing (h : Counted m others) :
    let w := next_regular_picture m cinfo writeset
    Counted w.manager (sharing others w.cinfo.management_data) := by
  unfold next_regular_picture
  split
  next hnew => exact new_picture_sharing h hnew
  next hnew =>
    have hcounted := new_picture_sharing h hnew
    exact hcounted

theorem finish_regular_picture_sharing (h : Counted m (sharing others cinfo.management_data))
    (now : ℤ) :
    let w := finish_regular_picture m cinfo writeset now
    Counted w.manager (sharing others w.cinfo.management_data) := by
  have hdest := h.dest_sharing
  unfold finish_regular_picture
  dsimp only
  split_ifs
  · simpa using hdest
  · simpa using hdest

theorem write_regular_client_sharing (h : Counted m (sharing others cinfo.management_data))
    (hsettled : cinfo.state ≠ .PICTURE → cinfo.management_data = none) (now : ℤ)
    (written : Option ℕ) :
    let w := write_regular_client m cinfo writeset now written
    Counted w.manager (sharing others w.cinfo.management_data) := by
  unfold write_regular_client
  dsimp only
  split
  next => exact h
  next => exact h
  next =>
    split_ifs with hstate
    · apply next_regular_picture_sharing
      have hpicture : cinfo.state ≠ .PICTURE := by
        rcases hstate with hstate | hstate <;> simp [hstate]
      rwa [hsettled hpicture, sharing_none] at h
    · have hcounted := @finish_regular_picture_sharing _ _
        { cinfo with writebuf := (databuf_write cinfo.writebuf written).1 } writeset h now
      exact hcounted

end Writes

section Settled

variable {host : Host} {m m' : Manager} {cinfo cinfo' : ClientInfo} {writeset : SockSet}
  {found : Option Picture_Bin}

theorem new_picture_state (h : new_picture m cinfo = (found, m', cinfo')) :
    cinfo'.state = cinfo.state ∧ (found = none → cinfo'.management_data = none) := by
  unfold new_picture at h
  split at h
  next =>
    cases h
    exact ⟨rfl, fun _ => rfl⟩
  next =>
    split_ifs at h
    · cases h
      exact ⟨rfl, fun _ => rfl⟩
    · cases h
      exact ⟨rfl, nofun⟩

theorem write_regular_client_between (h : cinfo.state ≠ .PICTURE → cinfo.management_data = none)
    (now : ℤ) (written : Option ℕ) :
    let w := write_regular_client m cinfo writeset now written
    w.cinfo.state ≠ .PICTURE → w.cinfo.management_data = none := by
  unfold write_regular_client
  dsimp only
  split
  next => exact h
  next => exact h
  next =>
    split_ifs with hstate
    · unfold next_regular_picture
      split
      next hnew => exact fun _ => (new_picture_state hnew).2 rfl
      next => exact fun hpicture => absurd rfl hpicture
    · unfold finish_regular_picture
      dsimp only
      split_ifs <;> exact fun _ => rfl

end Settled

namespace Server

variable {s t : Server} {id : ℕ} {cinfo cinfo' : ClientInfo}

def users (s : Server) : ℤ → ℕ := holders s.clients ClientInfo.management_data s.client_sockets

theorem write_client_settled (h : cinfo.Settled) (htype : cinfo.client_type ≠ .UNINIT) (host : Host)
    (r : Returned) : (s.write_client host r cinfo).cinfo.Settled := by
  have htype' := (s.write_client_keeps host r cinfo).client_type
  refine ⟨fun hunnamed => absurd (htype' ▸ hunnamed) htype, fun hproxy => ?_⟩
  rw [htype'] at hproxy
  have hregular : regular cinfo = true := by
    cases hclient : cinfo.client_type <;> simp_all [regular]
  rw [write_client, if_pos hregular]
  exact write_regular_client_between (h.between hproxy) _ _

theorem write_client_sharing {others : ℤ → ℕ} (h : cinfo.Settled)
    (hcounted : Counted s.manager (sharing others cinfo.management_data)) (host : Host)
    (r : Returned) :
    let w := s.write_client host r cinfo
    Counted w.manager (sharing others w.cinfo.management_data) := by
  unfold write_client
  dsimp only
  split_ifs with hregular
  · apply write_regular_client_sharing hcounted
    apply h.between
    intro hproxy
    simp [regular, hproxy] at hregular
  · exact write_proxy_client_sharing hcounted _

structure Shared (s : Server) : Prop where
  counted : Counted s.manager s.users
  settled : ∀ id cinfo, s.clients id = some cinfo → cinfo.Settled

theorem others_users (hnodup : s.client_sockets.Nodup) (hlisted : id ∈ s.client_sockets)
    (hid : s.clients id = some cinfo) : ∃ others,
      s.users = sharing others cinfo.management_data ∧
      (∀ t : Server, ∀ cinfo', t.clients = Function.update s.clients id (some cinfo') →
        t.client_sockets = s.client_sockets → t.users = sharing others cinfo'.management_data) ∧
      ∀ t : Server, t.clients = Function.update s.clients id none →
        t.client_sockets = s.client_sockets.erase id → t.users = others := by
  obtain ⟨others, husers, hupdated, hdropped⟩ :=
    @others_holders _ _ _ _ _ ClientInfo.management_data hnodup hlisted hid
  refine ⟨others, husers, fun t cinfo' hclients hsockets => ?_, fun t hclients hsockets => ?_⟩
  · rw [users, hclients, hsockets]
    exact hupdated cinfo'
  · rw [users, hclients, hsockets]
    exact hdropped

theorem Shared.transport (h : Shared s) (hclients : t.clients = s.clients)
    (hsockets : t.client_sockets = s.client_sockets) (hmanager : t.manager = s.manager) :
    Shared t := by
  have husers : t.users = s.users := by
    rw [users, users, hclients, hsockets]
  exact ⟨husers ▸ hmanager ▸ h.counted, hclients ▸ h.settled⟩

theorem settled_update {client : Option ClientInfo}
    (h : ∀ id cinfo, s.clients id = some cinfo → cinfo.Settled)
    (hclient : ∀ cinfo, client = some cinfo → cinfo.Settled) (id' : ℕ) (cinfo : ClientInfo)
    (hid' : Function.update s.clients id client id' = some cinfo) : cinfo.Settled := by
  rw [Function.update_apply] at hid'
  split_ifs at hid' with heq
  · exact hclient cinfo hid'
  · exact h id' cinfo hid'

theorem settled_new (limits : Limits) (sock : Socket) (now : ℤ) :
    (new_cinfo limits sock now).Settled := ⟨fun _ => ⟨rfl, rfl⟩, fun _ _ => rfl⟩

theorem settled_identified (h : cinfo.Settled) (htype : cinfo.client_type = .UNINIT)
    {client_type : ClientType} (hnamed : client_type ≠ .UNINIT) :
    (identified cinfo client_type).Settled ∧
      (identified cinfo client_type).management_data = none := by
  obtain ⟨hstate, hdata⟩ := h.unnamed htype
  refine ⟨⟨?_, fun _ _ => ?_⟩, ?_⟩ <;> cases client_type <;> simp_all [identified]

section Operations

variable {host : Host} {limits : Limits} (hr : Registered s) (h : Shared s)
include h

theorem Shared.drop_client (hnodup : s.client_sockets.Nodup) (hid : s.clients id = some cinfo)
    (hlisted : id ∈ s.client_sockets) : Shared (s.drop_client id cinfo) := by
  obtain ⟨others, husers, -, hothers⟩ := others_users hnodup hlisted hid
  have hcounted := h.counted
  rw [husers] at hcounted
  refine ⟨?_, fun id' cinfo' => settled_update h.settled (by simp) id' cinfo'⟩
  rw [hothers (s.drop_client id cinfo) rfl rfl]
  exact hcounted.dest_sharing

theorem Shared.drop_unlisted (hid : s.clients id = some cinfo) (hlisted : id ∉ s.client_sockets)
    (htype : cinfo.client_type = .UNINIT) : Shared (s.drop_client id cinfo) := by
  have hdata := ((h.settled id cinfo hid).unnamed htype).2
  have husers : (s.drop_client id cinfo).users = s.users := by
    funext picture
    simp only [users, holders, Server.drop_client, List.erase_of_not_mem hlisted]
    exact countP_update_of_not_mem hlisted none _
  refine ⟨?_, fun id' cinfo' => settled_update h.settled (by simp) id' cinfo'⟩
  rw [husers, Server.drop_client, hdata]
  exact h.counted

theorem Shared.picture_taken (r : Returned) : Shared (s.picture_taken r) := by
  unfold Server.picture_taken dispatch_pictaker
  split
  next =>
    dsimp only
    split_ifs
    · exact ⟨h.counted.new_picture _ _, h.settled⟩
    · exact h.transport rfl rfl rfl
  next => exact h.transport rfl rfl rfl

include hr

theorem Shared.new_client {fd : ℕ} (hfd : s.isOpen fd = false) (hlt : fd < FD_SETSIZE) (now : ℤ) :
    Shared (s.new_client limits fd now) := by
  obtain ⟨readset, -, -, -, heq⟩ := @hr.new_client_eq _ limits fd hfd hlt now
  rw [heq]
  refine ⟨?_, fun id cinfo => settled_update h.settled ?_ id cinfo⟩
  · have husers : ∀ t : Server, t.clients = Function.update s.clients s.next_client
        (some (new_cinfo limits ⟨s.next_client, fd⟩ now)) →
        t.client_sockets = s.client_sockets ++ [s.next_client] → t.users = s.users := by
      intro t hclients hsockets
      rw [users, hclients, hsockets, holders_append hr.next_not_listed rfl, users]
    rw [husers _ rfl rfl]
    exact h.counted
  · rintro cinfo ⟨rfl⟩
    exact settled_new limits _ now

theorem Shared.first_message (hid : s.clients id = some cinfo) (hlisted : id ∈ s.client_sockets)
    (htype : cinfo.client_type = .UNINIT) (cmdbuf : List Byte) :
    Shared (s.first_message id cinfo cmdbuf) := by
  have hold := h.settled id cinfo hid
  have hnamed : identify cmdbuf ≠ .UNINIT := by
    unfold identify
    split_ifs <;> decide
  obtain ⟨hsettled, hdata⟩ := settled_identified hold htype hnamed
  obtain ⟨others, husers, hothers, -⟩ := others_users hr.nodup hlisted hid
  refine ⟨?_, fun id' cinfo' => settled_update h.settled ?_ id' cinfo'⟩
  · rw [hothers (s.first_message id cinfo cmdbuf) _ rfl rfl, hdata, ← (hold.unnamed htype).2,
      ← husers]
    exact h.counted
  · rintro cinfo' ⟨rfl⟩
    exact hsettled

theorem Shared.write_socket (hid : s.clients id = some cinfo) (hlisted : id ∈ s.client_sockets)
    (htype : cinfo.client_type ≠ .UNINIT) (r : Returned) :
    Shared (s.write_socket host r id cinfo) := by
  have hold := h.settled id cinfo hid
  obtain ⟨others, husers, hothers, -⟩ := others_users hr.nodup hlisted hid
  have hcounted := h.counted
  rw [husers] at hcounted
  have hwritten : Shared (s.written host r id cinfo) := by
    refine ⟨?_, fun id' cinfo' => settled_update h.settled ?_ id' cinfo'⟩
    · rw [hothers (s.written host r id cinfo) _ rfl rfl]
      exact write_client_sharing hold hcounted host r
    · rintro cinfo' ⟨rfl⟩
      exact write_client_settled hold htype host r
  unfold Server.write_socket
  dsimp only
  split_ifs
  · exact hwritten.drop_client hr.nodup (Function.update_self ..) hlisted
  · exact hwritten

theorem Shared.read_socket (hid : s.clients id = some cinfo) (r : Returned) :
    Shared (s.read_socket limits r id cinfo) := by
  unfold Server.read_socket
  split_ifs with hlisten hinput hpicture htype
  · cases haccept : s.accept_client r with
    | none => exact h
    | some fd =>
      obtain ⟨hfd, hlt⟩ := accept_client_free haccept
      exact h.new_client hr hfd hlt r.now
  · have hunheld : Shared { s with writeset := sockset_unhold_all s.writeset } :=
      h.transport rfl rfl rfl
    by_cases hpicture : id = picture_sock
    · apply hunheld.drop_unlisted hid _ (hr.unnamed id cinfo (.inr hpicture) hid)
      rw [hr.listed]
      exact fun hmem => hmem.2.2 hpicture
    · exact hunheld.drop_client hr.nodup hid (hr.mem_listed hid hlisten hpicture)
  · exact h.picture_taken r
  · exact h.first_message hr hid (hr.mem_listed hid hlisten hpicture) htype _
  · exact h

theorem Shared.step (host : Host) (limits : Limits) (r : Returned) :
    Shared (s.step host limits r) := by
  have hstepped := hr.stepped host limits r
  generalize s.step host limits r = t at hstepped ⊢
  cases hstepped with
  | stay => exact h
  | goto => exact h.transport rfl rfl rfl
  | select =>
    unfold select
    dsimp only
    split_ifs <;> exact h.transport rfl rfl rfl
  | read id cinfo set_socks hphase hid hread hnot hserving =>
    have hshared : Shared { s with phase := .reading set_socks } := h.transport rfl rfl rfl
    exact hshared.read_socket (hr.goto hserving) hid r
  | write id cinfo set_socks hphase hid hwrite hread hlisted htype hnot hserving =>
    have hshared : Shared { s with phase := .writing set_socks } := h.transport rfl rfl rfl
    exact hshared.write_socket (hr.goto hserving) hid hlisted htype r

end Operations

end Server

end NaviMisc.Camserv
