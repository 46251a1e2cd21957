import NaviMisc.Camserv.MainLoop

/-!
The sets of main_loop have the sockets of the clients that are there, each of them once.
-/

namespace NaviMisc.Camserv

open NaviMisc.Lib.ByteOrder NaviMisc.Lib.Runs

structure Written.Keeps (w : Written) (cinfo : ClientInfo) (writeset : SockSet) : Prop where
  socket : w.cinfo.socket = cinfo.socket
  client_type : w.cinfo.client_type = cinfo.client_type
  writeset : w.writeset = writeset ∨
    w.writeset = sockset_hold writeset cinfo.socket ∧ w.result = .ok

section Keeps

variable {m m' : Manager} {cinfo cinfo' : ClientInfo} {bin : Option Picture_Bin}
  {writeset : SockSet}

theorem new_picture_keeps (h : new_picture m cinfo = (bin, m', cinfo')) :
    cinfo'.socket = cinfo.socket ∧ cinfo'.client_type = cinfo.client_type := by
  unfold new_picture at h
  split at h
  next =>
    cases h
    exact ⟨rfl, rfl⟩
  next => split_ifs at h <;> cases h <;> exact ⟨rfl, rfl⟩

theorem next_proxy_picture_keeps (host : Host) :
    (next_proxy_picture host m cinfo writeset).Keeps cinfo writeset := by
  unfold next_proxy_picture
  split
  next hnew =>
    obtain ⟨hsock, htype⟩ := new_picture_keeps hnew
    exact ⟨hsock, htype, .inr ⟨by rw [hsock], rfl⟩⟩
  next hnew => exact ⟨(new_picture_keeps hnew).1, (new_picture_keeps hnew).2, .inl rfl⟩

theorem next_regular_picture_keeps : (next_regular_picture m cinfo writeset).Keeps cinfo writeset := by
  unfold next_regular_picture
  split
  next hnew =>
    obtain ⟨hsock, htype⟩ := new_picture_keeps hnew
    exact ⟨hsock, htype, .inr ⟨by rw [hsock], rfl⟩⟩
  next hnew => exact ⟨(new_picture_keeps hnew).1, (new_picture_keeps hnew).2, .inl rfl⟩

theorem finish_regular_picture_keeps (now : ℤ) :
    (finish_regular_picture m cinfo writeset now).Keeps cinfo writeset := by
  unfold finish_regular_picture
  dsimp only
  split_ifs <;> exact ⟨rfl, rfl, .inl rfl⟩

theorem Written.Keeps.of_writebuf {w : Written} {writebuf : DataBuf}
    (h : w.Keeps { cinfo with writebuf := writebuf } writeset) : w.Keeps cinfo writeset :=
  ⟨h.socket, h.client_type, h.writeset⟩

theorem write_proxy_client_keeps (host : Host) (written : Option ℕ) :
    (write_proxy_client host m cinfo writeset written).Keeps cinfo writeset := by
  unfold write_proxy_client
  dsimp only
  split
  next => exact ⟨rfl, rfl, .inl rfl⟩
  next => exact ⟨rfl, rfl, .inl rfl⟩
  next =>
    split_ifs
    · exact ⟨rfl, rfl, .inl rfl⟩
    · exact (next_proxy_picture_keeps host).of_writebuf

theorem write_regular_client_keeps (now : ℤ) (written : Option ℕ) :
    (write_regular_client m cinfo writeset now written).Keeps cinfo writeset := by
  unfold write_regular_client
  dsimp only
  split
  next => exact ⟨rfl, rfl, .inl rfl⟩
  next => exact ⟨rfl, rfl, .inl rfl⟩
  next =>
    split_ifs
    · exact next_regular_picture_keeps.of_writebuf
    · exact (finish_regular_picture_keeps now).of_writebuf

end Keeps

namespace Server

variable {s : Server}

theorem write_client_keeps (s : Server) (host : Host) (r : Returned) (cinfo : ClientInfo) :
    (s.write_client host r cinfo).Keeps cinfo s.writeset := by
  unfold write_client
  split_ifs
  · exact write_regular_client_keeps _ _
  · exact write_proxy_client_keeps _ _

theorem accept_client_free {r : Returned} {fd : ℕ} (h : s.accept_client r = some fd) :
    s.isOpen fd = false ∧ fd < FD_SETSIZE := by
  have hfilter := Option.filter_eq_some_iff.mp h
  simp only [decide_eq_true_eq, Bool.not_eq_true] at hfilter
  exact ⟨hfilter.2.2, hfilter.2.1⟩

theorem picture_taken_eq (s : Server) (r : Returned) :
    ∃ manager pictures, s.picture_taken r = { s with
      readset := sockset_unhold_all s.readset
      writeset := sockset_unhold_all s.writeset
      picture_client_ready := true
      manager := manager
      pictures := pictures } := by
  unfold picture_taken dispatch_pictaker
  split
  next =>
    dsimp only
    split_ifs <;> exact ⟨_, _, rfl⟩
  next => exact ⟨_, _, rfl⟩

def Has (s : Server) (p : ClientInfo → Prop) (sock : Socket) : Prop :=
  ∃ cinfo, s.clients sock.owner = some cinfo ∧ cinfo.socket = sock ∧ p cinfo

def Serving (s : Server) : Phase → Prop
  | .idle => True
  | .reading set_socks => set_socks.Nodup ∧ ∀ id ∈ set_socks, ∃ cinfo, s.clients id = some cinfo ∧
    cinfo.socket ∈ s.readset.managed_sockets
  | .writing set_socks => set_socks.Nodup ∧ ∀ id ∈ set_socks, ∃ cinfo, s.clients id = some cinfo ∧
    cinfo.socket ∈ s.writeset.managed_sockets

structure Registered (s : Server) : Prop where
  readset : s.readset.Consistent
  writeset : s.writeset.Consistent
  readers : ∀ sock, sock ∈ s.readset.sockets ↔ s.Has (fun _ => True) sock
  writers : ∀ sock, sock ∈ s.writeset.sockets ↔ s.Has (·.client_type ≠ .UNINIT) sock
  waiting : ∀ sock ∈ s.readset.held_sockets, s.Has (·.client_type = .UNINIT) sock
  owner : ∀ id cinfo, s.clients id = some cinfo → cinfo.socket.owner = id
  fresh : ∀ id, s.next_client ≤ id → s.clients id = none
  first : 2 ≤ s.next_client
  listed : ∀ id, id ∈ s.client_sockets ↔
    (s.clients id).isSome = true ∧ id ≠ listen_socket ∧ id ≠ picture_sock
  nodup : s.client_sockets.Nodup
  unnamed : ∀ id cinfo, id = listen_socket ∨ id = picture_sock → s.clients id = some cinfo →
    cinfo.client_type = .UNINIT
  serving : s.Serving s.phase

namespace Registered

variable {host : Host} {limits : Limits} {id : ℕ} {cinfo : ClientInfo} (h : Registered s)
include h

theorem mem_readset (hid : s.clients id = some cinfo) : cinfo.socket ∈ s.readset.sockets :=
  (h.readers _).mpr ⟨cinfo, by rwa [h.owner id cinfo hid], rfl, trivial⟩

theorem mem_writeset (hid : s.clients id = some cinfo) (htype : cinfo.client_type ≠ .UNINIT) :
    cinfo.socket ∈ s.writeset.sockets :=
  (h.writers _).mpr ⟨cinfo, by rwa [h.owner id cinfo hid], rfl, htype⟩

theorem socket_inj {sock sock' : Socket} (hsock : sock ∈ s.readset.sockets)
    (hsock' : sock' ∈ s.readset.sockets) (howner : sock.owner = sock'.owner) : sock = sock' := by
  obtain ⟨cinfo, hid, rfl, -⟩ := (h.readers sock).mp hsock
  obtain ⟨cinfo', hid', rfl, -⟩ := (h.readers sock').mp hsock'
  rw [howner, hid'] at hid
  cases hid
  rfl

theorem goto {phase : Phase} (hserving : s.Serving phase) : Registered { s with phase := phase } :=
  ⟨h.readset, h.writeset, h.readers, h.writers, h.waiting, h.owner, h.fresh, h.first, h.listed,
    h.nodup, h.unnamed, hserving⟩

theorem serving_query {sset : SockSet}
    (hsset : sset.Consistent) (hsub : ∀ sock ∈ sset.sockets, sock ∈ s.readset.sockets) :
    (sockset_query_socks sset).Nodup ∧ ∀ id ∈ sockset_query_socks sset,
      ∃ cinfo, s.clients id = some cinfo ∧ cinfo.socket ∈ sset.managed_sockets := by
  have hsublist := hsset.query_socks_sublist
  have hmanaged : ∀ sock ∈ sset.managed_sockets, sock ∈ s.readset.sockets :=
    fun sock hsock => hsub sock (List.mem_append_left _ hsock)
  constructor
  · apply hsublist.nodup
    apply List.Nodup.map_on _ (hsset.nodup_managed.of_map _)
    intro sock hsock sock' hsock' howner
    exact h.socket_inj (hmanaged sock hsock) (hmanaged sock' hsock') howner
  · intro id hid
    obtain ⟨sock, hsock, rfl⟩ := List.mem_map.mp (hsublist.subset hid)
    obtain ⟨cinfo, hid, rfl, -⟩ := (h.readers sock).mp (hmanaged sock hsock)
    exact ⟨cinfo, hid, hsock⟩

theorem not_writer (hid : s.clients id = some cinfo) (htype : cinfo.client_type = .UNINIT) :
    cinfo.socket.fd ∉ s.writeset.sockets.map Socket.fd := by
  intro hmem
  obtain ⟨sock, hsock, hfd⟩ := List.mem_map.mp hmem
  obtain ⟨cinfo', hid', rfl, htype'⟩ := (h.writers sock).mp hsock
  have hread := h.mem_readset (h.owner id cinfo hid ▸ hid)
  have hread' := (h.readers _).mpr ⟨cinfo', hid', rfl, trivial⟩
  have heq := List.inj_on_of_nodup_map h.readset.nodup hread' hread hfd
  rw [heq, h.owner id cinfo hid, hid] at hid'
  cases hid'
  exact htype' htype

theorem drop_client (hid : s.clients id = some cinfo)
    (hread : cinfo.socket ∈ s.readset.managed_sockets)
    (hwrite : cinfo.socket ∉ s.writeset.held_sockets)
    (hserving : (s.drop_client id cinfo).Serving s.phase) :
    Registered (s.drop_client id cinfo) := by
  have howner := h.owner id cinfo hid
  have hhas : ∀ p sock, (s.drop_client id cinfo).Has p sock ↔ sock ≠ cinfo.socket ∧ s.Has p sock := by
    intro p sock
    simp only [Has, Server.drop_client, Function.update_apply]
    constructor
    · rintro ⟨cinfo', hid', hsock, hp⟩
      split_ifs at hid' with heq
      refine ⟨?_, cinfo', hid', hsock, hp⟩
      rintro rfl
      exact heq howner
    · rintro ⟨hne, cinfo', hid', rfl, hp⟩
      refine ⟨cinfo', ?_, rfl, hp⟩
      rw [if_neg, hid']
      intro heq
      rw [heq, hid] at hid'
      cases hid'
      exact hne rfl
  have hwriters : (sockset_del_fd s.writeset cinfo.socket).Consistent ∧
      ∀ sock, sock ∈ (sockset_del_fd s.writeset cinfo.socket).sockets ↔
        sock ≠ cinfo.socket ∧ sock ∈ s.writeset.sockets := by
    by_cases htype : cinfo.client_type = .UNINIT
    · have hfd := h.not_writer hid htype
      have hmanaged : cinfo.socket.fd ∉ s.writeset.managed_sockets.map Socket.fd :=
        fun hmem => hfd ((List.sublist_append_left _ _).map _ |>.subset hmem)
      rw [h.writeset.del_fd_of_not_mem hmanaged]
      refine ⟨h.writeset, fun sock => (and_iff_right_of_imp ?_).symm⟩
      rintro hsock rfl
      exact hfd (List.mem_map_of_mem hsock)
    · have hmem := (List.mem_append.mp (h.mem_writeset hid htype)).resolve_right hwrite
      exact ⟨(h.writeset.del_fd hmem).1, h.writeset.mem_del_fd hmem⟩
  obtain ⟨hreadset, -, hheld⟩ := h.readset.del_fd hread
  refine ⟨hreadset, hwriters.1, ?_, ?_, ?_, ?_, ?_, h.first, ?_, h.nodup.erase _, ?_, hserving⟩
  · intro sock
    rw [hhas, ← h.readers, ← h.readset.mem_del_fd hread]
    rfl
  · intro sock
    rw [hhas, ← h.writers, ← hwriters.2]
    rfl
  · intro sock hsock
    have hsock : sock ∈ s.readset.held_sockets := hheld ▸ hsock
    refine (hhas _ _).mpr ⟨?_, h.waiting sock hsock⟩
    rintro rfl
    have hnodup := h.readset.nodup_sockets
    rw [SockSet.sockets, List.nodup_append] at hnodup
    exact hnodup.2.2 _ hread _ hsock rfl
  · intro id' cinfo' hid'
    simp only [Server.drop_client, Function.update_apply] at hid'
    split_ifs at hid'
    exact h.owner id' cinfo' hid'
  · intro id' hid'
    simp only [Server.drop_client, Function.update_apply]
    split_ifs
    · rfl
    · exact h.fresh id' hid'
  · intro id'
    simp only [Server.drop_client, Function.update_apply, h.nodup.mem_erase_iff, h.listed]
    split_ifs with heq <;> simp [heq]
  · intro id' cinfo' hid' hclient
    simp only [Server.drop_client, Function.update_apply] at hclient
    split_ifs at hclient
    exact h.unnamed id' cinfo' hid' hclient

theorem unhold_all (hread : SockSet) (hreadset : hread = s.readset ∨
      hread = sockset_unhold_all s.readset)
    (hserving : Server.Serving { s with
      readset := hread
      writeset := sockset_unhold_all s.writeset } s.phase) :
    Registered { s with readset := hread, writeset := sockset_unhold_all s.writeset } := by
  have hreaders : hread.Consistent ∧ hread.sockets = s.readset.sockets ∧
      ∀ sock ∈ hread.held_sockets, sock ∈ s.readset.held_sockets := by
    rcases hreadset with rfl | rfl
    · exact ⟨h.readset, rfl, fun _ => id⟩
    · obtain ⟨hconsistent, -, hheld⟩ := h.readset.unhold_all
      exact ⟨hconsistent, h.readset.sockets_unhold_all, by simp [hheld]⟩
  refine ⟨hreaders.1, h.writeset.unhold_all.1, ?_, ?_, ?_, h.owner, h.fresh, h.first, h.listed,
    h.nodup, h.unnamed, hserving⟩
  · intro sock
    rw [hreaders.2.1]
    exact h.readers sock
  · intro sock
    rw [h.writeset.sockets_unhold_all]
    exact h.writers sock
  · exact fun sock hsock => h.waiting sock (hreaders.2.2 sock hsock)

theorem free {fd : ℕ} (hfd : s.isOpen fd = false) : fd ∉ s.readset.sockets.map Socket.fd := by
  intro hmem
  obtain ⟨sock, hsock, rfl⟩ := List.mem_map.mp hmem
  obtain ⟨cinfo, hid, rfl, -⟩ := (h.readers sock).mp hsock
  have hlt : cinfo.socket.owner < s.next_client := by
    by_contra hge
    rw [h.fresh _ (not_lt.mp hge)] at hid
    cases hid
  rw [isOpen, List.any_eq_false] at hfd
  apply hfd _ (List.mem_range.mpr hlt)
  simp [hid]

theorem new_client_eq {fd : ℕ} (hfd : s.isOpen fd = false) (hlt : fd < FD_SETSIZE) (now : ℤ) :
    ∃ readset : SockSet, readset.Consistent ∧
      readset.managed_sockets = s.readset.managed_sockets ∧
      readset.held_sockets = s.readset.held_sockets ++ [⟨s.next_client, fd⟩] ∧
      s.new_client limits fd now = { s.request with
        readset := readset
        clients := Function.update s.clients s.next_client
          (some (new_cinfo limits ⟨s.next_client, fd⟩ now))
        next_client := s.next_client + 1
        client_sockets := s.client_sockets ++ [s.next_client]
        num_clients := s.num_clients + 1 } := by
  obtain ⟨sset, hadd, hsset, hmanaged, hheld⟩ :=
    @SockSet.Consistent.add_fd _ ⟨s.next_client, fd⟩ h.readset (h.free hfd) hlt
  have hsock : ⟨s.next_client, fd⟩ ∈ sset.managed_sockets := by simp [hmanaged]
  obtain ⟨hconsistent, hmanaged', hheld'⟩ := hsset.hold hsock
  refine ⟨_, hconsistent, ?_, by rw [hheld', hheld], ?_⟩
  · have hnot : ⟨s.next_client, fd⟩ ∉ s.readset.managed_sockets := by
      intro hmem
      exact h.free hfd (List.mem_map.mpr ⟨_, List.mem_append_left _ hmem, rfl⟩)
    rw [hmanaged', hmanaged, List.erase_append_right _ hnot, List.erase_cons_head, List.append_nil]
  · dsimp only at hadd
    simp only [Server.new_client, hadd]

theorem new_client {fd : ℕ} (hfd : s.isOpen fd = false) (hlt : fd < FD_SETSIZE) (now : ℤ)
    (hserving : (s.new_client limits fd now).Serving s.phase) :
    Registered (s.new_client limits fd now) := by
  obtain ⟨readset, hreadset, hmanaged, hheld, heq⟩ := @h.new_client_eq _ limits fd hfd hlt now
  rw [heq] at hserving ⊢
  have hhas : ∀ p sock, Server.Has { s.request with
        readset := readset
        clients := Function.update s.clients s.next_client
          (some (new_cinfo limits ⟨s.next_client, fd⟩ now))
        next_client := s.next_client + 1
        client_sockets := s.client_sockets ++ [s.next_client]
        num_clients := s.num_clients + 1 } p sock ↔
      s.Has p sock ∨ sock = ⟨s.next_client, fd⟩ ∧ p (new_cinfo limits sock now) := by
    intro p sock
    simp only [Has, Function.update_apply]
    constructor
    · rintro ⟨cinfo, hid, hsock, hp⟩
      split_ifs at hid with hnext
      · cases hid
        cases hsock
        exact .inr ⟨rfl, hp⟩
      · exact .inl ⟨cinfo, hid, hsock, hp⟩
    · rintro (⟨cinfo, hid, hsock, hp⟩ | ⟨rfl, hp⟩)
      · refine ⟨cinfo, ?_, hsock, hp⟩
        rw [if_neg, hid]
        intro hnext
        rw [h.fresh _ hnext.ge] at hid
        cases hid
      · exact ⟨_, if_pos rfl, rfl, hp⟩
  have hfirst := h.first
  refine ⟨hreadset, h.writeset, ?_, ?_, ?_, ?_, ?_, hfirst.trans (Nat.le_succ _), ?_, ?_, ?_,
    hserving⟩
  · intro sock
    have hmem : sock ∈ readset.sockets ↔ sock ∈ s.readset.sockets ∨ sock = ⟨s.next_client, fd⟩ := by
      rw [SockSet.sockets, hmanaged, hheld, ← List.append_assoc, List.mem_append,
        List.mem_singleton]
      rfl
    rw [hhas, hmem, h.readers, and_true]
  · intro sock
    rw [hhas]
    exact (h.writers sock).trans (by simp [new_cinfo, clientinfo_new])
  · intro sock hsock
    simp only [hheld, List.mem_append, List.mem_singleton] at hsock
    rw [hhas]
    exact hsock.imp (h.waiting sock) fun heq => ⟨heq, rfl⟩
  · intro id cinfo hid
    simp only [Function.update_apply] at hid
    split_ifs at hid with hnext
    · cases hid
      exact hnext.symm
    · exact h.owner id cinfo hid
  · intro id hid
    have hnext : s.next_client < id := hid
    simp only [Function.update_apply]
    rw [if_neg hnext.ne']
    exact h.fresh id hnext.le
  · intro id
    simp only [List.mem_append, List.mem_singleton, h.listed, Function.update_apply]
    split_ifs with hnext
    · simp only [hnext, listen_socket, picture_sock]
      simp
      omega
    · simp [hnext]
  · apply List.nodup_append.mpr
    refine ⟨h.nodup, List.nodup_singleton _, ?_⟩
    rintro id hid _ hnext rfl
    rw [List.mem_singleton] at hnext
    have hsome := ((h.listed id).mp hid).1
    rw [h.fresh id hnext.ge] at hsome
    cases hsome
  · intro id cinfo hid hclient
    simp only [Function.update_apply] at hclient
    split_ifs at hclient with hnext
    · cases hclient
      rfl
    · exact h.unnamed id cinfo hid hclient

theorem close_client (hid : s.clients id = some cinfo)
    (hread : cinfo.socket ∈ s.readset.managed_sockets)
    (hserving : (s.close_client id cinfo).Serving s.phase) :
    Registered (s.close_client id cinfo) := by
  have hidle : Registered { s with phase := .idle, writeset := sockset_unhold_all s.writeset } :=
    (@goto _ h .idle trivial).unhold_all s.readset (.inl rfl) trivial
  have hclosed := hidle.drop_client hid hread
    (by simp [h.writeset.unhold_all.2.2]) trivial
  exact hclosed.goto hserving

theorem picture_taken (r : Returned) (hserving : (s.picture_taken r).Serving s.phase) :
    Registered (s.picture_taken r) := by
  obtain ⟨manager, pictures, heq⟩ := s.picture_taken_eq r
  rw [heq] at hserving ⊢
  have hidle := (@goto _ h .idle trivial).unhold_all (sockset_unhold_all s.readset)
    (.inr rfl) trivial
  exact ⟨hidle.readset, hidle.writeset, hidle.readers, hidle.writers, hidle.waiting, hidle.owner,
    hidle.fresh, hidle.first, hidle.listed, hidle.nodup, hidle.unnamed, hserving⟩

theorem has_update {p : ClientInfo → Prop} {cinfo' : ClientInfo} (hid : s.clients id = some cinfo)
    (hsock : cinfo'.socket = cinfo.socket) (sock : Socket) :
    Server.Has { s with clients := Function.update s.clients id (some cinfo') } p sock ↔
      sock = cinfo.socket ∧ p cinfo' ∨ sock ≠ cinfo.socket ∧ s.Has p sock := by
  have howner := h.owner id cinfo hid
  simp only [Has, Function.update_apply]
  constructor
  · rintro ⟨info, hclient, rfl, hp⟩
    split_ifs at hclient with heq
    · cases hclient
      exact .inl ⟨hsock, hp⟩
    · refine .inr ⟨?_, info, hclient, rfl, hp⟩
      intro hsock
      exact heq (hsock ▸ howner)
  · rintro (⟨rfl, hp⟩ | ⟨hne, info, hclient, rfl, hp⟩)
    · exact ⟨cinfo', if_pos howner, hsock, hp⟩
    · refine ⟨info, ?_, rfl, hp⟩
      rw [if_neg, hclient]
      intro heq
      rw [heq, hid] at hclient
      cases hclient
      exact hne rfl

theorem update_client (t : Server) {cinfo' : ClientInfo} (hid : s.clients id = some cinfo)
    (hsock : cinfo'.socket = cinfo.socket) (hread : cinfo.socket ∈ s.readset.managed_sockets)
    (hlisted : id ∈ s.client_sockets) (hreadset : t.readset = s.readset)
    (hclients : t.clients = Function.update s.clients id (some cinfo'))
    (hnext : t.next_client = s.next_client) (hsockets : t.client_sockets = s.client_sockets)
    (hwriteset : t.writeset.Consistent)
    (hwriters : ∀ sock, sock ∈ t.writeset.sockets ↔
      sock = cinfo.socket ∧ cinfo'.client_type ≠ .UNINIT ∨
        sock ≠ cinfo.socket ∧ sock ∈ s.writeset.sockets)
    (hserving : t.Serving t.phase) : Registered t := by
  have hhas : ∀ p sock, t.Has p sock ↔
      sock = cinfo.socket ∧ p cinfo' ∨ sock ≠ cinfo.socket ∧ s.Has p sock := by
    intro p sock
    rw [← h.has_update hid hsock, Has, hclients]
    rfl
  refine ⟨hreadset ▸ h.readset, hwriteset, ?_, ?_, ?_, ?_, ?_, hnext ▸ h.first, ?_,
    hsockets ▸ h.nodup, ?_, hserving⟩
  · intro sock
    rw [hhas, hreadset, ← h.readers]
    by_cases heq : sock = cinfo.socket
    · simp [heq, h.mem_readset hid]
    · simp [heq]
  · intro sock
    rw [hhas, hwriters, ← h.writers]
  · intro sock hheld
    rw [hreadset] at hheld
    refine (hhas _ _).mpr (.inr ⟨?_, h.waiting sock hheld⟩)
    rintro rfl
    have hnodup := h.readset.nodup_sockets
    rw [SockSet.sockets, List.nodup_append] at hnodup
    exact hnodup.2.2 _ hread _ hheld rfl
  · intro id' info hclient
    rw [hclients, Function.update_apply] at hclient
    split_ifs at hclient with heq
    · cases hclient
      rw [hsock, h.owner id cinfo hid, heq]
    · exact h.owner id' info hclient
  · intro id' hge
    rw [hnext] at hge
    have hne : id' ≠ id := by
      rintro rfl
      rw [h.fresh _ hge] at hid
      cases hid
    rw [hclients, Function.update_of_ne hne]
    exact h.fresh id' hge
  · intro id'
    rw [hsockets, h.listed, hclients, Function.update_apply]
    split_ifs with heq
    · simp [heq, hid]
    · rfl
  · intro id' info hid' hclient
    have hne : id' ≠ id := by
      rintro rfl
      have hnames := ((h.listed id').mp hlisted).2
      exact hid'.elim hnames.1 hnames.2
    rw [hclients, Function.update_of_ne hne] at hclient
    exact h.unnamed id' info hid' hclient

theorem first_message (hid : s.clients id = some cinfo) (hlisted : id ∈ s.client_sockets)
    (hread : cinfo.socket ∈ s.readset.managed_sockets) (htype : cinfo.client_type = .UNINIT)
    (cmdbuf : List Byte) (hserving : (s.first_message id cinfo cmdbuf).Serving s.phase) :
    Registered (s.first_message id cinfo cmdbuf) := by
  have hnamed : identify cmdbuf ≠ .UNINIT := by
    unfold identify
    split_ifs <;> decide
  have hinfo : (identified cinfo (identify cmdbuf)).socket = cinfo.socket ∧
      (identified cinfo (identify cmdbuf)).client_type = identify cmdbuf := by
    unfold identified
    split <;> simp_all
  obtain ⟨writeset, hadd, hconsistent, hmanaged, hheld⟩ := h.writeset.add_fd
    (h.not_writer hid htype) (h.readset.lt _ (h.mem_readset hid))
  have hwriteset : (s.first_message id cinfo cmdbuf).writeset = writeset := by
    rw [h.owner id cinfo hid] at hadd
    simp only [Server.first_message, hinfo.1, hadd, Option.getD_some]
  apply h.update_client (s.first_message id cinfo cmdbuf) hid hinfo.1 hread hlisted rfl rfl rfl rfl
  · rwa [hwriteset]
  · intro sock
    have hnot : cinfo.socket ∉ s.writeset.sockets :=
      fun hmem => h.not_writer hid htype (List.mem_map_of_mem hmem)
    rw [hwriteset, hinfo.2]
    have hmem : sock ∈ writeset.sockets ↔ sock = cinfo.socket ∨ sock ∈ s.writeset.sockets := by
      simp only [SockSet.sockets, hmanaged, hheld, List.mem_append, List.mem_singleton]
      tauto
    rw [hmem]
    by_cases heq : sock = cinfo.socket
    · simp [heq, hnamed]
    · simp [heq]
  · exact hserving

theorem write_socket (hid : s.clients id = some cinfo) (hread : cinfo.socket ∈ s.readset.managed_sockets)
    (hlisted : id ∈ s.client_sockets) (htype : cinfo.client_type ≠ .UNINIT)
    (hwrite : cinfo.socket ∈ s.writeset.managed_sockets) (r : Returned)
    (hserving : (s.write_socket host r id cinfo).Serving s.phase) :
    Registered (s.write_socket host r id cinfo) := by
  obtain ⟨hsock, htype', hwriteset⟩ := s.write_client_keeps host r cinfo
  have hsset : (s.write_client host r cinfo).writeset.Consistent ∧
      ∀ sock, sock ∈ (s.write_client host r cinfo).writeset.sockets ↔ sock ∈ s.writeset.sockets := by
    rcases hwriteset with heq | ⟨heq, -⟩
    · rw [heq]
      exact ⟨h.writeset, fun _ => Iff.rfl⟩
    · rw [heq]
      exact ⟨(h.writeset.hold hwrite).1, h.writeset.mem_hold hwrite⟩
  have hwritten : Registered { s.written host r id cinfo with phase := .idle } := by
    refine h.update_client _ hid hsock hread hlisted rfl rfl rfl rfl hsset.1 ?_ trivial
    intro sock
    refine (hsset.2 sock).trans ?_
    rw [htype']
    by_cases heq : sock = cinfo.socket
    · simp [heq, htype, h.mem_writeset hid]
    · simp [heq]
  unfold Server.write_socket at hserving ⊢
  dsimp only at hserving ⊢
  split_ifs at hserving ⊢ with hdrop
  · have hheld : cinfo.socket ∉ (s.write_client host r cinfo).writeset.held_sockets := by
      have hnot : (s.write_client host r cinfo).writeset = s.writeset := by
        refine hwriteset.resolve_right ?_
        rintro ⟨-, hok⟩
        simp [hok] at hdrop
      rw [hnot]
      intro hheld
      have hnodup := h.writeset.nodup_sockets
      rw [SockSet.sockets, List.nodup_append] at hnodup
      exact hnodup.2.2 _ hwrite _ hheld rfl
    have hdropped := hwritten.drop_client (Function.update_self ..) (hsock ▸ hread)
      (hsock ▸ hheld) trivial
    exact hdropped.goto hserving
  · exact hwritten.goto hserving

theorem mem_listed (hid : s.clients id = some cinfo) (hlisten : id ≠ listen_socket)
    (hpicture : id ≠ picture_sock) : id ∈ s.client_sockets :=
  (h.listed id).mpr ⟨by rw [hid]; rfl, hlisten, hpicture⟩

theorem erased {id' : ℕ} {cinfo' : ClientInfo} {sockets : List Socket} (hid : s.clients id = some cinfo)
    (hid' : s.clients id' = some cinfo') (hne : id' ≠ id) (hmem : cinfo'.socket ∈ sockets) :
    cinfo'.socket ∈ sockets.erase cinfo.socket := by
  refine (List.mem_erase_of_ne ?_).mpr hmem
  intro heq
  apply hne
  rw [← h.owner id' cinfo' hid', heq, h.owner id cinfo hid]

theorem read_socket {set_socks : List ℕ} (hphase : s.phase = .reading set_socks)
    (hid : s.clients id = some cinfo) (hread : cinfo.socket ∈ s.readset.managed_sockets)
    (hnot : id ∉ set_socks) (r : Returned) : Registered (s.read_socket limits r id cinfo) := by
  obtain ⟨hnodup, hservable⟩ : s.Serving (.reading set_socks) := hphase ▸ h.serving
  unfold Server.read_socket
  split_ifs with hlisten hinput hpicture htype
  · cases haccept : s.accept_client r with
    | none => exact h
    | some fd =>
      obtain ⟨hfd, hlt⟩ := accept_client_free haccept
      apply h.new_client hfd hlt
      obtain ⟨readset, -, hmanaged, -, heq⟩ := @h.new_client_eq _ limits fd hfd hlt r.now
      rw [heq, hphase]
      refine ⟨hnodup, fun id' hid' => ?_⟩
      obtain ⟨cinfo', hclient, hsock⟩ := hservable id' hid'
      refine ⟨cinfo', (Function.update_of_ne ?_ _ _).trans hclient, by rwa [hmanaged]⟩
      intro hnext
      rw [h.fresh id' hnext.ge] at hclient
      cases hclient
  · apply h.close_client hid hread
    rw [hphase]
    refine ⟨hnodup, fun id' hid' => ?_⟩
    obtain ⟨cinfo', hclient, hsock⟩ := hservable id' hid'
    have hne := ne_of_mem_of_not_mem hid' hnot
    refine ⟨cinfo', (Function.update_of_ne hne _ _).trans hclient, ?_⟩
    exact (h.readset.del_fd hread).2.1 ▸ h.erased hid hclient hne hsock
  · apply h.picture_taken
    obtain ⟨manager, pictures, heq⟩ := s.picture_taken_eq r
    rw [heq, hphase]
    refine ⟨hnodup, fun id' hid' => ?_⟩
    obtain ⟨cinfo', hclient, hsock⟩ := hservable id' hid'
    refine ⟨cinfo', hclient, ?_⟩
    rw [h.readset.unhold_all.2.1]
    exact List.mem_append_left _ hsock
  · have hlisted := h.mem_listed hid hlisten hpicture
    apply h.first_message hid hlisted hread htype
    rw [Server.first_message, hphase]
    refine ⟨hnodup, fun id' hid' => ?_⟩
    obtain ⟨cinfo', hclient, hsock⟩ := hservable id' hid'
    have hne := ne_of_mem_of_not_mem hid' hnot
    exact ⟨cinfo', (Function.update_of_ne hne _ _).trans hclient, hsock⟩
  · exact h

theorem write_socket_serving {set_socks : List ℕ} (hid : s.clients id = some cinfo)
    (hwrite : cinfo.socket ∈ s.writeset.managed_sockets) (hnot : id ∉ set_socks)
    (hserving : s.Serving (.writing set_socks)) (r : Returned) :
    (s.write_socket host r id cinfo).Serving (.writing set_socks) := by
  obtain ⟨hnodup, hservable⟩ := hserving
  obtain ⟨hsock, -, hwriteset⟩ := s.write_client_keeps host r cinfo
  refine ⟨hnodup, fun id' hid' => ?_⟩
  obtain ⟨cinfo', hclient, hmem⟩ := hservable id' hid'
  have hne := ne_of_mem_of_not_mem hid' hnot
  have herased := h.erased hid hclient hne hmem
  unfold Server.write_socket
  dsimp only
  split_ifs with hdrop
  · have hsame : (s.write_client host r cinfo).writeset = s.writeset := by
      refine hwriteset.resolve_right ?_
      rintro ⟨-, hok⟩
      simp [hok] at hdrop
    refine ⟨cinfo', ?_, ?_⟩
    · simp only [Server.drop_client, Server.written, Function.update_of_ne hne, hclient]
    · simp only [Server.drop_client, Server.written, hsame, hsock,
        (h.writeset.del_fd hwrite).2.1, herased]
  · refine ⟨cinfo', (Function.update_of_ne hne _ _).trans hclient, ?_⟩
    rw [Server.written]
    rcases hwriteset with heq | ⟨heq, -⟩
    · rw [heq]
      exact hmem
    · rw [heq, (h.writeset.hold hwrite).2.1]
      exact herased

end Registered

inductive Stepped (host : Host) (limits : Limits) (r : Returned) (s : Server) : Server → Prop
  | stay : Stepped host limits r s s
  | goto (phase : Phase) : s.Serving phase → Stepped host limits r s { s with phase := phase }
  | select : (s.clients picture_sock).isSome = true → Stepped host limits r s (s.select r)
  | read (id : ℕ) (cinfo : ClientInfo) (set_socks : List ℕ) : s.phase = .reading (id :: set_socks) →
      s.clients id = some cinfo → cinfo.socket ∈ s.readset.managed_sockets → id ∉ set_socks →
      s.Serving (.reading set_socks) →
      Stepped host limits r s
        ({ s with phase := .reading set_socks }.read_socket limits r id cinfo)
  | write (id : ℕ) (cinfo : ClientInfo) (set_socks : List ℕ) : s.phase = .writing (id :: set_socks) →
      s.clients id = some cinfo → cinfo.socket ∈ s.writeset.managed_sockets →
      cinfo.socket ∈ s.readset.managed_sockets → id ∈ s.client_sockets →
      cinfo.client_type ≠ .UNINIT → id ∉ set_socks → s.Serving (.writing set_socks) →
      Stepped host limits r s
        ({ s with phase := .writing set_socks }.write_socket host r id cinfo)

theorem Registered.stepped (h : Registered s) (host : Host) (limits : Limits) (r : Returned) :
    Stepped host limits r s (s.step host limits r) := by
  have hserving := h.serving
  unfold Server.step
  split
  next =>
    split_ifs with hpicture
    · exact .stay
    · exact .select (by simpa [Option.isSome_iff_ne_none] using hpicture)
  next =>
    apply Stepped.goto
    apply h.serving_query h.writeset
    intro sock hsock
    obtain ⟨cinfo, hid, hsock, -⟩ := (h.writers sock).mp hsock
    exact (h.readers sock).mpr ⟨cinfo, hid, hsock, trivial⟩
  next id set_socks hphase =>
    rw [hphase] at hserving
    obtain ⟨hnodup, hservable⟩ := hserving
    rw [List.nodup_cons] at hnodup
    rw [List.forall_mem_cons] at hservable
    obtain ⟨⟨cinfo, hid, hread⟩, hservable⟩ := hservable
    dsimp only
    rw [hid]
    exact .read id cinfo set_socks hphase hid hread hnodup.1 ⟨hnodup.2, hservable⟩
  next => exact .goto .idle trivial
  next id set_socks hphase =>
    rw [hphase] at hserving
    obtain ⟨hnodup, hservable⟩ := hserving
    rw [List.nodup_cons] at hnodup
    rw [List.forall_mem_cons] at hservable
    obtain ⟨⟨cinfo, hid, hwrite⟩, hservable⟩ := hservable
    have htype : cinfo.client_type ≠ .UNINIT := by
      obtain ⟨info, hinfo, -, htype⟩ := (h.writers _).mp (List.mem_append_left _ hwrite)
      rw [h.owner id cinfo hid, hid] at hinfo
      cases hinfo
      exact htype
    have hread : cinfo.socket ∈ s.readset.managed_sockets := by
      refine (List.mem_append.mp (h.mem_readset hid)).resolve_right fun hheld => ?_
      obtain ⟨info, hinfo, -, hunnamed⟩ := h.waiting _ hheld
      rw [h.owner id cinfo hid, hid] at hinfo
      cases hinfo
      exact htype hunnamed
    have hlisted : id ∈ s.client_sockets := by
      apply h.mem_listed hid
      · exact fun heq => htype (h.unnamed id cinfo (.inl heq) hid)
      · exact fun heq => htype (h.unnamed id cinfo (.inr heq) hid)
    dsimp only
    rw [hid]
    exact .write id cinfo set_socks hphase hid hwrite hread hlisted htype hnodup.1
      ⟨hnodup.2, hservable⟩

theorem Registered.select (h : Registered s) (r : Returned) : Registered (s.select r) := by
  have hquery := h.serving_query (h.readset.select r.readable) fun _ => id
  unfold Server.select
  dsimp only
  split_ifs <;>
  exact ⟨h.readset.select _, h.writeset.select _, h.readers, h.writers, h.waiting, h.owner, h.fresh,
    h.first, h.listed, h.nodup, h.unnamed, hquery⟩

theorem Registered.step (h : Registered s) (host : Host) (limits : Limits) (r : Returned) :
    Registered (s.step host limits r) := by
  have hstepped := h.stepped host limits r
  generalize s.step host limits r = t at hstepped ⊢
  cases hstepped with
  | stay => exact h
  | goto phase hserving => exact h.goto hserving
  | select => exact h.select r
  | read id cinfo set_socks hphase hid hread hnot hserving =>
    exact (h.goto hserving).read_socket rfl hid hread hnot r
  | write id cinfo set_socks hphase hid hwrite hread hlisted htype hnot hserving =>
    exact (h.goto hserving).write_socket hid hread hlisted htype hwrite r
      ((h.goto hserving).write_socket_serving hid hwrite hnot hserving r)

theorem registered_start (fds : Descriptors) : Registered (start fds) := by
  obtain ⟨first, hfirst, hfirstset, hmanaged, hheld⟩ :=
    @SockSet.Consistent.add_fd _ ⟨listen_socket, fds.listen⟩ SockSet.consistent_new
      (by simp [SockSet.sockets, sockset_new]) fds.listen_lt
  obtain ⟨readset, hadd, hreadset, hmanaged', hheld'⟩ :=
    @SockSet.Consistent.add_fd _ ⟨picture_sock, fds.picture⟩ hfirstset
      (by simp [SockSet.sockets, sockset_new, hmanaged, hheld, fds.ne.symm]) fds.picture_lt
  have hstart : (start fds).readset = readset := by
    dsimp only at hfirst hadd
    simp only [start, hfirst, hadd, Option.bind_some, Option.getD_some]
  have hsockets : (start fds).readset.sockets =
      [⟨listen_socket, fds.listen⟩, ⟨picture_sock, fds.picture⟩] := by
    simp [hstart, SockSet.sockets, sockset_new, hmanaged, hheld, hmanaged', hheld']
  have hclients : ∀ id cinfo, (start fds).clients id = some cinfo ↔
      id = listen_socket ∧ cinfo = clientinfo_new ⟨listen_socket, fds.listen⟩ ∨
        id = picture_sock ∧ cinfo = clientinfo_new ⟨picture_sock, fds.picture⟩ := by
    intro id cinfo
    simp only [start, Function.update_apply, listen_socket, picture_sock]
    split_ifs with hpicture hlisten
    · simp [hpicture, eq_comm]
    · simp [hlisten, eq_comm]
    · simp [hpicture, hlisten]
  refine ⟨hstart ▸ hreadset, SockSet.consistent_new, ?_, ?_, ?_, ?_, ?_, le_rfl, ?_,
    List.nodup_nil, ?_, trivial⟩
  · intro sock
    simp only [hsockets, Has, hclients, List.mem_cons, List.not_mem_nil, or_false]
    constructor
    · rintro (rfl | rfl)
      · exact ⟨_, .inl ⟨rfl, rfl⟩, rfl, trivial⟩
      · exact ⟨_, .inr ⟨rfl, rfl⟩, rfl, trivial⟩
    · rintro ⟨cinfo, ⟨-, rfl⟩ | ⟨-, rfl⟩, rfl, -⟩
      · exact .inl rfl
      · exact .inr rfl
  · intro sock
    simp only [Has, hclients]
    constructor
    · rintro hsock
      cases hsock
    · rintro ⟨cinfo, ⟨-, rfl⟩ | ⟨-, rfl⟩, -, htype⟩
      · exact absurd rfl htype
      · exact absurd rfl htype
  · intro sock hsock
    rw [hstart, hheld', hheld] at hsock
    cases hsock
  · intro id cinfo hid
    rcases (hclients id cinfo).mp hid with ⟨rfl, rfl⟩ | ⟨rfl, rfl⟩ <;> rfl
  · intro id hid
    rw [← Option.not_isSome_iff_eq_none, Option.isSome_iff_exists]
    rintro ⟨cinfo, hclient⟩
    have hge : 2 ≤ id := hid
    rcases (hclients id cinfo).mp hclient with ⟨rfl, -⟩ | ⟨rfl, -⟩
    · exact absurd hge (by decide)
    · exact absurd hge (by decide)
  · intro id
    constructor
    · intro hid
      cases hid
    · rintro ⟨hsome, hlisten, hpicture⟩
      obtain ⟨cinfo, hclient⟩ := Option.isSome_iff_exists.mp hsome
      rcases (hclients id cinfo).mp hclient with ⟨rfl, -⟩ | ⟨rfl, -⟩
      · exact absurd rfl hlisten
      · exact absurd rfl hpicture
  · intro id cinfo _ hid
    rcases (hclients id cinfo).mp hid with ⟨-, rfl⟩ | ⟨-, rfl⟩ <;> rfl

/-- The sets have live clients only. The read set has each of them once, preserved or held, and the
write set has the ones that have identified themselves. -/
structure SetsSound (s : Server) : Prop where
  readset : s.readset.Consistent
  writeset : s.writeset.Consistent
  alive : ∀ sock ∈ s.readset.sockets ++ s.writeset.sockets, s.Has (fun _ => True) sock
  readers : ∀ id, (s.clients id).isSome = true →
    (s.readset.managed_cldatas ++ s.readset.held_cldatas).count id = 1
  writers : ∀ id cinfo, s.clients id = some cinfo →
    (s.writeset.managed_cldatas ++ s.writeset.held_cldatas).count id =
      if cinfo.client_type = .UNINIT then 0 else 1

theorem Registered.count {sset : SockSet} (h : Registered s) (hsset : sset.Consistent)
    (hsub : ∀ sock ∈ sset.sockets, sock ∈ s.readset.sockets) (id : ℕ) :
    (sset.managed_cldatas ++ sset.held_cldatas).count id =
      if ∃ sock ∈ sset.sockets, sock.owner = id then 1 else 0 := by
  have hcldatas : sset.managed_cldatas ++ sset.held_cldatas = sset.sockets.map Socket.owner := by
    rw [hsset.cldatas, hsset.held, ← List.map_append]
    rfl
  have hnodup : (sset.sockets.map Socket.owner).Nodup := by
    apply List.Nodup.map_on _ hsset.nodup_sockets
    intro sock hsock sock' hsock' howner
    exact h.socket_inj (hsub sock hsock) (hsub sock' hsock') howner
  rw [hcldatas, hnodup.count]
  exact if_congr List.mem_map rfl rfl

theorem Registered.setsSound (h : Registered s) : SetsSound s := by
  have hsub : ∀ sock ∈ s.writeset.sockets, sock ∈ s.readset.sockets := by
    intro sock hsock
    obtain ⟨cinfo, hid, hsock, -⟩ := (h.writers sock).mp hsock
    exact (h.readers sock).mpr ⟨cinfo, hid, hsock, trivial⟩
  refine ⟨h.readset, h.writeset, ?_, ?_, ?_⟩
  · intro sock hsock
    exact (h.readers sock).mp ((List.mem_append.mp hsock).elim (fun hread => hread) (hsub sock))
  · intro id hsome
    obtain ⟨cinfo, hid⟩ := Option.isSome_iff_exists.mp hsome
    rw [h.count h.readset fun _ hsock => hsock, if_pos]
    exact ⟨cinfo.socket, h.mem_readset hid, h.owner id cinfo hid⟩
  · intro id cinfo hid
    rw [h.count h.writeset hsub]
    split_ifs with hmem htype htype
    · obtain ⟨sock, hsock, rfl⟩ := hmem
      obtain ⟨info, hinfo, -, hnamed⟩ := (h.writers sock).mp hsock
      rw [hid] at hinfo
      cases hinfo
      exact absurd htype hnamed
    · rfl
    · rfl
    · exact absurd ⟨cinfo.socket, h.mem_writeset hid htype, h.owner id cinfo hid⟩ hmem

/-- Every iteration of every run leaves sets without dead clients. -/
theorem client_sets_sound (host : Host) (limits : Limits) (fds : Descriptors) (run : List Returned) :
    Always (step host limits) SetsSound (start fds) run := by
  have hregistered : Always (step host limits) Registered (start fds) run :=
    always_of_invariant (fun _ r h => h.step host limits r) (registered_start fds) run
  exact hregistered.mono fun _ => Registered.setsSound

end Server

end NaviMisc.Camserv
