import NaviMisc.Camserv.BrowserStreams
import NaviMisc.Camserv.Relay

/-!
The bins of a relay count its clients as long as no client is closed that has a picture.
-/

namespace NaviMisc.Camserv

open NaviMisc.Lib.ByteOrder NaviMisc.Lib.Runs

structure Ordered (m : Manager) : Prop where
  sorted : (m.binList.map Picture_Bin.picture_id).Pairwise (· > ·)
  ids : ∀ bin ∈ m.binList, 0 ≤ bin.picture_id ∧ bin.picture_id < m.current_picture_id
  current : 0 ≤ m.current_picture_id

theorem Counted.ordered {m : Manager} {users : ℤ → ℕ} (h : Counted m users) : Ordered m :=
  ⟨h.sorted, h.ids, h.current⟩

theorem BinsExact.counted {m : Manager} {users : ℤ → ℕ} (h : BinsExact m users)
    (hm : Ordered m) : Counted m users :=
  ⟨h.counts, h.held, hm.sorted, hm.ids, hm.current⟩

structure ClientData.Settled (cldata : ClientData) : Prop where
  unknown : cldata.clienttype = .UNINIT → cldata.browser_data = none
  between : cldata.clienttype = .BROWSER ∨ cldata.clienttype = .SINGLE →
    cldata.browserstate ≠ .SEND_PICTURE → cldata.browser_data = none

section Writes

variable {host : Host} {m m' : Manager} {bin : Picture_Bin} {others : ℤ → ℕ} {cldata : ClientData}

theorem new_client_sharing (h : Counted m others) (hnew : manager_new_client m = some (bin, m')) :
    Counted m' (sharing others (some bin.picture_id)) := by
  rw [sharing_some]
  exact h.new_client hnew

theorem new_client_released (h : Counted m others)
    (hnew : manager_new_client m = some (bin, m')) :
    Counted (manager_dest_client m' bin.picture_id) others :=
  (new_client_sharing h hnew).dest_sharing

theorem write_client_proxy_sharing (h : Counted m (sharing others cldata.proxy_data)) :
    let w := write_client_proxy host m cldata
    Counted w.1 (sharing others w.2.proxy_data) ∧ w.2.clienttype = cldata.clienttype := by
  unfold write_client_proxy
  dsimp only
  split_ifs with hstate
  · have hreleased := h.dest_sharing
    split
    next => exact ⟨by simpa using hreleased, rfl⟩
    next bin m' hnew =>
      split_ifs
      · exact ⟨by simpa using new_client_released hreleased hnew, rfl⟩
      · exact ⟨new_client_sharing hreleased hnew, rfl⟩
  · exact ⟨h, rfl⟩

theorem write_client_regular_sharing (h : Counted m (sharing others cldata.browser_data))
    (hsettled : cldata.browserstate ≠ .SEND_PICTURE → cldata.browser_data = none) :
    let w := write_client_regular m cldata
    Counted w.1 (sharing others w.2.browser_data) ∧ w.2.clienttype = cldata.clienttype ∧
      (w.2.browserstate ≠ .SEND_PICTURE → w.2.browser_data = none) := by
  unfold write_client_regular
  split_ifs with hstate
  · have hpicture : cldata.browserstate ≠ .SEND_PICTURE := by
      rcases hstate with hstate | hstate <;> simp [hstate]
    rw [hsettled hpicture, sharing_none] at h
    split
    next => exact ⟨by simpa using h, rfl, fun _ => rfl⟩
    next bin m' hnew =>
      split_ifs
      · exact ⟨by simpa using new_client_released h hnew, rfl, fun _ => rfl⟩
      · exact ⟨new_client_sharing h hnew, rfl, fun hne => absurd rfl hne⟩
  · exact ⟨by simpa using h.dest_sharing, rfl, fun _ => rfl⟩

theorem write_client_sharing (h : Counted m (sharing others cldata.management_data))
    (hsettled : cldata.Settled) :
    let w := write_client host m cldata
    Counted w.1 (sharing others w.2.management_data) ∧ w.2.Settled := by
  unfold write_client
  split
  next htype => exact ⟨h, hsettled⟩
  next htype =>
    rw [ClientData.management_data, htype] at h
    obtain ⟨hcounted, htype'⟩ := @write_client_proxy_sharing host _ _ _ h
    rw [htype] at htype'
    refine ⟨?_, ?_⟩
    · rw [ClientData.management_data, htype']
      exact hcounted
    · constructor <;> simp [htype']
  next hunknown hproxy =>
    have hregular : cldata.clienttype = .BROWSER ∨ cldata.clienttype = .SINGLE := by
      cases hclient : cldata.clienttype <;> simp_all
    have hdata : ∀ cldata : ClientData, cldata.clienttype = .BROWSER ∨ cldata.clienttype = .SINGLE →
        cldata.management_data = cldata.browser_data := by
      rintro cldata (htype | htype) <;> rw [ClientData.management_data, htype]
    rw [hdata cldata hregular] at h
    obtain ⟨hcounted, htype, hbetween⟩ :=
      write_client_regular_sharing h (hsettled.between hregular)
    refine ⟨?_, ?_, fun _ => hbetween⟩
    · rw [hdata _ (by rwa [htype])]
      exact hcounted
    · intro hunnamed
      rw [htype] at hunnamed
      exact absurd hunnamed hunknown

theorem relay_client_write_sharing (h : Counted m (sharing others cldata.management_data))
    (hsettled : cldata.Settled) (res : ℕ) : ∃ m' cldata',
      relay_client_write host m cldata (some res) = (m', some cldata') ∧
        Counted m' (sharing others cldata'.management_data) ∧ cldata'.Settled := by
  have hadvanced : ({ cldata with writebuf := cldata.writebuf.advance res } : ClientData).Settled :=
    ⟨hsettled.unknown, hsettled.between⟩
  unfold relay_client_write
  by_cases hdone : (cldata.writebuf.advance res).data_p = cldata.writebuf.buffer_size
  · rw [DataBuf.databuf_write_done hdone]
    obtain ⟨hcounted, hsettled'⟩ := @write_client_sharing host m others
      { cldata with writebuf := cldata.writebuf.advance res } h hadvanced
    exact ⟨_, _, rfl, hcounted, hsettled'⟩
  · rw [DataBuf.databuf_write_more hdone]
    exact ⟨_, _, rfl, h, hadvanced⟩

theorem identify_settled (h : cldata.Settled) (htype : cldata.clienttype = .UNINIT)
    (sparebuf : List Byte) : (relay_client_identify cldata sparebuf).Settled ∧
      (relay_client_identify cldata sparebuf).management_data = none := by
  have hdata := h.unknown htype
  have hset : ∀ client_type : ClientType, client_type ≠ .UNINIT →
      (set_client_writebuf { cldata with clienttype := client_type }).Settled ∧
        (set_client_writebuf { cldata with clienttype := client_type }).management_data = none := by
    intro client_type hne
    cases client_type with
    | UNINIT => exact absurd rfl hne
    | PROXY => exact ⟨⟨nofun, by simp [set_client_writebuf]⟩, rfl⟩
    | BROWSER => exact ⟨⟨nofun, fun _ _ => hdata⟩, hdata⟩
    | SINGLE => exact ⟨⟨nofun, fun _ _ => hdata⟩, hdata⟩
  apply hset
  split_ifs <;> decide

end Writes

namespace Relay

variable {r t : Relay} {id : ℕ} {cldata : ClientData}

def users (r : Relay) : ℤ → ℕ := holders r.clients ClientData.management_data r.connected

structure Connected (r : Relay) : Prop where
  ordered : Ordered r.manager
  settled : ∀ id cldata, r.clients id = some cldata → cldata.Settled
  fresh : ∀ id, r.next_client ≤ id → r.clients id = none
  listed : ∀ id, id ∈ r.connected ↔ (r.clients id).isSome = true
  nodup : r.connected.Nodup

/-- No client is closed, at the end of its input or on an error, as long as it has a picture. -/
def Released (r : Relay) : RelayAction → Prop
  | .read id _ closed => ∀ cldata, r.clients id = some cldata → cldata.clienttype ≠ .UNINIT →
    closed = true → cldata.management_data = none
  | .write id none => ∀ cldata, r.clients id = some cldata → cldata.management_data = none
  | _ => True

def Exact (r : Relay) : Prop := BinsExact r.manager r.users

theorem connected_start : Connected start :=
  ⟨counted_start.ordered, by simp [start], by simp [start], by simp [start], by simp [start]⟩

section Operations

variable (h : Connected r)
include h

theorem Connected.set_client (hid : r.clients id = some cldata) {cldata' : ClientData}
    (hsettled : cldata'.Settled) : Connected (r.set_client id cldata') := by
  refine ⟨h.ordered, ?_, ?_, ?_, h.nodup⟩
  · intro id' info hinfo
    simp only [Relay.set_client, Function.update_apply] at hinfo
    split_ifs at hinfo
    · cases hinfo
      exact hsettled
    · exact h.settled id' info hinfo
  · intro id' hge
    have hne : id' ≠ id := by
      rintro rfl
      rw [h.fresh id' hge] at hid
      cases hid
    exact (Function.update_of_ne hne _ _).trans (h.fresh id' hge)
  · intro id'
    simp only [Relay.set_client, Function.update_apply, h.listed]
    split_ifs with heq
    · simp [heq, hid]
    · rfl

theorem Connected.relay_preclose : Connected (r.relay_preclose id) := by
  refine ⟨h.ordered, ?_, ?_, ?_, h.nodup.erase id⟩
  · intro id' info hinfo
    simp only [Relay.relay_preclose, Function.update_apply] at hinfo
    split_ifs at hinfo
    exact h.settled id' info hinfo
  · intro id' hge
    simp only [Relay.relay_preclose, Function.update_apply]
    split_ifs
    · rfl
    · exact h.fresh id' hge
  · intro id'
    simp only [Relay.relay_preclose, Function.update_apply, h.nodup.mem_erase_iff, h.listed]
    split_ifs with heq <;> simp [heq]

theorem Connected.next_not_connected : r.next_client ∉ r.connected := by
  rw [h.listed, h.fresh _ le_rfl]
  simp

theorem Connected.relay_accept (browser_last proxy_last : ℤ) :
    Connected (r.relay_accept browser_last proxy_last) := by
  refine ⟨h.ordered, ?_, ?_, ?_, ?_⟩
  · intro id info hinfo
    simp only [Relay.relay_accept, Function.update_apply] at hinfo
    split_ifs at hinfo
    · cases hinfo
      exact ⟨fun _ => rfl, fun _ _ => rfl⟩
    · exact h.settled id info hinfo
  · intro id hge
    have hlt : r.next_client < id := hge
    exact (Function.update_of_ne hlt.ne' _ _).trans (h.fresh id hlt.le)
  · intro id
    simp only [Relay.relay_accept, Function.update_apply, List.mem_append, List.mem_singleton,
      h.listed]
    split_ifs with heq
    · simp [heq]
    · simp [heq]
  · apply List.nodup_append.mpr
    refine ⟨h.nodup, List.nodup_singleton _, ?_⟩
    rintro id hid _ hnext rfl
    rw [List.mem_singleton] at hnext
    exact h.next_not_connected (hnext ▸ hid)

theorem exact_relay_preclose (hr : Exact r) (hid : r.clients id = some cldata) :
    Exact (r.relay_preclose id) ↔ cldata.management_data = none := by
  have hlisted : id ∈ r.connected := (h.listed id).mpr (by rw [hid]; rfl)
  obtain ⟨others, husers, -, hclosed⟩ :=
    @others_holders _ _ _ _ _ ClientData.management_data h.nodup hlisted hid
  have husers' : (r.relay_preclose id).users = others := hclosed
  have hold : r.users = sharing others cldata.management_data := husers
  constructor
  · intro hexact
    by_contra hne
    obtain ⟨picture, hpicture⟩ := Option.ne_none_iff_exists'.mp hne
    have hused : r.users picture = others picture + 1 := by
      rw [hold, hpicture, sharing, if_pos rfl]
    obtain ⟨bin, hbin, rfl⟩ := hr.held picture (by omega)
    have hbefore := hr.counts bin hbin
    have hafter := hexact.counts bin hbin
    rw [husers'] at hafter
    rw [hused] at hbefore
    omega
  · intro hnone
    rw [hnone, sharing_none] at hold
    rw [Exact, husers', ← hold]
    exact hr

theorem set_client_exact {manager : Manager} {others : ℤ → ℕ} (hid : r.clients id = some cldata)
    {cldata' : ClientData} (hothers : ∀ cldata', (r.set_client id cldata').users =
      sharing others cldata'.management_data)
    (hcounted : Counted manager (sharing others cldata'.management_data))
    (hsettled : cldata'.Settled) :
    Connected ({ r with manager := manager }.set_client id cldata') ∧
      Exact ({ r with manager := manager }.set_client id cldata') := by
  have hconnected := h.set_client hid hsettled
  refine ⟨⟨hcounted.ordered, hconnected.settled, hconnected.fresh, hconnected.listed,
    hconnected.nodup⟩, ?_⟩
  have husers := hothers cldata'
  have hsame : ({ r with manager := manager }.set_client id cldata').users =
      (r.set_client id cldata').users := rfl
  rw [Exact, hsame, husers]
  exact hcounted.exact

variable (hr : Exact r)
include hr

theorem others_of_client (hid : r.clients id = some cldata) : ∃ others,
    Counted r.manager (sharing others cldata.management_data) ∧
      ∀ cldata', (r.set_client id cldata').users = sharing others cldata'.management_data := by
  have hlisted : id ∈ r.connected := (h.listed id).mpr (by rw [hid]; rfl)
  obtain ⟨others, husers, hupdated, -⟩ :=
    @others_holders _ _ _ _ _ ClientData.management_data h.nodup hlisted hid
  have hcounted := hr.counted h.ordered
  rw [users, husers] at hcounted
  exact ⟨others, hcounted, hupdated⟩

theorem read_client_exact (hid : r.clients id = some cldata) (sparebuf : List Byte) (closed : Bool) :
    Connected (r.read_client id cldata sparebuf closed) ∧
      (Exact (r.read_client id cldata sparebuf closed) ↔ Released r (.read id sparebuf closed)) := by
  have hreleased : Released r (.read id sparebuf closed) ↔
      (cldata.clienttype ≠ .UNINIT → closed = true → cldata.management_data = none) := by
    simp [Released, hid]
  rw [hreleased]
  unfold read_client
  split_ifs with htype hclosed
  · obtain ⟨others, hcounted, hothers⟩ := others_of_client h hr hid
    obtain ⟨hsettled, hdata⟩ := identify_settled (h.settled id cldata hid) htype sparebuf
    rw [ClientData.management_data, htype] at hcounted
    obtain ⟨hconnected, hexact⟩ := set_client_exact h hid hothers (hdata ▸ hcounted) hsettled
    exact ⟨hconnected, iff_of_true hexact fun hne => absurd htype hne⟩
  · refine ⟨h.relay_preclose, (exact_relay_preclose h hr hid).trans ?_⟩
    simp [htype, hclosed]
  · exact ⟨h, iff_of_true hr fun _ htrue => absurd htrue hclosed⟩

theorem write_socket_exact (host : Host) (hid : r.clients id = some cldata) (written : Option ℕ) :
    Connected (r.write_socket host id cldata written) ∧
      (Exact (r.write_socket host id cldata written) ↔ Released r (.write id written)) := by
  unfold write_socket
  cases written with
  | none =>
    have hreleased : Released r (.write id none) ↔ cldata.management_data = none := by
      simp [Released, hid]
    rw [hreleased]
    exact ⟨h.relay_preclose, exact_relay_preclose h hr hid⟩
  | some res =>
    obtain ⟨others, hcounted, hothers⟩ := others_of_client h hr hid
    obtain ⟨m', cldata', heq, hcounted', hsettled'⟩ := @relay_client_write_sharing host _ _ _
      hcounted (h.settled id cldata hid) res
    rw [heq]
    obtain ⟨hconnected, hexact⟩ := set_client_exact h hid hothers hcounted' hsettled'
    exact ⟨hconnected, iff_of_true hexact trivial⟩

theorem relay_accept_exact (browser_last proxy_last : ℤ) :
    Exact (r.relay_accept browser_last proxy_last) := by
  have husers : (r.relay_accept browser_last proxy_last).users = r.users :=
    holders_append h.next_not_connected rfl
  rw [Exact, husers]
  exact hr

theorem relay_camera_read_exact (host : Host) (cam : CamData) (bytes : List Byte) :
    Connected (r.relay_camera_read host cam bytes) ∧ Exact (r.relay_camera_read host cam bytes) := by
  have hfoldl : ∀ (l : List (List Byte × ℕ)) (m : Manager), Counted m r.users →
      Counted (l.foldl (fun m p => manager_new_picture m p.1 p.2) m) r.users := by
    intro l
    induction l with
    | nil => exact fun m hm => hm
    | cons p l ih => exact fun m hm => ih _ (hm.new_picture p.1 p.2)
  unfold relay_camera_read
  dsimp only
  split_ifs
  · exact ⟨⟨h.ordered, h.settled, h.fresh, h.listed, h.nodup⟩, hr⟩
  · have hcounted := fun l => hfoldl l r.manager (hr.counted h.ordered)
    exact ⟨⟨(hcounted _).ordered, h.settled, h.fresh, h.listed, h.nodup⟩, (hcounted _).exact⟩

theorem step_exact (host : Host) (a : RelayAction) :
    Connected (r.step host a) ∧ (Exact (r.step host a) ↔ Released r a) := by
  have hsame : ∀ camera, Connected { r with camera := camera } ∧
      Exact { r with camera := camera } :=
    fun camera => ⟨⟨h.ordered, h.settled, h.fresh, h.listed, h.nodup⟩, hr⟩
  unfold step
  cases a <;> dsimp only
  case connect =>
    split_ifs
    · exact ⟨(hsame _).1, iff_of_true (hsame _).2 trivial⟩
    · exact ⟨h, iff_of_true hr trivial⟩
  case write_camera => exact ⟨(hsame _).1, iff_of_true (hsame _).2 trivial⟩
  case read_camera bytes =>
    cases hcamera : r.camera with
    | none => exact ⟨h, iff_of_true hr trivial⟩
    | some cam =>
      obtain ⟨hconnected, hexact⟩ := relay_camera_read_exact h hr host cam bytes
      exact ⟨hconnected, iff_of_true hexact trivial⟩
  case accept browser_last proxy_last =>
    exact ⟨h.relay_accept _ _, iff_of_true (relay_accept_exact h hr _ _) trivial⟩
  case read id sparebuf closed =>
    cases hid : r.clients id with
    | none => exact ⟨h, iff_of_true hr (by simp [Released, hid])⟩
    | some cldata => exact read_client_exact h hr hid sparebuf closed
  case write id written =>
    cases hid : r.clients id with
    | none =>
      refine ⟨h, iff_of_true hr ?_⟩
      cases written <;> simp [Released, hid]
    | some cldata => exact write_socket_exact h hr host hid written

end Operations

end Relay

/-- The bins of camserv are exact in every run, and those of a relay exactly as long as it closes no
client with a picture. -/
theorem bins_exact_iff (host : Host) (limits : Limits) (fds : Descriptors) :
    (∀ run, Always (Server.step host limits) (fun s => BinsExact s.manager s.users)
      (Server.start fds) run) ∧
    ∀ run, Always (Relay.step host) Relay.Exact Relay.start run ↔
      Meets (Relay.step host) Relay.Released Relay.start run := by
  constructor
  · intro run
    have hall : Always (Server.step host limits) (fun s => s.Registered ∧ s.Shared)
        (Server.start fds) run := by
      apply always_of_invariant
      · rintro s r ⟨hr, hs⟩
        exact ⟨hr.step host limits r, hs.step hr host limits r⟩
      · exact ⟨Server.registered_start fds, Server.shared_start fds⟩
    exact hall.mono fun s h => h.2.counted.exact
  · intro run
    refine always_iff_meets_of (A := fun _ _ => True) ?_ ?_ Relay.connected_start
      counted_start.exact (Meets.of_forall (fun _ _ => trivial) _ run)
    · exact fun r a h hr _ => (Relay.step_exact h hr host a).1
    · exact fun r a h hr _ => (Relay.step_exact h hr host a).2

def proxy_broken : List RelayAction :=
  [.connect, .write_camera, .read_camera [0, 0, 0, 1], .read_camera [7], .accept (-1) (-1),
    .read 0 (ascii "PROXY") false, .write 0 (some 0), .write 0 none]

/-- The bin still counts the client that has gone. -/
theorem proxy_broken_counted : ¬Always (Relay.step ⟨.little, 4, .inl rfl⟩) Relay.Exact Relay.start
    proxy_broken := by
  intro h
  have hcounts := h.last.counts
  revert hcounts
  decide

end NaviMisc.Camserv
