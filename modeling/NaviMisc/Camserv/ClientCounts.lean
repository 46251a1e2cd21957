import NaviMisc.Camserv.Bins
import NaviMisc.Camserv.ClientSets

/-!
How many clients main_loop has, and how many of them get a stream.
-/

namespace NaviMisc.Camserv

open NaviMisc.Lib.ByteOrder NaviMisc.Lib.Runs

namespace Server

variable {s t : Server} {id : ℕ} {cinfo cinfo' : ClientInfo} {p : ClientInfo → Bool}

def count (s : Server) (p : ClientInfo → Bool) : ℕ :=
  s.client_sockets.countP fun id => (s.clients id).any p

theorem count_dropped (hnodup : s.client_sockets.Nodup) (hlisted : id ∈ s.client_sockets)
    (hid : s.clients id = some cinfo) (hclients : t.clients = Function.update s.clients id none)
    (hsockets : t.client_sockets = s.client_sockets.erase id) :
    s.count p = t.count p + (p cinfo).toNat := by
  rw [count, count, hclients, hsockets, countP_erase_update hnodup, countP_of_mem hlisted, hid]
  rfl

theorem count_updated (hnodup : s.client_sockets.Nodup) (hlisted : id ∈ s.client_sockets)
    (hid : s.clients id = some cinfo)
    (hclients : t.clients = Function.update s.clients id (some cinfo'))
    (hsockets : t.client_sockets = s.client_sockets) :
    t.count p + (p cinfo).toNat = s.count p + (p cinfo').toNat := by
  rw [count, count, hclients, hsockets, countP_of_mem hlisted, countP_of_mem hlisted,
    countP_erase_update hnodup, hid, Function.update_self, Option.any_some, Option.any_some]
  omega

theorem count_added (hnext : s.next_client ∉ s.client_sockets)
    (hclients : t.clients = Function.update s.clients s.next_client (some cinfo))
    (hsockets : t.client_sockets = s.client_sockets ++ [s.next_client]) :
    t.count p = s.count p + (p cinfo).toNat := by
  rw [count, hclients, hsockets, List.countP_append, countP_update_of_not_mem hnext,
    List.countP_singleton, Function.update_self, Option.any_some]
  cases p cinfo <;> rfl

theorem Registered.next_not_listed (h : Registered s) : s.next_client ∉ s.client_sockets := by
  intro hmem
  have hsome := ((h.listed _).mp hmem).1
  rw [h.fresh _ le_rfl] at hsome
  cases hsome

structure Counts (s : Server) : Prop where
  num_clients : s.num_clients = s.client_sockets.length
  num_sclients : s.num_sclients = s.count streaming

/-- The socket of the picture taker is not closed, and a first message is one of a browser or of a
proxy. -/
def Countable (s : Server) (r : Returned) : Prop :=
  ∀ id set_socks cinfo, s.phase = .reading (id :: set_socks) → s.clients id = some cinfo →
    (id = picture_sock → r.input ≠ []) ∧
    (id ≠ listen_socket → id ≠ picture_sock → cinfo.client_type = .UNINIT → r.input ≠ [] →
      ascii "GET" <+: cmdbuf r.input ∨ ascii "PROXY" <+: cmdbuf r.input)

theorem Counts.transport (h : Counts s) (hclients : t.clients = s.clients)
    (hsockets : t.client_sockets = s.client_sockets) (hnum : t.num_clients = s.num_clients)
    (hnums : t.num_sclients = s.num_sclients) : Counts t := by
  refine ⟨?_, ?_⟩
  · rw [hnum, hsockets, h.num_clients]
  · rw [hnums, h.num_sclients, count, count, hclients, hsockets]

theorem Counts.drop_client (h : Counts s) (hnodup : s.client_sockets.Nodup) (hid : s.clients id = some cinfo) (hlisted : id ∈ s.client_sockets) :
    Counts (s.drop_client id cinfo) := by
  have hcount := @count_dropped s (s.drop_client id cinfo) id cinfo streaming hnodup hlisted hid
    rfl rfl
  have hlength := List.length_erase_of_mem hlisted
  have hpos := List.length_pos_of_mem hlisted
  refine ⟨?_, ?_⟩
  · have hnum : (s.drop_client id cinfo).num_clients = s.num_clients - 1 := rfl
    rw [hnum, h.num_clients, Server.drop_client, hlength]
    omega
  · have hnum : (s.drop_client id cinfo).num_sclients =
        s.num_sclients - if streaming cinfo then 1 else 0 := rfl
    rw [hnum, h.num_sclients, hcount]
    cases streaming cinfo <;> simp

section Operations

variable {host : Host} {limits : Limits} (hr : Registered s) (h : Counts s)
include hr h

theorem Counts.new_client {fd : ℕ} (hfd : s.isOpen fd = false) (hlt : fd < FD_SETSIZE) (now : ℤ) :
    Counts (s.new_client limits fd now) := by
  obtain ⟨readset, -, -, -, heq⟩ := @hr.new_client_eq _ limits fd hfd hlt now
  rw [heq]
  refine ⟨?_, ?_⟩
  · simp [h.num_clients]
  · rw [@count_added s _ (new_cinfo limits ⟨s.next_client, fd⟩ now) streaming hr.next_not_listed
      rfl rfl]
    exact h.num_sclients

theorem counts_first_message (hid : s.clients id = some cinfo) (hlisted : id ∈ s.client_sockets)
    (htype : cinfo.client_type = .UNINIT) (cmdbuf : List Byte) :
    Counts (s.first_message id cinfo cmdbuf) ↔
      ascii "GET" <+: cmdbuf ∨ ascii "PROXY" <+: cmdbuf := by
  have hcount := @count_updated s (s.first_message id cinfo cmdbuf) id cinfo
    (identified cinfo (identify cmdbuf)) streaming hr.nodup hlisted hid rfl rfl
  have hold : streaming cinfo = false := by
    rw [streaming, htype]
    rfl
  have hnew : (streaming (identified cinfo (identify cmdbuf))).toNat - counted cmdbuf =
      if ascii "GET" <+: cmdbuf ∨ ascii "PROXY" <+: cmdbuf then 0 else 1 := by
    unfold identify counted identified streaming
    split_ifs <;> simp_all
  have hnum : (s.first_message id cinfo cmdbuf).num_sclients = s.num_sclients + counted cmdbuf := rfl
  rw [hold, Bool.toNat_false, Nat.add_zero] at hcount
  constructor
  · intro hcounts
    by_contra hnot
    rw [if_neg hnot] at hnew
    have hexact := hcounts.num_sclients
    rw [hnum, h.num_sclients] at hexact
    omega
  · intro hnamed
    rw [if_pos hnamed] at hnew
    refine ⟨h.num_clients, ?_⟩
    rw [hnum, h.num_sclients]
    omega

theorem Counts.write_socket (hid : s.clients id = some cinfo) (hlisted : id ∈ s.client_sockets)
    (r : Returned) : Counts (s.write_socket host r id cinfo) := by
  have hsame : streaming (s.write_client host r cinfo).cinfo = streaming cinfo := by
    rw [streaming, (s.write_client_keeps host r cinfo).client_type, streaming]
  have hwritten : Counts (s.written host r id cinfo) := by
    refine ⟨h.num_clients, ?_⟩
    have hcount := @count_updated s (s.written host r id cinfo) id cinfo
      (s.write_client host r cinfo).cinfo streaming hr.nodup hlisted hid rfl rfl
    rw [hsame, Nat.add_right_cancel_iff] at hcount
    exact h.num_sclients.trans (congrArg _ hcount.symm)
  unfold Server.write_socket
  dsimp only
  split_ifs
  · exact hwritten.drop_client hr.nodup (Function.update_self ..) hlisted
  · exact hwritten

theorem Counts.read_socket (hid : s.clients id = some cinfo) (r : Returned)
    (hpicture : id = picture_sock → r.input ≠ [])
    (hnamed : id ≠ listen_socket → id ≠ picture_sock → cinfo.client_type = .UNINIT →
      r.input ≠ [] → ascii "GET" <+: cmdbuf r.input ∨ ascii "PROXY" <+: cmdbuf r.input) :
    Counts (s.read_socket limits r id cinfo) := by
  unfold Server.read_socket
  split_ifs with hlisten hinput hpic htype
  · cases haccept : s.accept_client r with
    | none => exact h
    | some fd =>
      obtain ⟨hfd, hlt⟩ := accept_client_free haccept
      exact h.new_client hr hfd hlt r.now
  · have hne : id ≠ picture_sock := fun heq => hpicture heq hinput
    have hunheld : Counts { s with writeset := sockset_unhold_all s.writeset } :=
      h.transport rfl rfl rfl rfl
    exact hunheld.drop_client hr.nodup hid (hr.mem_listed hid hlisten hne)
  · obtain ⟨manager, pictures, heq⟩ := s.picture_taken_eq r
    rw [heq]
    exact h.transport rfl rfl rfl rfl
  · have hlisted := hr.mem_listed hid hlisten hpic
    exact (counts_first_message hr h hid hlisted htype _).mpr (hnamed hlisten hpic htype hinput)
  · exact h

end Operations

/-- A snapshot is requested of an idle picture taker as long as a client gets a stream. -/
structure Exact (s : Server) : Prop extends Counts s where
  requested : ∀ r, s.picture_client_ready = true → ((s.select r).requests = s.requests + 1 ↔
    ∃ id ∈ s.client_sockets, (s.clients id).any streaming = true)

theorem Counts.exact (h : Counts s) : Exact s := by
  refine ⟨h, fun r hready => ?_⟩
  have hpos : s.num_sclients > 0 ↔
      ∃ id ∈ s.client_sockets, (s.clients id).any streaming = true := by
    rw [h.num_sclients, ← List.countP_pos_iff]
    exact Int.natCast_pos
  rw [← hpos]
  unfold select
  dsimp only
  split_ifs with hrequest
  · exact iff_of_true rfl hrequest.1
  · refine iff_of_false (by simp) fun hnum => hrequest ⟨hnum, hready⟩

theorem Counts.step (hr : Registered s) (h : Counts s) (host : Host) (limits : Limits) {r : Returned}
    (hr' : Countable s r) : Counts (s.step host limits r) := by
  have hstepped := hr.stepped host limits r
  generalize s.step host limits r = t at hstepped ⊢
  cases hstepped with
  | stay => exact h
  | goto phase hserving => exact h.transport rfl rfl rfl rfl
  | select =>
    unfold select
    dsimp only
    split_ifs <;> exact h.transport rfl rfl rfl rfl
  | read id cinfo set_socks hphase hid hread hnot hserving =>
    have hcountable := hr' id set_socks cinfo hphase hid
    have hcounts : Counts { s with phase := .reading set_socks } := h.transport rfl rfl rfl rfl
    exact hcounts.read_socket (hr.goto hserving) hid r hcountable.1 hcountable.2
  | write id cinfo set_socks hphase hid hwrite hread hlisted htype hnot hserving =>
    have hcounts : Counts { s with phase := .writing set_socks } := h.transport rfl rfl rfl rfl
    exact hcounts.write_socket (hr.goto hserving) hid hlisted r

theorem countable_of_counts (hr : Registered s) (h : Counts s) (host : Host) (limits : Limits)
    {r : Returned} (hcounts : Counts (s.step host limits r)) : Countable s r := by
  intro id set_socks cinfo hphase hid
  have hserving := hr.serving
  rw [hphase] at hserving
  have hrest : Server.Serving s (.reading set_socks) :=
    ⟨(List.nodup_cons.mp hserving.1).2, fun id' hid' => hserving.2 id' (List.mem_cons_of_mem _ hid')⟩
  have hr' := hr.goto hrest
  have h' : Counts { s with phase := .reading set_socks } := h.transport rfl rfl rfl rfl
  have hstep : s.step host limits r =
      { s with phase := .reading set_socks }.read_socket limits r id cinfo := by
    simp only [Server.step, hphase, hid, Option.elim_some]
  rw [hstep] at hcounts
  constructor
  · rintro rfl hinput
    have hlisten : picture_sock ≠ listen_socket := by decide
    simp only [Server.read_socket, if_neg hlisten, if_pos hinput] at hcounts
    have hnot : picture_sock ∉ s.client_sockets := by simp [hr.listed]
    have hnum := hcounts.num_clients
    simp only [Server.close_client, Server.drop_client, List.erase_of_not_mem hnot,
      h.num_clients] at hnum
    omega
  · intro hlisten hpicture htype hinput
    simp only [Server.read_socket, if_neg hlisten, if_neg hpicture, if_neg hinput,
      if_pos htype] at hcounts
    exact (counts_first_message hr' h' hid (hr'.mem_listed hid hlisten hpicture) htype _).mp hcounts

/-- The counters are exact in a run exactly if every step of it can be counted. -/
theorem counters_exact_iff (host : Host) (limits : Limits) (fds : Descriptors)
    (run : List Returned) : Always (step host limits) Exact (start fds) run ↔
      Meets (step host limits) Countable (start fds) run := by
  refine always_iff_meets (fun s r hr => hr.step host limits r) ?_ (registered_start fds) ?_ run
  · intro s r hr h
    constructor
    · intro hexact
      exact countable_of_counts hr h.toCounts host limits hexact.toCounts
    · intro hcountable
      exact (h.toCounts.step hr host limits hcountable).exact
  · exact Counts.exact ⟨rfl, rfl⟩

/-- Nothing is ready. -/
def nothing : Returned := ⟨fun _ => false, fun _ => false, none, [], none, fun _ => 0, true, none, 0⟩

def head_request : List Returned :=
  [{ nothing with readable := fun fd => fd = 3 }, { nothing with accepted := some 5 },
    nothing, nothing,
    { nothing with readable := fun fd => fd = 4 }, { nothing with input := ascii "0", report := some (0, 1) },
    nothing, nothing,
    { nothing with readable := fun fd => fd = 5 }, { nothing with input := ascii "HEAD" }]

/-- The client gets a stream, but is not counted. -/
theorem head_request_uncounted : ¬Always (step ⟨.little, 4, .inl rfl⟩ ⟨0, 0, 0⟩) Exact
    (start ⟨3, 4, by decide, by decide, by decide⟩) head_request := by
  intro h
  have hnum := h.last.num_sclients
  revert hnum
  decide

end Server

end NaviMisc.Camserv
