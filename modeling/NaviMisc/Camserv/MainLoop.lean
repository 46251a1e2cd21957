import Mathlib.Data.BitVec
import NaviMisc.Camserv.Client
import NaviMisc.Lib.Runs

/-!
The main loop of camserv (main_loop.c), one socket at a time.
-/

namespace NaviMisc.Camserv

open NaviMisc.Lib.ByteOrder

inductive Phase
  | idle
  | reading (set_socks : List ℕ)
  | writing (set_socks : List ℕ)
  deriving DecidableEq

def listen_socket : ℕ := 0

def picture_sock : ℕ := 1

structure Descriptors where
  listen : ℕ
  picture : ℕ
  ne : listen ≠ picture
  listen_lt : listen < FD_SETSIZE
  picture_lt : picture < FD_SETSIZE

structure Limits where
  max_seconds : ℕ
  max_bytes : ℕ
  max_frames : ℕ

/-- The variables of main_loop with the clientinfos, the requests that were sent to the picture
taker, all pictures that were managed, and the type of each client with what write took for it. -/
structure Server where
  readset : SockSet
  writeset : SockSet
  clients : ℕ → Option ClientInfo
  next_client : ℕ
  client_sockets : List ℕ
  num_clients : ℤ
  num_sclients : ℤ
  picture_client_ready : Bool
  manager : Manager
  phase : Phase
  requests : ℕ
  pictures : List (List Byte)
  streams : ℕ → ClientType × List Byte

/-- What the system calls of a step return. An input is empty at its end and on an error, and a
report is the command of the picture taker with the number of bytes, where sscanf finds them. -/
structure Returned where
  readable : ℕ → Bool
  writable : ℕ → Bool
  accepted : Option ℕ
  input : List Byte
  report : Option (ℤ × ℕ)
  picture_mem : ℕ → Byte
  allocated : Bool
  written : Option ℕ
  now : ℤ

variable (host : Host) (limits : Limits)

def streaming (cinfo : ClientInfo) : Bool :=
  cinfo.client_type = .BROWSER ∨ cinfo.client_type = .PROXY

namespace Server

variable (s : Server) (r : Returned)

def isOpen (fd : ℕ) : Bool :=
  (List.range s.next_client).any fun id => (s.clients id).any (·.socket.fd = fd)

def accept_client : Option ℕ := r.accepted.filter fun fd => fd < FD_SETSIZE ∧ ¬s.isOpen fd

def request : Server := { s with requests := s.requests + 1, picture_client_ready := false }

def select : Server :=
  let s := if s.num_sclients > 0 ∧ s.picture_client_ready = true then s.request else s
  let readset := sockset_select s.readset r.readable
  { s with
    readset := readset
    writeset := sockset_select s.writeset r.writable
    phase := .reading (sockset_query_socks readset) }

def new_cinfo (sock : Socket) (now : ℤ) : ClientInfo :=
  { clientinfo_new sock with
    create_time := now
    max_seconds := limits.max_seconds
    max_bytes := limits.max_bytes
    max_frames := limits.max_frames }

def new_client (fd : ℕ) (now : ℤ) : Server :=
  let id := s.next_client
  let sock : Socket := ⟨id, fd⟩
  match sockset_add_fd s.readset sock id with
  | none => s
  | some readset =>
    { s.request with
      readset := sockset_hold readset sock
      clients := Function.update s.clients id (some (new_cinfo limits sock now))
      next_client := id + 1
      client_sockets := s.client_sockets ++ [id]
      num_clients := s.num_clients + 1 }

def drop_client (id : ℕ) (cinfo : ClientInfo) : Server :=
  { s with
    readset := sockset_del_fd s.readset cinfo.socket
    writeset := sockset_del_fd s.writeset cinfo.socket
    clients := Function.update s.clients id none
    client_sockets := s.client_sockets.erase id
    num_clients := s.num_clients - 1
    num_sclients := s.num_sclients - if streaming cinfo then 1 else 0
    manager := cinfo.management_data.elim s.manager (manager_dest_client s.manager) }

def close_client (id : ℕ) (cinfo : ClientInfo) : Server :=
  { s with writeset := sockset_unhold_all s.writeset }.drop_client id cinfo

def dispatch_pictaker : Server :=
  match r.report with
  | some (0, nbytes) =>
    let new_picture_data := (List.range nbytes).map r.picture_mem
    if r.allocated = true then
      { s with
        manager := manager_new_picture s.manager new_picture_data nbytes
        pictures := s.pictures ++ [new_picture_data] }
    else s
  | _ => s

def picture_taken : Server :=
  { s.dispatch_pictaker r with
    writeset := sockset_unhold_all s.writeset
    readset := sockset_unhold_all s.readset
    picture_client_ready := true }

def cmdbuf (input : List Byte) : List Byte := (input.take (1024 - 1)).takeWhile (· ≠ 0)

def identify (cmdbuf : List Byte) : ClientType :=
  if ascii "GET" <+: cmdbuf then
    if ascii "/singleframe" <:+: cmdbuf then .SINGLE else .BROWSER
  else if ascii "PROXY" <+: cmdbuf then .PROXY
  else .BROWSER

def counted (cmdbuf : List Byte) : ℤ :=
  if ascii "GET" <+: cmdbuf then if ascii "/singleframe" <:+: cmdbuf then 0 else 1
  else if ascii "PROXY" <+: cmdbuf then 1
  else 0

def identified (cinfo : ClientInfo) : ClientType → ClientInfo
  | .PROXY => { cinfo with
    client_type := .PROXY
    state := .PICTURE
    writebuf := databuf_buf_set .null 0 }
  | .SINGLE => { cinfo with
    client_type := .SINGLE
    writebuf := databuf_buf_set (.text get_single_preamble_text) get_single_preamble_text.length }
  | client_type => { cinfo with
    client_type := client_type
    writebuf := databuf_buf_set (.text get_multi_preamble_text) get_multi_preamble_text.length }

def first_message (id : ℕ) (cinfo : ClientInfo) (cmdbuf : List Byte) : Server :=
  let client_type := identify cmdbuf
  let cinfo := identified cinfo client_type
  { s with
    writeset := (sockset_add_fd s.writeset cinfo.socket id).getD s.writeset
    clients := Function.update s.clients id (some cinfo)
    num_sclients := s.num_sclients + counted cmdbuf
    streams := Function.update s.streams id (client_type, []) }

def read_socket (id : ℕ) (cinfo : ClientInfo) : Server :=
  if id = listen_socket then (s.accept_client r).elim s (s.new_client limits · r.now)
  else if r.input = [] then s.close_client id cinfo
  else if id = picture_sock then s.picture_taken r
  else if cinfo.client_type = .UNINIT then s.first_message id cinfo (cmdbuf r.input)
  else s

def taken (cinfo : ClientInfo) (written : Option ℕ) : List Byte :=
  written.elim [] (cinfo.writebuf.taken
    (contents host s.manager cinfo.proxypic_size cinfo.writebuf.buffer))

def regular (cinfo : ClientInfo) : Bool :=
  cinfo.client_type = .BROWSER ∨ cinfo.client_type = .SINGLE

def write_client (cinfo : ClientInfo) : Written :=
  if regular cinfo then write_regular_client s.manager cinfo s.writeset r.now r.written
  else write_proxy_client host s.manager cinfo s.writeset r.written

def written (id : ℕ) (cinfo : ClientInfo) : Server :=
  let w := s.write_client host r cinfo
  { s with
    manager := w.manager
    writeset := w.writeset
    clients := Function.update s.clients id (some w.cinfo)
    streams := Function.update s.streams id
      (cinfo.client_type, (s.streams id).2 ++ s.taken host cinfo r.written) }

def write_socket (id : ℕ) (cinfo : ClientInfo) : Server :=
  let w := s.write_client host r cinfo
  let s := s.written host r id cinfo
  if w.result = .error ∨ regular cinfo = true ∧ w.result = .close then s.drop_client id w.cinfo
  else s

/-- A client that is gone is passed over. Nothing is said about the program once it has destroyed the
socket of the picture taker, which it goes on using. -/
def step : Server :=
  match s.phase with
  | .idle => if (s.clients picture_sock).isNone then s else s.select r
  | .reading [] => { s with phase := .writing (sockset_query_socks s.writeset) }
  | .reading (id :: set_socks) =>
    let s := { s with phase := .reading set_socks }
    (s.clients id).elim s (s.read_socket limits r id)
  | .writing [] => { s with phase := .idle }
  | .writing (id :: set_socks) =>
    let s := { s with phase := .writing set_socks }
    (s.clients id).elim s (s.write_socket host r id)

def start (fds : Descriptors) : Server where
  readset :=
    ((sockset_add_fd sockset_new ⟨listen_socket, fds.listen⟩ listen_socket).bind fun readset =>
      sockset_add_fd readset ⟨picture_sock, fds.picture⟩ picture_sock).getD sockset_new
  writeset := sockset_new
  clients := Function.update
    (Function.update (fun _ => none) listen_socket (some (clientinfo_new ⟨listen_socket, fds.listen⟩)))
    picture_sock (some (clientinfo_new ⟨picture_sock, fds.picture⟩))
  next_client := 2
  client_sockets := []
  num_clients := 0
  num_sclients := 0
  picture_client_ready := true
  manager := manager_start
  phase := .idle
  requests := 0
  pictures := []
  streams _ := (.UNINIT, [])

end Server

end NaviMisc.Camserv
