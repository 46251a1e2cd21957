import NaviMisc.Camserv.SockSet
import NaviMisc.Lib.ByteOrder

/-!
The buffers of the clients (databuf.c) and the pictures that they share (manager.c).
-/

namespace NaviMisc.Camserv

open NaviMisc.Lib.ByteOrder

/-- What the data of a databuf is: nothing, a text of the program, the data of the picture with an
id, or the word with the size of a picture in the client itself. -/
inductive Buffer
  | null
  | text (bytes : List Byte)
  | picture (id : ℤ)
  | picsize
  deriving DecidableEq

structure DataBuf where
  buffer : Buffer
  buffer_size : ℕ
  data_p : ℕ

inductive BufResult
  | error | done | more
  deriving DecidableEq

def databuf_new : DataBuf := ⟨.null, 0, 0⟩

def databuf_buf_set (new_buffer : Buffer) (buf_size : ℕ) : DataBuf := ⟨new_buffer, buf_size, 0⟩

def DataBuf.remaining (dbuf : DataBuf) : ℕ := dbuf.buffer_size - dbuf.data_p

def databuf_write (dbuf : DataBuf) (res : Option ℕ) : DataBuf × BufResult :=
  match res with
  | none => (dbuf, .error)
  | some res =>
    let dbuf := { dbuf with data_p := dbuf.data_p + min res dbuf.remaining }
    (dbuf, if dbuf.data_p = dbuf.buffer_size then .done else .more)

structure Picture_Bin where
  picture_data : List Byte
  picture_size : ℕ
  picture_id : ℤ
  nClients : ℤ

structure Manager where
  binList : List Picture_Bin
  current_picture_id : ℤ

def manager_start : Manager := ⟨[], 0⟩

def manager_new_picture (m : Manager) (picture_data : List Byte) (pic_size : ℕ) : Manager where
  binList := ⟨picture_data, pic_size, m.current_picture_id, 0⟩ ::
    m.binList.filter (·.nClients ≠ 0)
  current_picture_id := m.current_picture_id + 1

def manager_new_client (m : Manager) : Option (Picture_Bin × Manager) :=
  match m.binList with
  | [] => none
  | bin :: bins => some (bin, { m with binList := { bin with nClients := bin.nClients + 1 } :: bins })

def manager_dest_client (m : Manager) (management_data : ℤ) : Manager :=
  { m with
    binList := m.binList.map fun bin =>
      if bin.picture_id = management_data then { bin with nClients := bin.nClients - 1 } else bin }

def Manager.picture (m : Manager) (id : ℤ) : Option (List Byte × ℕ) :=
  (m.binList.find? (·.picture_id = id)).map fun bin => (bin.picture_data, bin.picture_size)

/-- Width and byte order of an unsigned long. -/
structure Host where
  endian : Endian
  sizeof_long : ℕ
  long : sizeof_long = 4 ∨ sizeof_long = 8

variable (host : Host)

def htonl (v : ℕ) : ℕ := (hton host.endian (BitVec.ofNat (8 * 4) v)).toNat

def ntohl (v : ℕ) : ℕ := (ntoh host.endian (BitVec.ofNat (8 * 4) v)).toNat

/-- The bytes of an unsigned long in memory. -/
def longBytes (v : ℕ) : List Byte := store host.endian (BitVec.ofNat (8 * host.sizeof_long) v)

def longValue (bytes : List Byte) : ℕ := (load host.endian host.sizeof_long bytes).toNat

def contents (m : Manager) (picsize : ℕ) : Buffer → List Byte
  | .null => []
  | .text bytes => bytes
  | .picture id => (m.picture id).elim [] Prod.fst
  | .picsize => longBytes host picsize

def DataBuf.taken (dbuf : DataBuf) (contents : List Byte) (res : ℕ) : List Byte :=
  (contents.drop dbuf.data_p).take (min res dbuf.remaining)

end NaviMisc.Camserv

/-!
What one write takes of a buffer and what it leaves.
-/

namespace NaviMisc.Camserv

open NaviMisc.Lib.ByteOrder

namespace DataBuf

variable (dbuf : DataBuf) (contents : List Byte) (res : ℕ)

def advance : DataBuf := { dbuf with data_p := dbuf.data_p + min res dbuf.remaining }

theorem advance_data_p : (dbuf.advance res).data_p = dbuf.data_p + min res dbuf.remaining := rfl

@[simp]
theorem advance_buffer : (dbuf.advance res).buffer = dbuf.buffer := rfl

@[simp]
theorem advance_buffer_size : (dbuf.advance res).buffer_size = dbuf.buffer_size := rfl

theorem taken_append_drop : dbuf.taken contents res ++ contents.drop (dbuf.advance res).data_p =
    contents.drop dbuf.data_p := by
  rw [taken, advance_data_p, ← List.drop_drop, List.take_append_drop]

variable {dbuf res}

theorem advance_le (h : dbuf.data_p ≤ dbuf.buffer_size) :
    (dbuf.advance res).data_p ≤ dbuf.buffer_size := by
  rw [advance_data_p, remaining]
  omega

theorem databuf_write_more (h : (dbuf.advance res).data_p ≠ dbuf.buffer_size) :
    databuf_write dbuf (some res) = (dbuf.advance res, .more) := congrArg (Prod.mk _) (if_neg h)

theorem databuf_write_done (h : (dbuf.advance res).data_p = dbuf.buffer_size) :
    databuf_write dbuf (some res) = (dbuf.advance res, .done) := congrArg (Prod.mk _) (if_pos h)

end DataBuf

end NaviMisc.Camserv

/-!
The clients of camserv and what is written to them (main_loop.c).
-/

namespace NaviMisc.Camserv

open NaviMisc.Lib.ByteOrder

inductive CInfoState
  | PREAMBLE | PICTURE | SEPERATOR | SENDSIZE
  deriving DecidableEq

inductive ClientType
  | PROXY | BROWSER | UNINIT | SINGLE
  deriving DecidableEq

structure ClientInfo where
  socket : Socket
  writebuf : DataBuf
  management_data : Option ℤ
  state : CInfoState
  create_time : ℤ
  bytes : ℕ
  frames : ℕ
  max_seconds : ℕ
  max_bytes : ℕ
  max_frames : ℕ
  proxypic_size : ℕ
  proxypic_data : Buffer
  last_picture_id : ℤ
  client_type : ClientType

def ascii (s : String) : List Byte := s.toList.map fun c => BitVec.ofNat 8 c.toNat

def RANDOMSTRING : String := "ThisRandomString"

def CONTENTTYPE : String := "image/jpeg"

def get_multi_preamble_text : List Byte :=
  ascii ("HTTP/1.0 200 OK\n" ++
    "Content-type: multipart/x-mixed-replace;boundary=" ++ RANDOMSTRING ++ "\n" ++
    "Cache-Control: no-cache\n" ++ "Cache-Control: private\n" ++ "Pragma: no-cache\n\n" ++
    "--" ++ RANDOMSTRING ++ "\n" ++ "Content-type: " ++ CONTENTTYPE ++ "\n\n")

def get_single_preamble_text : List Byte :=
  ascii ("HTTP/1.0 200 OK\n" ++ "Content-type: " ++ CONTENTTYPE ++ "\n" ++
    "Cache-Control: no-cache\n" ++ "Cache-Control: private\n" ++ "Pragma: no-cache\n\n")

def get_seperator_text : List Byte :=
  ascii ("\n--" ++ RANDOMSTRING ++ "\n" ++ "Content-type: " ++ CONTENTTYPE ++ "\n\n")

def clientinfo_new (sock : Socket) : ClientInfo where
  socket := sock
  writebuf := databuf_new
  management_data := none
  state := .PREAMBLE
  create_time := 0
  bytes := 0
  frames := 0
  max_seconds := 0
  max_bytes := 0
  max_frames := 0
  proxypic_size := 0
  proxypic_data := .null
  last_picture_id := -1
  client_type := .UNINIT

inductive WriteResult
  | ok | close | error
  deriving DecidableEq

structure Written where
  manager : Manager
  cinfo : ClientInfo
  writeset : SockSet
  result : WriteResult

variable (host : Host) (m : Manager) (cinfo : ClientInfo) (writeset : SockSet)

def new_picture (m : Manager) (cinfo : ClientInfo) : Option Picture_Bin × Manager × ClientInfo :=
  match manager_new_client m with
  | none => (none, m, { cinfo with management_data := none })
  | some (bin, m) =>
    if bin.picture_id = cinfo.last_picture_id then
      (none, manager_dest_client m bin.picture_id, { cinfo with management_data := none })
    else (some bin, m, { cinfo with management_data := some bin.picture_id })

/-- The next picture of a proxy, if it has to wait for none. -/
def next_proxy_picture : Written :=
  match new_picture m cinfo with
  | (none, m, cinfo) => ⟨m, cinfo, sockset_hold writeset cinfo.socket, .ok⟩
  | (some bin, m, cinfo) =>
    ⟨m, { cinfo with
      proxypic_data := .picture bin.picture_id
      proxypic_size := htonl host bin.picture_size
      last_picture_id := bin.picture_id
      writebuf := databuf_buf_set .picsize host.sizeof_long
      state := .SENDSIZE }, writeset, .ok⟩

def write_proxy_client (bufwrite : Option ℕ) : Written :=
  let (writebuf, res) := databuf_write cinfo.writebuf bufwrite
  let cinfo := { cinfo with writebuf := writebuf }
  match res with
  | .error => ⟨m, cinfo, writeset, .error⟩
  | .more => ⟨m, cinfo, writeset, .ok⟩
  | .done =>
    if cinfo.state = .SENDSIZE then
      ⟨m, { cinfo with
        writebuf := databuf_buf_set cinfo.proxypic_data (ntohl host cinfo.proxypic_size)
        state := .PICTURE }, writeset, .ok⟩
    else next_proxy_picture host (cinfo.management_data.elim m (manager_dest_client m)) cinfo writeset

/-- The resource limits of a client, where a limit of 0 is none. -/
def exceeds (now : ℤ) : Prop :=
  cinfo.max_seconds ≠ 0 ∧ now - cinfo.create_time > cinfo.max_seconds ∨
  cinfo.max_bytes ≠ 0 ∧ cinfo.bytes > cinfo.max_bytes ∨
  cinfo.max_frames ≠ 0 ∧ cinfo.frames > cinfo.max_frames

instance (now : ℤ) : Decidable (exceeds cinfo now) := inferInstanceAs (Decidable (_ ∨ _))

/-- The next picture of a browser, if it has to wait for none. -/
def next_regular_picture : Written :=
  match new_picture m cinfo with
  | (none, m, cinfo) => ⟨m, cinfo, sockset_hold writeset cinfo.socket, .ok⟩
  | (some bin, m, cinfo) =>
    ⟨m, { cinfo with
      writebuf := databuf_buf_set (.picture bin.picture_id) bin.picture_size
      last_picture_id := bin.picture_id
      state := .PICTURE
      frames := (cinfo.frames + 1) % 2 ^ 32
      bytes := (cinfo.bytes + bin.picture_size) % 2 ^ 32 }, writeset, .ok⟩

def finish_regular_picture (now : ℤ) : Written :=
  let m := cinfo.management_data.elim m (manager_dest_client m)
  let cinfo := { cinfo with management_data := none, state := .SEPERATOR }
  if cinfo.client_type = .SINGLE ∨ exceeds cinfo now then ⟨m, cinfo, writeset, .close⟩
  else
    ⟨m, { cinfo with
      writebuf := databuf_buf_set (.text get_seperator_text) get_seperator_text.length },
      writeset, .ok⟩

def write_regular_client (now : ℤ) (bufwrite : Option ℕ) : Written :=
  let (writebuf, res) := databuf_write cinfo.writebuf bufwrite
  let cinfo := { cinfo with writebuf := writebuf }
  match res with
  | .error => ⟨m, cinfo, writeset, .error⟩
  | .more => ⟨m, cinfo, writeset, .ok⟩
  | .done =>
    if cinfo.state = .PREAMBLE ∨ cinfo.state = .SEPERATOR then next_regular_picture m cinfo writeset
    else finish_regular_picture m cinfo writeset now

end NaviMisc.Camserv
