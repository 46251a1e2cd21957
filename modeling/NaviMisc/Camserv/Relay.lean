import NaviMisc.Camserv.MainLoop
import NaviMisc.Camserv.ProxyProtocol

/-!
The clients of a relay (relay.c).
-/

namespace NaviMisc.Camserv

open NaviMisc.Lib.ByteOrder

inductive BrowserState
  | SEND_PREAMBLE | SEND_PICTURE | SEND_SEPERATOR
  deriving DecidableEq

inductive ProxyClState
  | SEND_PICSIZE | SEND_PICTURE
  deriving DecidableEq

/-- A client that is not the one of camserv. Its type is UNINIT as long as it is unknown. -/
structure ClientData where
  clienttype : ClientType
  writebuf : DataBuf
  browserstate : BrowserState
  browser_data : Option ℤ
  browser_last : ℤ
  proxystate : ProxyClState
  picsize : ℕ
  proxy_data : Option ℤ
  proxy_last : ℤ
  pic_data : Buffer

/-- Of the fields that client_data_new leaves alone only the ids of the last pictures are read before
they are set. -/
def client_data_new (browser_last proxy_last : ℤ) : ClientData where
  clienttype := .UNINIT
  writebuf := databuf_new
  browserstate := .SEND_PREAMBLE
  browser_data := none
  browser_last := browser_last
  proxystate := .SEND_PICSIZE
  picsize := 0
  proxy_data := none
  proxy_last := proxy_last
  pic_data := .null

def ClientData.management_data (cldata : ClientData) : Option ℤ :=
  match cldata.clienttype with
  | .PROXY => cldata.proxy_data
  | .UNINIT => none
  | _ => cldata.browser_data

def get_preamble_text (multi : Bool) : List Byte :=
  if multi then get_multi_preamble_text else get_single_preamble_text

def set_client_writebuf (cldata : ClientData) : ClientData :=
  match cldata.clienttype with
  | .BROWSER => { cldata with
    browserstate := .SEND_PREAMBLE
    writebuf := databuf_buf_set (.text (get_preamble_text true)) (get_preamble_text true).length }
  | .SINGLE => { cldata with
    browserstate := .SEND_PREAMBLE
    writebuf := databuf_buf_set (.text (get_preamble_text false)) (get_preamble_text false).length }
  | .PROXY => { cldata with
    proxystate := .SEND_PICTURE
    proxy_data := none
    writebuf := databuf_buf_set (.text []) 0 }
  | .UNINIT => cldata

variable (host : Host) (m : Manager) (cldata : ClientData)

def write_client_proxy : Manager × ClientData :=
  if cldata.proxystate = .SEND_PICTURE then
    let m := cldata.proxy_data.elim m (manager_dest_client m)
    match manager_new_client m with
    | none => (m, { cldata with proxy_data := none })
    | some (bin, m) =>
      if bin.picture_id = cldata.proxy_last then
        (manager_dest_client m bin.picture_id, { cldata with proxy_data := none })
      else (m, { cldata with
        proxy_data := some bin.picture_id
        proxystate := .SEND_PICSIZE
        picsize := htonl host bin.picture_size
        pic_data := .picture bin.picture_id
        proxy_last := bin.picture_id
        writebuf := databuf_buf_set .picsize host.sizeof_long })
  else (m, { cldata with
    proxystate := .SEND_PICTURE
    writebuf := databuf_buf_set cldata.pic_data (ntohl host cldata.picsize) })

def write_client_regular : Manager × ClientData :=
  if cldata.browserstate = .SEND_PREAMBLE ∨ cldata.browserstate = .SEND_SEPERATOR then
    match manager_new_client m with
    | none => (m, { cldata with browser_data := none })
    | some (bin, m) =>
      if bin.picture_id = cldata.browser_last then
        (manager_dest_client m bin.picture_id, { cldata with browser_data := none })
      else (m, { cldata with
        browser_data := some bin.picture_id
        writebuf := databuf_buf_set (.picture bin.picture_id) bin.picture_size
        browser_last := bin.picture_id
        browserstate := .SEND_PICTURE })
  else (cldata.browser_data.elim m (manager_dest_client m), { cldata with
    browser_data := none
    browserstate := .SEND_SEPERATOR
    writebuf := databuf_buf_set (.text get_seperator_text) get_seperator_text.length })

def write_client : Manager × ClientData :=
  match cldata.clienttype with
  | .UNINIT => (m, cldata)
  | .PROXY => write_client_proxy host m cldata
  | _ => write_client_regular m cldata

/-- None where the client is to be closed. -/
def relay_client_write (written : Option ℕ) : Manager × Option ClientData :=
  let (writebuf, writeres) := databuf_write cldata.writebuf written
  let cldata := { cldata with writebuf := writebuf }
  match writeres with
  | .error => (m, none)
  | .more => (m, some cldata)
  | .done => (write_client host m cldata).map id some

def relay_client_identify (sparebuf : List Byte) : ClientData :=
  set_client_writebuf { cldata with
    clienttype :=
      if ascii "GET" <+: sparebuf then
        if ascii "/singleframe" <:+: sparebuf then .SINGLE else .BROWSER
      else if ascii "PROXY" <+: sparebuf then .PROXY
      else .BROWSER }

structure Relay where
  manager : Manager
  camera : Option CamData
  clients : ℕ → Option ClientData
  next_client : ℕ
  connected : List ℕ

/-- The sets of sock_field only decide when a client is served, which is left open here: each action
serves a client that is connected, or the connection to camserv. -/
inductive RelayAction
  | connect
  | write_camera
  | read_camera (bytes : List Byte)
  | accept (browser_last proxy_last : ℤ)
  | read (id : ℕ) (sparebuf : List Byte) (closed : Bool)
  | write (id : ℕ) (written : Option ℕ)

namespace Relay

variable (r : Relay)

def relay_camera_read (cam : CamData) (bytes : List Byte) : Relay :=
  let bytes := bytes.take (cam.readbuf_size - cam.readbuf.length)
  if bytes = [] then { r with camera := none }
  else
    let cam' := relay_client_read host bytes true true cam
    { r with
      camera := some cam'
      manager := (cam'.managed.drop cam.managed.length).foldl
        (fun m p => manager_new_picture m p.1 p.2) r.manager }

def relay_preclose (id : ℕ) : Relay :=
  { r with
    clients := Function.update r.clients id none
    connected := r.connected.erase id }

def set_client (id : ℕ) (cldata : ClientData) : Relay :=
  { r with clients := Function.update r.clients id (some cldata) }

def relay_accept (browser_last proxy_last : ℤ) : Relay :=
  { r with
    clients := Function.update r.clients r.next_client
      (some (client_data_new browser_last proxy_last))
    next_client := r.next_client + 1
    connected := r.connected ++ [r.next_client] }

def read_client (id : ℕ) (cldata : ClientData) (sparebuf : List Byte) (closed : Bool) : Relay :=
  if cldata.clienttype = .UNINIT then r.set_client id (relay_client_identify cldata sparebuf)
  else if closed then r.relay_preclose id
  else r

def write_socket (id : ℕ) (cldata : ClientData) (written : Option ℕ) : Relay :=
  match relay_client_write host r.manager cldata written with
  | (manager, some cldata) => { r with manager := manager }.set_client id cldata
  | (manager, none) => { r with manager := manager }.relay_preclose id

def step : RelayAction → Relay
  | .connect => if r.camera = none then { r with camera := some relay_connect_camserv } else r
  | .write_camera => { r with camera := r.camera.map (write_camera host) }
  | .read_camera bytes => r.camera.elim r (r.relay_camera_read host · bytes)
  | .accept browser_last proxy_last => r.relay_accept browser_last proxy_last
  | .read id sparebuf closed => (r.clients id).elim r (r.read_client id · sparebuf closed)
  | .write id written => (r.clients id).elim r (r.write_socket host id · written)

def start : Relay := ⟨manager_start, none, fun _ => none, 0, []⟩

end Relay

end NaviMisc.Camserv
