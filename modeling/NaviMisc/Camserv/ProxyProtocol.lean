import NaviMisc.Camserv.Bins
import NaviMisc.Lib.Runs

/-!
A relay on the connection to camserv (relay.c), and the bytes between them.
-/

namespace NaviMisc.Camserv

open NaviMisc.Lib.ByteOrder

inductive CamState
  | SEND_PROXY | RECV_SIZE | RECV_PICTURE
  deriving DecidableEq

/-- The data of the camera client with what is in its read buffer so far, and the pictures given to
manager_new_picture with their sizes. -/
structure CamData where
  camstate : CamState
  picsize : ℕ
  readbuf_size : ℕ
  readbuf : List Byte
  closed : Bool
  managed : List (List Byte × ℕ)

variable (host : Host)

def relay_connect_camserv : CamData := ⟨.SEND_PROXY, 0, 0, [], false, []⟩

def write_camera (cam : CamData) : CamData :=
  if cam.camstate ≠ .SEND_PROXY then cam
  else { cam with camstate := .RECV_SIZE, readbuf_size := host.sizeof_long, readbuf := [] }

/-- Once the buffer is full. A malloc that fails and a picture that cannot be managed close the
connection. -/
def read_camera (malloc manages : Bool) (cam : CamData) : CamData :=
  if cam.camstate = .RECV_SIZE then
    let picsize := longValue host cam.readbuf
    if malloc then
      { cam with
        camstate := .RECV_PICTURE
        picsize := picsize
        readbuf_size := ntohl host picsize
        readbuf := [] }
    else { cam with camstate := .RECV_PICTURE, picsize := picsize, closed := true }
  else
    { cam with
      camstate := .RECV_SIZE
      readbuf_size := host.sizeof_long
      readbuf := []
      closed := !manages
      managed := cam.managed ++ [(cam.readbuf, ntohl host cam.picsize)] }

def relay_client_read (bytes : List Byte) (malloc manages : Bool) (cam : CamData) : CamData :=
  let cam := { cam with readbuf := cam.readbuf ++ bytes }
  if cam.readbuf.length = cam.readbuf_size then read_camera host malloc manages cam else cam

/-- camserv with the relay as a client, how many of its other clients have each picture, the
pictures that were chosen for the relay, the bytes on their way, and the relay. -/
structure Link where
  manager : Manager
  others : ℤ → ℕ
  cinfo : ClientInfo
  writeset : SockSet
  sent : List (List Byte × ℕ)
  pipe : List Byte
  cam : CamData

abbrev SizedPicture := { data : List Byte // 1 ≤ data.length ∧ data.length < 2 ^ 31 }

inductive LinkAction
  | new_picture (data : SizedPicture)
  | other_new_client
  | other_dest_client (id : ℤ)
  | write (res : ℕ)
  | read (count : ℕ) (malloc manages : Bool)

namespace Link

variable (l : Link)

def write (res : ℕ) : Link :=
  let w := write_proxy_client host l.manager l.cinfo l.writeset (some res)
  let chosen :=
    if l.cinfo.state ≠ .SENDSIZE ∧ w.cinfo.state = .SENDSIZE then
      (w.manager.picture w.cinfo.last_picture_id).toList
    else []
  { l with
    manager := w.manager
    cinfo := w.cinfo
    writeset := w.writeset
    sent := l.sent ++ chosen
    pipe := l.pipe ++ l.cinfo.writebuf.taken
      (contents host l.manager l.cinfo.proxypic_size l.cinfo.writebuf.buffer) res }

def read (count : ℕ) (malloc manages : Bool) : Link :=
  let bytes := l.pipe.take (min count (l.cam.readbuf_size - l.cam.readbuf.length))
  if l.cam.closed = true ∨ bytes = [] then l
  else { l with
    pipe := l.pipe.drop bytes.length
    cam := relay_client_read host bytes malloc manages l.cam }

def step : LinkAction → Link
  | .new_picture data =>
    { l with manager := manager_new_picture l.manager data data.1.length }
  | .other_new_client =>
    match manager_new_client l.manager with
    | none => l
    | some (bin, manager) =>
      { l with
        manager := manager
        others := Function.update l.others bin.picture_id (l.others bin.picture_id + 1) }
  | .other_dest_client id =>
    if l.others id = 0 then l
    else { l with
      manager := manager_dest_client l.manager id
      others := Function.update l.others id (l.others id - 1) }
  | .write res => l.write host res
  | .read count malloc manages => l.read host count malloc manages

def start (sock : Socket) (writeset : SockSet) : Link where
  manager := manager_start
  others _ := 0
  cinfo := { clientinfo_new sock with
    client_type := .PROXY
    state := .PICTURE
    writebuf := databuf_buf_set .null 0 }
  writeset := writeset
  sent := []
  pipe := []
  cam := write_camera host relay_connect_camserv

/-- Nothing is left of what was chosen. -/
def Flushed : Prop :=
  l.pipe = [] ∧ l.cinfo.state = .PICTURE ∧ l.cinfo.writebuf.remaining = 0

/-- The pictures of the relay are the first ones that were chosen, and all of them once everything
is sent and read. -/
structure Carries : Prop where
  managed : l.cam.managed <+: l.sent
  flushed : l.cam.closed = false → l.Flushed → l.cam.managed = l.sent

end Link

end NaviMisc.Camserv

/-!
The relay gets the pictures that camserv sends, each whole and with its size.
-/

namespace NaviMisc.Camserv

open NaviMisc.Lib.ByteOrder NaviMisc.Lib.Runs

variable (host : Host)

section Words

variable {v : ℕ}

theorem ntohl_htonl (h : v < 2 ^ 31) : ntohl host (htonl host v) = v := by
  rw [ntohl, htonl, BitVec.ofNat_toNat, BitVec.setWidth_eq, ntoh_hton, BitVec.toNat_ofNat]
  exact Nat.mod_eq_of_lt (h.trans (by decide))

theorem htonl_lt (v : ℕ) : htonl host v < 2 ^ (8 * host.sizeof_long) := by
  have h := (hton host.endian (BitVec.ofNat (8 * 4) v)).isLt
  rw [htonl]
  apply h.trans_le
  apply Nat.pow_le_pow_right (by decide)
  rcases host.long with h | h <;> omega

theorem longValue_longBytes (v : ℕ) : longValue host (longBytes host (htonl host v)) = htonl host v := by
  rw [longValue, longBytes, load_store, BitVec.toNat_ofNat, Nat.mod_eq_of_lt (htonl_lt host v)]

theorem length_longBytes (v : ℕ) : (longBytes host v).length = host.sizeof_long :=
  length_store _ _

theorem sizeof_long_pos : 0 < host.sizeof_long := by
  rcases host.long with h | h <;> omega

end Words

def frame (p : List Byte × ℕ) : List Byte := longBytes host (htonl host p.2) ++ p.1

structure Sized (p : List Byte × ℕ) : Prop where
  size : p.2 = p.1.length
  pos : 1 ≤ p.1.length
  lt : p.1.length < 2 ^ 31

inductive Sends (host : Host) (m : Manager) (cinfo : ClientInfo) : List Byte → Prop
  | size (id : ℤ) (p : List Byte × ℕ) (k : ℕ) : cinfo.state = .SENDSIZE →
      cinfo.management_data = some id → m.picture id = some p → Sized p →
      cinfo.proxypic_data = .picture id → cinfo.proxypic_size = htonl host p.2 →
      cinfo.writebuf = ⟨.picsize, host.sizeof_long, k⟩ → k < host.sizeof_long →
      Sends host m cinfo ((longBytes host (htonl host p.2)).drop k ++ p.1)
  | data (id : ℤ) (p : List Byte × ℕ) (k : ℕ) : cinfo.state = .PICTURE →
      cinfo.management_data = some id → m.picture id = some p → Sized p →
      cinfo.writebuf = ⟨.picture id, p.1.length, k⟩ → k < p.1.length →
      Sends host m cinfo (p.1.drop k)
  | idle : cinfo.state = .PICTURE → cinfo.management_data = none → cinfo.writebuf.remaining = 0 →
      cinfo.writebuf.data_p = cinfo.writebuf.buffer_size → Sends host m cinfo []

inductive Receives (host : Host) (cam : CamData) : List (List Byte × ℕ) → List Byte → Prop
  | size (later : List (List Byte × ℕ)) : cam.camstate = .RECV_SIZE →
      cam.readbuf_size = host.sizeof_long → cam.readbuf.length < host.sizeof_long →
      Receives host cam later cam.readbuf
  | data (p : List Byte × ℕ) (later : List (List Byte × ℕ)) : cam.camstate = .RECV_PICTURE →
      cam.picsize = htonl host p.2 → cam.readbuf_size = p.2 → cam.readbuf.length < p.2 → Sized p →
      Receives host cam (p :: later) (longBytes host (htonl host p.2) ++ cam.readbuf)

section Receives

variable {host}

theorem Receives.append {cam : CamData} {later : List (List Byte × ℕ)} {partly : List Byte}
    (h : Receives host cam later partly) (more : List (List Byte × ℕ)) :
    Receives host cam (later ++ more) partly := by
  cases h with
  | size later hcam hsize hlen => exact .size _ hcam hsize hlen
  | data p later hcam hpic hsize hlen hp => exact .data p _ hcam hpic hsize hlen hp

theorem Receives.read {cam : CamData} {later : List (List Byte × ℕ)} {partly bytes rest : List Byte}
    (h : Receives host cam later partly) (hsized : ∀ p ∈ later, Sized p) (malloc manages : Bool)
    (hlen : bytes.length ≤ cam.readbuf_size - cam.readbuf.length)
    (hframes : partly ++ (bytes ++ rest) = later.flatMap (frame host)) :
    let cam' := relay_client_read host bytes malloc manages cam
    ∃ later', cam.managed ++ later = cam'.managed ++ later' ∧ (∀ p ∈ later', Sized p) ∧
      (cam'.closed = false → ∃ partly', Receives host cam' later' partly' ∧
        partly' ++ rest = later'.flatMap (frame host)) := by
  intro cam'
  have hcam' : cam' = relay_client_read host bytes malloc manages cam := rfl
  by_cases hfull : (cam.readbuf ++ bytes).length = cam.readbuf_size
  · simp only [relay_client_read, if_pos hfull] at hcam'
    cases h with
    | size later hcam hsize hlt =>
      rw [hsize] at hfull
      cases later with
      | nil =>
        have hlength := congrArg List.length hframes
        have hlong := sizeof_long_pos host
        simp only [List.flatMap_nil, List.length_append, List.length_nil] at hlength hfull
        omega
      | cons p later =>
        have hp := hsized p List.mem_cons_self
        rw [List.flatMap_cons, frame, List.append_assoc, ← List.append_assoc] at hframes
        obtain ⟨hlong, hrest⟩ := List.append_inj hframes (by rw [hfull, length_longBytes])
        simp only [read_camera, if_pos hcam, hlong, longValue_longBytes,
          ntohl_htonl host (hp.size ▸ hp.lt)] at hcam'
        cases malloc with
        | false =>
          rw [hcam']
          exact ⟨p :: later, rfl, hsized, nofun⟩
        | true =>
          rw [hcam']
          refine ⟨p :: later, rfl, hsized, fun _ => ⟨_, .data p later rfl rfl rfl ?_ hp, ?_⟩⟩
          · rw [hp.size]
            exact Nat.lt_of_lt_of_le Nat.zero_lt_one hp.pos
          · simp [frame, hrest]
    | data p later hcam hpic hsize hlt hp =>
      rw [hsize, hp.size] at hfull
      rw [List.flatMap_cons, frame, List.append_assoc, List.append_assoc,
        List.append_cancel_left_eq, ← List.append_assoc] at hframes
      obtain ⟨hdata, hrest⟩ := List.append_inj hframes hfull
      simp only [read_camera, hcam, reduceCtorEq, ↓reduceIte, hdata, hpic,
        ntohl_htonl host (hp.size ▸ hp.lt)] at hcam'
      rw [hcam']
      refine ⟨later, by simp, fun p' hp' => hsized p' (List.mem_cons_of_mem p hp'), fun _ => ?_⟩
      exact ⟨_, .size later rfl rfl (sizeof_long_pos host), hrest⟩
  · simp only [relay_client_read, if_neg hfull] at hcam'
    rw [hcam']
    rw [List.length_append] at hfull
    refine ⟨later, rfl, hsized, fun _ => ?_⟩
    cases h with
    | size later hcam hsize hlt =>
      refine ⟨_, .size later hcam hsize ?_, by simpa using hframes⟩
      rw [List.length_append]
      omega
    | data p later hcam hpic hsize hlt hp =>
      refine ⟨_, .data p later hcam hpic hsize ?_ hp, by simpa using hframes⟩
      rw [List.length_append]
      omega

end Receives

namespace Link

variable {host} {l : Link}

def users (l : Link) (id : ℤ) : ℕ :=
  l.others id + if l.cinfo.management_data = some id then 1 else 0

structure Synced (host : Host) (l : Link) : Prop where
  counted : Counted l.manager l.users
  sized : ∀ p ∈ l.manager.pictures, Sized p
  later : ∃ unsent, Sends host l.manager l.cinfo unsent ∧ ∃ later, l.sent = l.cam.managed ++ later ∧
    (∀ p ∈ later, Sized p) ∧
    (l.cam.closed = false → ∃ partly, Receives host l.cam later partly ∧
      partly ++ (l.pipe ++ unsent) = later.flatMap (frame host))

theorem Synced.carries (h : Synced host l) : l.Carries := by
  obtain ⟨-, -, unsent, hsends, later, hsent, hsized, hopen⟩ := h
  refine ⟨hsent ▸ List.prefix_append _ _, ?_⟩
  rintro hclosed ⟨hpipe, hstate, hremaining⟩
  obtain ⟨partly, hreceives, hframes⟩ := hopen hclosed
  have hunsent : unsent = [] := by
    cases hsends with
    | size id p k hsize => simp [hsize] at hstate
    | data id p k hdata hm hpicture hp hbuf hk =>
      simp only [DataBuf.remaining, hbuf] at hremaining
      omega
    | idle => rfl
  rw [hpipe, hunsent, List.append_nil, List.append_nil] at hframes
  have hlong := sizeof_long_pos host
  have hlater : later = [] := by
    cases hreceives with
    | size later hcam hsize hlen =>
      cases later with
      | nil => rfl
      | cons p later =>
        have hlength := congrArg List.length hframes
        simp only [List.flatMap_cons, frame, List.length_append, length_longBytes] at hlength
        omega
    | data p later hcam hpic hsize hlen hp =>
      have hlength := congrArg List.length hframes
      simp only [List.flatMap_cons, frame, List.length_append, length_longBytes] at hlength
      rw [hp.size] at hlen
      omega
  rw [hsent, hlater, List.append_nil]

theorem next_sends {m : Manager} {users : ℤ → ℕ} {cinfo : ClientInfo} (writeset : SockSet)
    (hcounted : Counted m users) (hsized : ∀ p ∈ m.pictures, Sized p)
    (hstate : cinfo.state = .PICTURE) (hremaining : cinfo.writebuf.remaining = 0)
    (hdata : cinfo.writebuf.data_p = cinfo.writebuf.buffer_size) :
    let w := next_proxy_picture host m cinfo writeset
    Counted w.manager (fun id => users id + if w.cinfo.management_data = some id then 1 else 0) ∧
      w.manager.pictures = m.pictures ∧ ∃ more, (∀ p ∈ more, Sized p) ∧
        Sends host w.manager w.cinfo (more.flatMap (frame host)) ∧
        (if w.cinfo.state = .SENDSIZE then (w.manager.picture w.cinfo.last_picture_id).toList
          else []) = more := by
  unfold next_proxy_picture
  split
  next m' cinfo' hnew =>
    obtain ⟨rfl, hcounted', -, hpictures⟩ := new_picture_none hcounted hnew
    refine ⟨by simpa using hcounted', hpictures, [], by simp, ?_, by simp [hstate]⟩
    exact .idle hstate rfl hremaining hdata
  next bin m' cinfo' hnew =>
    obtain ⟨rfl, -, -, hcounted', hpicture, hpictures, hbin⟩ := new_picture_some hcounted hnew
    have hp := hsized _ (mem_pictures_of_picture hbin)
    rw [← hpicture] at hbin
    refine ⟨?_, hpictures, [(bin.picture_data, bin.picture_size)], by simpa using hp, ?_, ?_⟩
    · have husers : (fun id => users id + if some bin.picture_id = some id then 1 else 0) =
          Function.update users bin.picture_id (users bin.picture_id + 1) := by
        funext id
        rw [Function.update_apply]
        by_cases hid : id = bin.picture_id
        · simp [hid]
        · simp [hid, Ne.symm hid]
      exact husers ▸ hcounted'
    · have hframe : [(bin.picture_data, bin.picture_size)].flatMap (frame host) =
          (longBytes host (htonl host bin.picture_size)).drop 0 ++ bin.picture_data := by
        simp [frame]
      rw [hframe]
      exact .size bin.picture_id (bin.picture_data, bin.picture_size) 0 rfl rfl hbin hp rfl rfl rfl
        (sizeof_long_pos host)
    · simp [hbin]

theorem write_proxy_client_more {m : Manager} {cinfo : ClientInfo} {writeset : SockSet} {res : ℕ}
    (h : (cinfo.writebuf.advance res).data_p ≠ cinfo.writebuf.buffer_size) :
    write_proxy_client host m cinfo writeset (some res) =
      ⟨m, { cinfo with writebuf := cinfo.writebuf.advance res }, writeset, .ok⟩ := by
  simp only [write_proxy_client, DataBuf.databuf_write_more h]

theorem write_proxy_client_done {m : Manager} {cinfo : ClientInfo} {writeset : SockSet} {res : ℕ}
    (h : (cinfo.writebuf.advance res).data_p = cinfo.writebuf.buffer_size) :
    write_proxy_client host m cinfo writeset (some res) =
      if cinfo.state = .SENDSIZE then
        ⟨m, { cinfo with
          writebuf := databuf_buf_set cinfo.proxypic_data (ntohl host cinfo.proxypic_size)
          state := .PICTURE }, writeset, .ok⟩
      else next_proxy_picture host (cinfo.management_data.elim m (manager_dest_client m))
        { cinfo with writebuf := cinfo.writebuf.advance res } writeset := by
  simp only [write_proxy_client, DataBuf.databuf_write_done h]

theorem finish_sends {m : Manager} (hcounted : Counted m l.others)
    (hsized : ∀ p ∈ m.pictures, Sized p) (hstate : l.cinfo.state = .PICTURE) {res : ℕ}
    (hdone : (l.cinfo.writebuf.advance res).data_p = l.cinfo.writebuf.buffer_size)
    (hm : l.cinfo.management_data.elim l.manager (manager_dest_client l.manager) = m)
    {unsent : List Byte} (hunsent : l.cinfo.writebuf.taken
      (contents host l.manager l.cinfo.proxypic_size l.cinfo.writebuf.buffer) res = unsent) :
    let w := l.write host res
    Counted w.manager w.users ∧ (∀ p ∈ w.manager.pictures, Sized p) ∧
      ∃ more, (∀ p ∈ more, Sized p) ∧ w.sent = l.sent ++ more ∧
        ∃ unsent' taken, w.pipe = l.pipe ++ taken ∧ Sends host w.manager w.cinfo unsent' ∧
          taken ++ unsent' = unsent ++ more.flatMap (frame host) := by
  have hw := @write_proxy_client_done host l.manager l.cinfo l.writeset res hdone
  have hremaining : (l.cinfo.writebuf.advance res).remaining = 0 := by
    simp only [DataBuf.remaining, hdone]
    simp [DataBuf.advance]
  obtain ⟨hcounted', hpictures, more, hmore, hsends', hchosen⟩ := @next_sends host m l.others
    { l.cinfo with writebuf := l.cinfo.writebuf.advance res } l.writeset hcounted hsized
    hstate hremaining hdone
  rw [hm, if_neg (by simp [hstate])] at hw
  intro w
  have hwrite : w = l.write host res := rfl
  simp only [Link.write, hw] at hwrite
  rw [hwrite]
  refine ⟨hcounted', hpictures ▸ hsized, more, hmore, ?_, _, _, rfl, hsends', by rw [hunsent]⟩
  rw [← hchosen]
  simp [hstate]

theorem write_sends (h : Synced host l) (res : ℕ) {unsent : List Byte}
    (hsends : Sends host l.manager l.cinfo unsent) :
    let w := l.write host res
    Counted w.manager w.users ∧ (∀ p ∈ w.manager.pictures, Sized p) ∧
      ∃ more, (∀ p ∈ more, Sized p) ∧ w.sent = l.sent ++ more ∧
        ∃ unsent' taken, w.pipe = l.pipe ++ taken ∧ Sends host w.manager w.cinfo unsent' ∧
          taken ++ unsent' = unsent ++ more.flatMap (frame host) := by
  have hcounted := h.counted
  have hsized := h.sized
  have htaken := l.cinfo.writebuf.taken_append_drop
    (contents host l.manager l.cinfo.proxypic_size l.cinfo.writebuf.buffer) res
  by_cases hdone : (l.cinfo.writebuf.advance res).data_p = l.cinfo.writebuf.buffer_size
  · cases hsends with
    | size id p k hstate hm hpicture hp hpic hpicsize hbuf hk =>
      have hw := @write_proxy_client_done host l.manager l.cinfo l.writeset res hdone
      rw [if_pos hstate, hpic, hpicsize, ntohl_htonl host (hp.size ▸ hp.lt), hp.size] at hw
      have hcontents : contents host l.manager l.cinfo.proxypic_size .picsize =
          longBytes host (htonl host p.2) := by
        rw [contents, hpicsize]
      rw [hdone, hbuf, hcontents, ← length_longBytes host (htonl host p.2), List.drop_length,
        List.append_nil, length_longBytes] at htaken
      intro w
      have hwrite : w = l.write host res := rfl
      simp only [Link.write, hw, hbuf, hcontents, htaken] at hwrite
      rw [hwrite]
      refine ⟨hcounted, hsized, [], by simp, by simp [hstate], p.1, _, rfl, ?_, by simp⟩
      exact .data id p 0 rfl hm hpicture hp rfl (Nat.lt_of_lt_of_le Nat.zero_lt_one hp.pos)
    | data id p k hstate hm hpicture hp hbuf hk =>
      have hcounted' := hcounted.dest_client (show l.users id ≠ 0 by simp [users, hm])
      have husers : Function.update l.users id (l.users id - 1) = l.others := by
        funext id'
        rw [Function.update_apply]
        split_ifs with hid
        · simp [users, hm, hid]
        · simp [users, hm, Ne.symm hid]
      rw [husers] at hcounted'
      apply finish_sends hcounted' (by rw [pictures_dest_client]; exact hsized) hstate hdone
        (by rw [hm]; rfl)
      have hcontents : contents host l.manager l.cinfo.proxypic_size (.picture id) = p.1 := by
        rw [contents, hpicture]
        rfl
      rw [hdone, hbuf, hcontents, List.drop_length, List.append_nil] at htaken
      rw [hbuf, hcontents, htaken]
    | idle hstate hm hremaining hdata =>
      have husers : l.users = l.others := by
        funext id
        simp [users, hm]
      rw [husers] at hcounted
      apply finish_sends hcounted hsized hstate hdone (by rw [hm]; rfl)
      simp [DataBuf.taken, hremaining]
  · have hw := @write_proxy_client_more host l.manager l.cinfo l.writeset res hdone
    intro w
    have hwrite : w = { l with
        cinfo := { l.cinfo with writebuf := l.cinfo.writebuf.advance res }
        pipe := l.pipe ++ l.cinfo.writebuf.taken
          (contents host l.manager l.cinfo.proxypic_size l.cinfo.writebuf.buffer) res } := by
      simp only [w, Link.write, hw]
      simp
    rw [hwrite]
    refine ⟨hcounted, hsized, [], by simp, by simp, ?_⟩
    simp only [List.flatMap_nil, List.append_nil]
    have hle : ∀ {k n size : ℕ}, k < size → k + min n (size - k) ≠ size →
        k + min n (size - k) < size := by omega
    cases hsends with
    | size id p k hstate hm hpicture hp hpic hpicsize hbuf hk =>
      have hcontents : contents host l.manager l.cinfo.proxypic_size .picsize =
          longBytes host (htonl host p.2) := by
        rw [contents, hpicsize]
      simp only [hbuf, DataBuf.advance, hcontents] at htaken hdone ⊢
      refine ⟨_, _, rfl, .size id p _ hstate hm hpicture hp hpic hpicsize rfl (hle hk hdone), ?_⟩
      rw [← List.append_assoc, htaken]
    | data id p k hstate hm hpicture hp hbuf hk =>
      have hcontents : contents host l.manager l.cinfo.proxypic_size (.picture id) = p.1 := by
        rw [contents, hpicture]
        rfl
      simp only [hbuf, DataBuf.advance, hcontents] at htaken hdone ⊢
      exact ⟨_, _, rfl, .data id p _ hstate hm hpicture hp rfl (hle hk hdone), htaken⟩
    | idle hstate hm hremaining hdata =>
      exact absurd (by simp [DataBuf.advance, hremaining, hdata]) hdone

namespace Synced

variable (h : Synced host l)
include h

theorem write (res : ℕ) : Synced host (l.write host res) := by
  obtain ⟨unsent, hsends, later, hsent, hsized, hopen⟩ := h.later
  obtain ⟨hcounted, hpictures, more, hmore, hsent', unsent', taken, hpipe, hsends', htaken⟩ :=
    write_sends h res hsends
  refine ⟨hcounted, hpictures, unsent', hsends', later ++ more, ?_, ?_, fun hclosed => ?_⟩
  · rw [hsent', hsent, List.append_assoc]
    rfl
  · intro p hp
    exact (List.mem_append.mp hp).elim (hsized p) (hmore p)
  · obtain ⟨partly, hreceives, hframes⟩ := hopen hclosed
    refine ⟨partly, hreceives.append more, ?_⟩
    rw [hpipe, List.append_assoc, htaken, List.flatMap_append, ← hframes]
    simp only [List.append_assoc]

theorem read (count : ℕ) (malloc manages : Bool) :
    Synced host (l.read host count malloc manages) := by
  obtain ⟨unsent, hsends, later, hsent, hsized, hopen⟩ := h.later
  unfold Link.read
  dsimp only
  split_ifs with hidle
  · exact h
  rw [not_or, Bool.not_eq_true] at hidle
  obtain ⟨partly, hreceives, hframes⟩ := hopen hidle.1
  have hlen : (l.pipe.take (min count (l.cam.readbuf_size - l.cam.readbuf.length))).length ≤
      l.cam.readbuf_size - l.cam.readbuf.length := by
    rw [List.length_take]
    omega
  have hsplit := List.prefix_iff_eq_append.mp (List.take_prefix
    (min count (l.cam.readbuf_size - l.cam.readbuf.length)) l.pipe)
  rw [← hsplit, List.append_assoc] at hframes
  obtain ⟨later', hlater, hsized', hopen'⟩ := hreceives.read hsized malloc manages hlen hframes
  exact ⟨h.counted, h.sized, unsent, hsends, later', hsent.trans hlater, hsized', hopen'⟩

theorem of_manager {m : Manager} {others : ℤ → ℕ}
    (hcounted : Counted m ({ l with manager := m, others := others } : Link).users)
    (hpicture : ∀ id, l.cinfo.management_data = some id → m.picture id = l.manager.picture id)
    (hsized : ∀ p ∈ m.pictures, Sized p) :
    Synced host { l with manager := m, others := others } := by
  obtain ⟨unsent, hsends, hlater⟩ := h.later
  refine ⟨hcounted, hsized, unsent, ?_, hlater⟩
  cases hsends with
  | size id p k hstate hm hp hsize hpic hpicsize hbuf hk =>
    exact .size id p k hstate hm ((hpicture id hm).trans hp) hsize hpic hpicsize hbuf hk
  | data id p k hstate hm hp hsize hbuf hk =>
    exact .data id p k hstate hm ((hpicture id hm).trans hp) hsize hbuf hk
  | idle hstate hm hremaining hdata => exact .idle hstate hm hremaining hdata

theorem new_picture (data : SizedPicture) : Synced host (l.step host (.new_picture data)) := by
  apply h.of_manager (h.counted.new_picture data _)
  · intro id hid
    apply h.counted.picture_new_picture
    simp [users, hid]
  · intro p hp
    rcases mem_pictures_new_picture hp with rfl | hp
    · exact ⟨rfl, data.2.1, data.2.2⟩
    · exact h.sized p hp

theorem other_new_client : Synced host (l.step host .other_new_client) := by
  unfold step
  dsimp only
  split
  next => exact h
  next bin m hclient =>
    apply h.of_manager
    · have husers : Function.update l.users bin.picture_id (l.users bin.picture_id + 1) =
          ({ l with
            manager := m
            others := Function.update l.others bin.picture_id (l.others bin.picture_id + 1) } :
            Link).users := by
        funext id
        by_cases hid : id = bin.picture_id
        · subst hid
          simp only [users, Function.update_self]
          omega
        · simp only [users, Function.update_of_ne hid]
      exact husers ▸ h.counted.new_client hclient
    · exact fun id _ => picture_new_client h.counted hclient id
    · rw [pictures_new_client h.counted hclient]
      exact h.sized

theorem other_dest_client (id : ℤ) : Synced host (l.step host (.other_dest_client id)) := by
  unfold step
  dsimp only
  split_ifs with hzero
  · exact h
  apply h.of_manager
  · have husers : Function.update l.users id (l.users id - 1) =
        ({ l with
          manager := manager_dest_client l.manager id
          others := Function.update l.others id (l.others id - 1) } : Link).users := by
      funext id'
      by_cases hid : id' = id
      · subst hid
        simp only [users, Function.update_self]
        omega
      · simp only [users, Function.update_of_ne hid]
    refine husers ▸ h.counted.dest_client ?_
    simp only [users]
    omega
  · exact fun id' _ => picture_dest_client l.manager id id'
  · rw [pictures_dest_client]
    exact h.sized

theorem step (a : LinkAction) : Synced host (l.step host a) := by
  cases a with
  | new_picture data => exact h.new_picture data
  | other_new_client => exact h.other_new_client
  | other_dest_client id => exact h.other_dest_client id
  | write res => exact h.write res
  | read count malloc manages => exact h.read count malloc manages

end Synced

theorem synced_start (sock : Socket) (writeset : SockSet) :
    Synced host (start host sock writeset) := by
  have husers : (start host sock writeset).users = fun _ => 0 := rfl
  refine ⟨husers ▸ counted_start, by simp [start, manager_start, Manager.pictures], [],
    .idle rfl rfl rfl rfl, [], rfl, by simp, fun _ => ⟨[], ?_, rfl⟩⟩
  exact .size [] rfl rfl (sizeof_long_pos host)

end Link

end NaviMisc.Camserv
