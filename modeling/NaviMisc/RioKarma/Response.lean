import NaviMisc.RioKarma.Request

/-!
The replies to the requests of `RioKarma/Request.py`, and what a request that is
somewhere in the middle of its reply still expects.
-/

namespace NaviMisc.RioKarma.Pearl

open Lib.ByteOrder (load store)
open Property (Str Fault Word NUL)

inductive Reply : Request → List Arg → Str → Value → Prop
  | protocolVersion (major minor : ℕ) :
    Reply .getProtocolVersion [.int major, .int minor] [] (.args [.int major, .int minor])
  | authenticationSalt (salt : Str) : Reply .getAuthenticationSalt [.str salt] [] (.arg (.str salt))
  | readAccess : Reply .authenticate [.int 0, .int 0] [] (.accessRights ["read"])
  | writeAccess : Reply .authenticate [.int 0, .int 1] [] (.accessRights ["read", "write"])
  | deviceDetails (name version : Str) (numStorageDevices : ℕ) :
    Reply .getDeviceDetails [.str name, .str version, .int numStorageDevices] []
      (.deviceDetails (name.filter (· ≠ NUL)) (version.filter (· ≠ NUL)) numStorageDevices)
  | storageDetails (numFiles totalSpace freeSpace highestFileID : ℕ) :
    Reply .getStorageDetails
      [.int 0, .int numFiles, .int totalSpace, .int freeSpace, .int highestFileID] []
      (.storageDetails numFiles totalSpace freeSpace highestFileID)
  | deviceSettings {text : Str} {d : Destination} (hnul : NUL ∉ text)
    (h : Destination.write (.properties ⟨[], ∅⟩) text = .ok d) :
    Reply .getDeviceSettings [.int 0] (aligned text) d.result
  | lockRequested : Reply .requestIOLock [.int 0] [] .none
  | lockReleased : Reply .releaseIOLock [.int 0] [] .none
  | chunkWritten : Reply .writeFileChunk [.int 0] [] .none
  | allFileDetails {text : Str} {d : Destination} (hnul : NUL ∉ text)
    (h : Destination.write (.fileDatabase ⟨[], ∅, []⟩) text = .ok d) :
    Reply .getAllFileDetails [.int 0] (aligned text) d.result
  | fileDetails {storage : Finmap Property.Value} {text : Str} {d : Destination} (hnul : NUL ∉ text)
    (h : Destination.write (.properties ⟨[], storage⟩) text = .ok d) :
    Reply (.getFileDetails storage) [.int 0] (aligned text) d.result
  | detailsUpdated : Reply .updateFileDetails [.int 0] [] .none
  | fileChunk (data pad : Str) (h : pad.length = padding data.length) :
    Reply .readFileChunk [.int data.length, .int 0] (data ++ pad ++ store .little (n := 4) 0)
      (.transferred data.length)
  | deleted : Reply .deleteFile [] [] .none

/-- A request with the reply that it gets, after some packets of `Busy`. -/
structure Entry where
  request : Request
  busies : List (Word × Word)
  args : List Arg
  rest : Str
  value : Value
  reply : Reply request args rest value
  fits : List.Forall₂ Field.Fits request.responseFormat args

namespace Entry

def body (e : Entry) : Str := pack e.request.responseFormat e.args ++ e.rest

def header (id : Word) : Str := Request.MAGIC ++ store .little (n := 4) id

def packets (e : Entry) : List (Word × Word) → Str
  | [] => header e.request.id ++ e.body
  | (step, numSteps) :: busies =>
    header 2 ++ (store .little (n := 4) step ++ store .little (n := 4) numSteps ++ packets e busies)

def wire (e : Entry) : Str := e.packets e.busies

def outcome (e : Entry) : Except Failure Value :=
  match e.request, e.value with
  | .deleteFile, _ => .error (.fault .indexError)
  | .readFileChunk, .transferred size => .ok (.transferred (size + padding size))
  | _, value => .ok value

end Entry

section receivedResponse

variable {request : Request} {args : List Arg} {rest : Str} {value : Value}

structure ReadsText (rest : Str) (value : Value) (d₀ d : Destination) (text : Str) : Prop where
  nul : NUL ∉ text
  empty : d₀.write [] = .ok d₀
  write : d₀.write text = .ok d
  rest_eq : rest = aligned text
  value_eq : value = d.result

inductive Received (request : Request) (args : List Arg) (rest : Str) (value : Value) : Prop
  | result (h : request.receivedResponse args = .ok (.inr value)) (hrest : rest = [])
    (hdelete : request ≠ .deleteFile) (hchunk : request ≠ .readFileChunk)
  | text {d₀ d : Destination} {text : Str}
    (h : request.receivedResponse args = .ok (.inl (readText d₀))) (ht : ReadsText rest value d₀ d text)
    (hdelete : request ≠ .deleteFile) (hchunk : request ≠ .readFileChunk)
  | chunk {data pad : Str} (hrequest : request = .readFileChunk)
    (h : request.receivedResponse args = .ok (.inl (.readChunk (.init data.length 16384 (by decide)) [])))
    (hpad : pad.length = padding data.length) (hrest : rest = data ++ pad ++ store .little (n := 4) 0)
    (hvalue : value = .transferred data.length)
  | missing (hrequest : request = .deleteFile)
    (h : request.receivedResponse args = .error (.fault .indexError)) (hrest : rest = [])

theorem Reply.received (h : Reply request args rest value) : Received request args rest value := by
  cases h with
  | protocolVersion => exact .result rfl rfl nofun nofun
  | authenticationSalt => exact .result rfl rfl nofun nofun
  | readAccess => exact .result rfl rfl nofun nofun
  | writeAccess => exact .result rfl rfl nofun nofun
  | deviceDetails => exact .result rfl rfl nofun nofun
  | storageDetails => exact .result rfl rfl nofun nofun
  | deviceSettings hnul hwrite => exact .text rfl ⟨hnul, rfl, hwrite, rfl, rfl⟩ nofun nofun
  | lockRequested => exact .result rfl rfl nofun nofun
  | lockReleased => exact .result rfl rfl nofun nofun
  | chunkWritten => exact .result rfl rfl nofun nofun
  | allFileDetails hnul hwrite => exact .text rfl ⟨hnul, rfl, hwrite, rfl, rfl⟩ nofun nofun
  | fileDetails hnul hwrite => exact .text rfl ⟨hnul, rfl, hwrite, rfl, rfl⟩ nofun nofun
  | detailsUpdated => exact .result rfl rfl nofun nofun
  | fileChunk data pad hpad => exact .chunk rfl rfl hpad rfl rfl
  | deleted => exact .missing rfl rfl rfl

end receivedResponse

theorem Destination.write_append (d : Destination) (a b : Str) :
    d.write (a ++ b) = d.write a >>= fun d => d.write b := by
  cases d with
  | properties writer =>
    rw [Destination.write, Destination.write, Property.write_append]
    cases writer.write Property.PropertyFileWriter.writeLine a <;> rfl
  | fileDatabase writer =>
    rw [Destination.write, Destination.write, Property.write_append]
    cases writer.write Property.FileDatabaseWriter.writeLine a <;> rfl

inductive Expects (e : Entry) : State → Str → Str → Prop
  | header {responseBuffer w : Str} (busies : List (Word × Word)) (hlt : responseBuffer.length < 8)
    (h : responseBuffer ++ w = e.packets busies) : Expects e .beginResponse responseBuffer w
  | busy {responseBuffer w status : Str} (busies : List (Word × Word)) (hlt : responseBuffer.length < 8)
    (hstatus : status.length = 8) (h : responseBuffer ++ w = status ++ e.packets busies) :
    Expects e .busyReply responseBuffer w
  | body {responseBuffer w : Str}
    (hle : responseBuffer = [] ∨ responseBuffer.length < calcsize e.request.responseFormat)
    (h : responseBuffer ++ w = e.body) : Expects e .normalReply responseBuffer w
  | text {w : Str} {d₀ d : Destination} {text : Str} {reader : AlignedStringReader}
    {destination : Destination} {p : ℕ} (ht : ReadsText e.rest e.value d₀ d text)
    (hdelete : e.request ≠ .deleteFile) (hchunk : e.request ≠ .readFileChunk)
    (hat : AlignedStringReader.At Destination.write d₀ text p reader destination)
    (h : w = (aligned text).drop p) : Expects e (.readText reader destination) [] w
  | chunk {w data pad destination : Str} {reader : AlignedBlockReader} {p : ℕ}
    (hrequest : e.request = .readFileChunk) (hpad : pad.length = padding data.length)
    (hvalue : e.value = .transferred data.length)
    (hat : AlignedBlockReader.At (.init data.length 16384 (by decide)) p reader destination)
    (h : w = (data ++ pad).drop p ++ store .little (n := 4) 0) :
    Expects e (.readChunk reader destination) [] w
  | status {responseBuffer w : Str} {size : ℕ} (hrequest : e.request = .readFileChunk)
    (hvalue : e.value = .transferred size) (hlt : responseBuffer.length < 4)
    (h : responseBuffer ++ w = store .little (n := 4) 0) :
    Expects e (.finalStatus (size + padding size)) responseBuffer w

section fill

variable {size : ℕ} {state : State} {responseBuffer w pre rest file future later : Str}
  {full : Str → Str → Turn}

theorem fill_spec (hle : responseBuffer.length ≤ size) (hlength : pre.length = size)
    (hw : responseBuffer ++ w = pre ++ rest) (hfile : file ++ future = w ++ later) :
    (∃ file', fillResponseBuffer size state responseBuffer file full = full pre file' ∧
      file' ++ future = rest ++ later ∧
      (responseBuffer.length < size → file'.length < file.length)) ∨
    ∃ w', fillResponseBuffer size state responseBuffer file full =
        ⟨state, responseBuffer ++ file, [], none⟩ ∧
      (responseBuffer ++ file).length < size ∧ responseBuffer ++ file ++ w' = pre ++ rest ∧
      future = w' ++ later := by
  have hall : (responseBuffer ++ file) ++ future = pre ++ (rest ++ later) := by
    rw [List.append_assoc, hfile, ← List.append_assoc, hw, List.append_assoc]
  by_cases henough : size ≤ responseBuffer.length + file.length
  · left
    obtain ⟨htake, hdrop⟩ := Lib.Lists.take_drop_of_append_eq hall (by
      rw [hlength, List.length_append]
      exact henough)
    rw [hlength, List.take_append, List.take_of_length_le hle] at htake
    rw [hlength, List.drop_append, List.drop_of_length_le hle, List.nil_append] at hdrop
    refine ⟨file.drop (size - responseBuffer.length), ?_, hdrop, ?_⟩
    · rw [fillResponseBuffer]
      simp only [htake, hlength, gt_iff_lt, lt_irrefl, if_false, if_true]
    · intro hlt
      rw [List.length_drop]
      omega
  · right
    have hwlength := congrArg List.length hw
    rw [List.length_append, List.length_append, hlength] at hwlength
    obtain ⟨htake, hdrop⟩ := Lib.Lists.take_drop_of_append_eq hfile.symm (by omega : file.length ≤ w.length)
    have hsplit : file ++ w.drop file.length = w := by
      have hcut := List.take_append_drop file.length w
      rwa [htake] at hcut
    refine ⟨w.drop file.length, ?_, ?_, ?_, hdrop.symm⟩
    · have hfit : file.length ≤ size - responseBuffer.length := by omega
      have hshort : (responseBuffer ++ file).length < size := by
        rw [List.length_append]
        omega
      rw [fillResponseBuffer]
      simp only [List.take_of_length_le hfit, List.drop_of_length_le hfit]
      rw [if_neg (not_lt.mpr hshort.le), if_neg hshort.ne]
    · rw [List.length_append]
      omega
    · rw [List.append_assoc, hsplit, hw]

end fill

def State.rank : State → ℕ
  | .readChunk _ _ => 1
  | _ => 0

def State.work (state : State) (file : Str) : ℕ := 2 * file.length + state.rank

inductive Goes (e : Entry) (state : State) (file future later : Str) (turn : Turn) : Prop
  | fires (hfired : turn.fired = some e.outcome) (hfile : turn.file ++ future = later)
  | goes {w : Str} (hfired : turn.fired = none) (hexpects : Expects e turn.state turn.responseBuffer w)
    (hfile : turn.file ++ future = w ++ later) (hempty : file = [] → turn.file = [] ∧ w ≠ [])
    (hwork : file ≠ [] → turn.state.work turn.file < state.work file)

section turn

variable {e : Entry} {responseBuffer file future later w : Str}

theorem length_header (id : Word) : (Entry.header id).length = 8 := rfl

theorem starts_with_magic (id : Word) : Request.MAGIC <+: Entry.header id := List.prefix_append _ _

theorem load_header (id : Word) : load .little 4 ((Entry.header id).drop 4) = id := by
  have hdrop : (Entry.header id).drop 4 = store .little (n := 4) id := rfl
  rw [hdrop]
  exact Lib.ByteOrder.load_store .little (n := 4) id

theorem Request.id_ne (request : Request) : (2 : Word) ≠ request.id := by
  cases request with
  | getFileDetails storage => exact of_decide_eq_true rfl
  | _ => decide

theorem ne_nil_of_lt {l l' : Str} (h : l'.length < l.length) : l ≠ [] := by
  rintro rfl
  exact absurd h (Nat.not_lt_zero _)

theorem goes_of_shorter {state : State} {turn : Turn} (hfired : turn.fired = none)
    (hexpects : Expects e turn.state turn.responseBuffer w)
    (hfile : turn.file ++ future = w ++ later) (hshorter : turn.file.length < file.length) :
    Goes e state file future later turn := by
  refine .goes hfired hexpects hfile (fun hnil => absurd hnil (ne_nil_of_lt hshorter)) (fun _ => ?_)
  have hrank : turn.state.rank ≤ 1 := by
    cases turn.state with
    | readChunk => exact le_rfl
    | _ => exact Nat.zero_le 1
  rw [State.work, State.work]
  omega

theorem goes_of_short {state : State} {size : ℕ} {pre : Str} (hstate : state.rank = 0)
    (hexpects : ∀ w, responseBuffer ++ file ++ w = pre → Expects e state (responseBuffer ++ file) w)
    (hshort : (responseBuffer ++ file).length < size) (hlength : size ≤ pre.length)
    (hw : responseBuffer ++ file ++ w = pre) (hfuture : future = w ++ later) :
    Goes e state file future later ⟨state, responseBuffer ++ file, [], none⟩ := by
  have hne : w ≠ [] := by
    rintro rfl
    rw [List.append_nil] at hw
    rw [hw] at hshort
    omega
  refine .goes rfl (hexpects w hw) hfuture (fun _ => ⟨rfl, hne⟩) (fun hfile => ?_)
  have hpos := List.length_pos_of_ne_nil hfile
  rw [State.work, State.work, hstate, List.length_nil]
  omega

theorem beginResponse_goes {busies : List (Word × Word)} (hlt : responseBuffer.length < 8)
    (hw : responseBuffer ++ w = e.packets busies) (hfile : file ++ future = w ++ later) :
    Goes e .beginResponse file future later (state_beginResponse e.request responseBuffer file) := by
  obtain ⟨id, rest, hpackets, hnext⟩ : ∃ id rest, e.packets busies = Entry.header id ++ rest ∧
      ((id = e.request.id ∧ rest = e.body) ∨
        (id = 2 ∧ ∃ status busies, status.length = 8 ∧ rest = status ++ e.packets busies)) := by
    cases busies with
    | nil => exact ⟨e.request.id, e.body, rfl, .inl ⟨rfl, rfl⟩⟩
    | cons busy busies =>
      refine ⟨2, _, rfl, .inr ⟨rfl, store .little (n := 4) busy.1 ++ store .little (n := 4) busy.2,
        busies, rfl, ?_⟩⟩
      rw [List.append_assoc]
  rw [state_beginResponse]
  rcases fill_spec hlt.le (length_header id) (hpackets ▸ hw) hfile with
    ⟨file', hfill, hfile', hshorter⟩ | ⟨w', hfill, hshort, hw', hfuture⟩
  · rw [hfill, if_neg (not_not.mpr (starts_with_magic id)), load_header]
    rcases hnext with ⟨rfl, rfl⟩ | ⟨rfl, status, busies', hstatus, rfl⟩
    · rw [if_pos rfl]
      exact goes_of_shorter rfl (.body (.inl rfl) rfl) hfile' (hshorter hlt)
    · rw [if_neg e.request.id_ne, if_neg (by decide), if_pos rfl]
      exact goes_of_shorter rfl (.busy busies' (Nat.succ_pos 7) hstatus rfl) hfile' (hshorter hlt)
  · rw [hfill]
    rw [← hpackets] at hw'
    have hlong : 8 ≤ (e.packets busies).length := by
      rw [hpackets, List.length_append, length_header]
      exact Nat.le_add_right _ _
    exact goes_of_short rfl (fun w hw => .header busies hshort hw) hshort hlong hw' hfuture

theorem busyReply_goes {status : Str} {busies : List (Word × Word)} (hlt : responseBuffer.length < 8)
    (hstatus : status.length = 8) (hw : responseBuffer ++ w = status ++ e.packets busies)
    (hfile : file ++ future = w ++ later) :
    Goes e .busyReply file future later (state_busyReply responseBuffer file) := by
  rw [state_busyReply]
  rcases fill_spec hlt.le hstatus hw hfile with
    ⟨file', hfill, hfile', hshorter⟩ | ⟨w', hfill, hshort, hw', hfuture⟩
  · rw [hfill]
    exact goes_of_shorter rfl (.header busies (Nat.succ_pos 7) rfl) hfile' (hshorter hlt)
  · rw [hfill]
    have hlong : 8 ≤ (status ++ e.packets busies).length := by
      rw [List.length_append, hstatus]
      exact Nat.le_add_right _ _
    exact goes_of_short rfl (fun w hw => .busy busies hshort hstatus hw) hshort hlong hw' hfuture

theorem finalStatus_goes {size : ℕ} (hrequest : e.request = .readFileChunk)
    (hvalue : e.value = .transferred size) (hlt : responseBuffer.length < 4)
    (hw : responseBuffer ++ w = store .little (n := 4) 0) (hfile : file ++ future = w ++ later) :
    Goes e (.finalStatus (size + padding size)) file future later
      (state_finalStatus (size + padding size) responseBuffer file) := by
  have hpre : responseBuffer ++ w = store .little (n := 4) 0 ++ [] := by rw [hw, List.append_nil]
  have hload : (load .little 4 (store .little (n := 4) 0)).toNat = 0 := rfl
  rw [state_finalStatus]
  rcases fill_spec hlt.le (Lib.ByteOrder.length_store .little _) hpre hfile with
    ⟨file', hfill, hfile', -⟩ | ⟨w', hfill, hshort, hw', hfuture⟩
  · rw [hfill, hload]
    refine .fires ?_ hfile'
    rw [Entry.outcome, hrequest, hvalue]
    rfl
  · rw [hfill]
    rw [List.append_nil] at hw'
    exact goes_of_short rfl (fun w hw => .status hrequest hvalue hshort hw) hshort le_rfl hw' hfuture

theorem outcome_of_ne (hdelete : e.request ≠ .deleteFile) (hchunk : e.request ≠ .readFileChunk) :
    e.outcome = .ok e.value := by
  rw [Entry.outcome]
  split
  · exact absurd ‹_› hdelete
  · exact absurd ‹_› hchunk
  · rfl

theorem calcsize_pos {request : Request} (h : request ≠ .deleteFile) :
    0 < calcsize request.responseFormat := by
  cases request with
  | deleteFile => exact absurd rfl h
  | getFileDetails storage => exact Nat.succ_pos 3
  | _ => decide

theorem normalReply_goes
    (hle : responseBuffer = [] ∨ responseBuffer.length < calcsize e.request.responseFormat)
    (hw : responseBuffer ++ w = e.body) (hfile : file ++ future = w ++ later) :
    Goes e .normalReply file future later (state_normalReply e.request responseBuffer file) := by
  have hle' : responseBuffer.length ≤ calcsize e.request.responseFormat := by
    rcases hle with rfl | hlt
    · exact Nat.zero_le _
    · exact hlt.le
  rw [state_normalReply]
  rcases fill_spec hle' (length_pack e.fits) hw hfile with
    ⟨file', hfill, hfile', hshorter⟩ | ⟨w', hfill, hshort, hw', hfuture⟩
  · rw [hfill, unpack_pack e.fits]
    have hlt : e.request ≠ .deleteFile → file'.length < file.length := by
      intro hdelete
      apply hshorter
      rcases hle with rfl | hlt
      · exact calcsize_pos hdelete
      · exact hlt
    cases e.reply.received with
    | result h hrest hdelete hchunk =>
      rw [h]
      rw [hrest] at hfile'
      exact .fires (congrArg some (outcome_of_ne hdelete hchunk).symm) hfile'
    | @text d₀ d text h ht hdelete hchunk =>
      rw [h]
      have hat : AlignedStringReader.At Destination.write d₀ text 0 .init d₀ :=
        ⟨Nat.zero_le _, rfl, rfl, ht.empty⟩
      have hexpects : Expects e (readText d₀) [] e.rest :=
        .text ht hdelete hchunk hat ht.rest_eq
      exact goes_of_shorter rfl hexpects hfile' (hlt hdelete)
    | chunk hrequest h hpad hrest hvalue =>
      rw [h]
      have hdelete : e.request ≠ .deleteFile := by
        rw [hrequest]
        exact nofun
      exact goes_of_shorter rfl (.chunk hrequest hpad hvalue ⟨Nat.zero_le _, rfl⟩ hrest) hfile'
        (hlt hdelete)
    | missing hrequest h hrest =>
      rw [h]
      rw [hrest] at hfile'
      refine .fires ?_ hfile'
      rw [Entry.outcome, hrequest]
  · rw [hfill]
    have hlong : calcsize e.request.responseFormat ≤ e.body.length := by
      rw [Entry.body, List.length_append, length_pack e.fits]
      exact Nat.le_add_right _ _
    exact goes_of_short rfl (fun w hw => .body (.inr hshort) hw) hshort hlong hw' hfuture

theorem source_eq_nil {source : Source} (h : source = [] ∨ source.length < [file].length) :
    source.flatten = [] := by
  rcases h with rfl | hlt
  · rfl
  · obtain rfl : source = [] := List.length_eq_zero_iff.mp (Nat.lt_one_iff.mp hlt)
    rfl

theorem readText_goes {d₀ d destination : Destination} {text : Str} {reader : AlignedStringReader}
    {p : ℕ} (ht : ReadsText e.rest e.value d₀ d text) (hdelete : e.request ≠ .deleteFile)
    (hchunk : e.request ≠ .readFileChunk)
    (hat : AlignedStringReader.At Destination.write d₀ text p reader destination)
    (hw : w = (aligned text).drop p) (hfile : file ++ future = w ++ later) :
    Goes e (.readText reader destination) file future later
      (state_readText reader destination [] file) := by
  have hsource : [file].flatten ++ future = (aligned text).drop p ++ later := by
    rw [List.flatten_singleton, hfile, hw]
  obtain ⟨p', t, more, hnext, hat', hsource', hp', hmore, hshort⟩ :=
    pump_spec (AlignedStringReader.reads ht.nul Destination.write_append ⟨d, ht.write⟩)
      (t := ⟨reader, [file], destination⟩) hat hsource
  rw [state_readText, AlignedStringReader.next, hnext]
  cases more with
  | false =>
    obtain rfl := hmore.mp rfl
    have hwritten := hat'.written
    rw [length_aligned, List.take_of_length_le (Nat.le_add_right _ _), ht.write] at hwritten
    rw [List.drop_length, List.nil_append] at hsource'
    refine .fires ?_ hsource'
    rw [outcome_of_ne hdelete hchunk, ht.value_eq, Except.ok.inj hwritten]
  | true =>
    have hnil := source_eq_nil (hshort rfl)
    have hlt' : p' < (aligned text).length := by
      apply lt_of_le_of_ne hat'.le
      intro heq
      exact absurd (hmore.mpr heq) (by decide)
    refine .goes rfl (.text ht hdelete hchunk hat' rfl) hsource' (fun _ => ⟨hnil, ?_⟩) (fun hne => ?_)
    · rw [Ne, List.drop_eq_nil_iff]
      exact not_le.mpr hlt'
    · have hpos := List.length_pos_of_ne_nil hne
      simp only [State.work, State.rank, hnil, List.length_nil]
      omega

theorem readChunk_goes {data pad destination : Str} {reader : AlignedBlockReader} {p : ℕ}
    (hrequest : e.request = .readFileChunk) (hpad : pad.length = padding data.length)
    (hvalue : e.value = .transferred data.length)
    (hat : AlignedBlockReader.At (.init data.length 16384 (by decide)) p reader destination)
    (hw : w = (data ++ pad).drop p ++ store .little (n := 4) 0) (hfile : file ++ future = w ++ later) :
    Goes e (.readChunk reader destination) file future later
      (state_readChunk reader destination [] file) := by
  have hlength : (data ++ pad).length =
      (AlignedBlockReader.init data.length 16384 (by decide)).paddedSize := by
    rw [List.length_append, hpad, AlignedBlockReader.init_paddedSize]
  have hsource : [file].flatten ++ future =
      (data ++ pad).drop p ++ (store .little (n := 4) 0 ++ later) := by
    rw [List.flatten_singleton, hfile, hw, List.append_assoc]
  obtain ⟨p', t, more, hnext, hat', hsource', hp', hmore, hshort⟩ :=
    pump_spec (AlignedBlockReader.reads hlength) (t := ⟨reader, [file], destination⟩) hat hsource
  rw [state_readChunk, AlignedBlockReader.next, hnext]
  cases more with
  | false =>
    have htransferred : t.reader.transferred = data.length + padding data.length := by
      rw [hat'.reader, hmore.mp rfl, List.length_append, hpad]
    have hle : t.source.flatten.length ≤ file.length := by
      have h := congrArg List.length hsource
      have h' := congrArg List.length hsource'
      simp only [List.flatten_singleton, List.length_append, List.length_drop] at h h'
      omega
    rw [hmore.mp rfl, List.drop_length, List.nil_append] at hsource'
    simp only [htransferred]
    refine .goes rfl (.status hrequest hvalue (Nat.succ_pos 3) rfl) hsource'
      (fun hnil => ⟨?_, List.cons_ne_nil _ _⟩) (fun _ => ?_)
    · rw [hnil] at hle
      exact List.length_eq_zero_iff.mp (Nat.le_zero.mp hle)
    · simp only [State.work, State.rank]
      omega
  | true =>
    have hnil := source_eq_nil (hshort rfl)
    rw [← List.append_assoc] at hsource'
    refine .goes rfl (.chunk hrequest hpad hvalue hat' rfl) hsource'
      (fun _ => ⟨hnil, List.append_ne_nil_of_right_ne_nil _ (List.cons_ne_nil _ _)⟩) (fun hne => ?_)
    have hpos := List.length_pos_of_ne_nil hne
    simp only [State.work, State.rank, hnil, List.length_nil]
    omega

theorem Expects.goes {state : State} (h : Expects e state responseBuffer w)
    (hfile : file ++ future = w ++ later) :
    Goes e state file future later (readResponse e.request state responseBuffer file) := by
  cases h with
  | header busies hlt hw => exact beginResponse_goes hlt hw hfile
  | busy busies hlt hstatus hw => exact busyReply_goes hlt hstatus hw hfile
  | body hle hw => exact normalReply_goes hle hw hfile
  | text ht hdelete hchunk hat hw => exact readText_goes ht hdelete hchunk hat hw hfile
  | chunk hrequest hpad hvalue hat hw => exact readChunk_goes hrequest hpad hvalue hat hw hfile
  | status hrequest hvalue hlt hw => exact finalStatus_goes hrequest hvalue hlt hw hfile

end turn

end NaviMisc.RioKarma.Pearl
