import NaviMisc.RioKarma.AlignedBlock
import NaviMisc.RioKarma.PropertyFile

/-!
The requests of `RioKarma/Request.py` and the base classes of them in
`RioKarma/Pearl.py`: how each one reads its response.
-/

namespace NaviMisc.RioKarma.Pearl

open Lib.ByteOrder (load store)
open Property (Str Fault Word NUL bytes LineBufferedWriter FileDatabaseWriter)

/-- A field of a format of `struct`: `I`, `Q` or `16s`. -/
inductive Field
  | I
  | Q
  | s (size : ℕ)

inductive Arg
  | int (n : ℕ)
  | str (s : Str)
  deriving DecidableEq

def Field.size : Field → ℕ
  | .I => 4
  | .Q => 8
  | .s size => size

def calcsize (format : List Field) : ℕ := (format.map Field.size).sum

def Field.unpack : Field → Str → Arg
  | .I, data => .int (load .little 4 data).toNat
  | .Q, data => .int (load .little 8 data).toNat
  | .s _, data => .str data

def unpack : List Field → Str → List Arg
  | [], _ => []
  | field :: format, data => field.unpack (data.take field.size) :: unpack format (data.drop field.size)

def Field.pack : Field → Arg → Str
  | .I, .int n => store .little (BitVec.ofNat (8 * 4) n)
  | .Q, .int n => store .little (BitVec.ofNat (8 * 8) n)
  | .s _, .int _ => []
  | _, .str data => data

def Field.Fits : Field → Arg → Prop
  | .I, .int n => n < 2 ^ 32
  | .Q, .int n => n < 2 ^ 64
  | .s size, .str data => data.length = size
  | .s _, .int _ => False
  | .I, .str _ => False
  | .Q, .str _ => False

def pack (format : List Field) (args : List Arg) : Str := (format.zipWith Field.pack args).flatten

inductive Failure
  | protocolError (text : String)
  | authenticationError (text : String)
  | nameError
  | fault (fault : Fault)

inductive Destination
  | properties (writer : LineBufferedWriter (Finmap Property.Value))
  | fileDatabase (writer : LineBufferedWriter FileDatabaseWriter)

def Destination.write : Destination → Str → Except Fault Destination
  | .properties writer, data =>
    do return .properties (← writer.write Property.PropertyFileWriter.writeLine data)
  | .fileDatabase writer, data =>
    do return .fileDatabase (← writer.write FileDatabaseWriter.writeLine data)

/-- The results of requests. `files` is the result `None`, with what the callback was given. -/
inductive Value
  | arg (arg : Arg)
  | args (args : List Arg)
  | accessRights (rights : List String)
  | deviceDetails (name version : Str) (numStorageDevices : ℕ)
  | storageDetails (numFiles totalSpace freeSpace highestFileID : ℕ)
  | database (db : Finmap Property.Value)
  | files (received : List (Finmap Property.Value))
  | transferred (size : ℕ)
  | none

def Destination.result : Destination → Value
  | .properties writer => .database writer.state
  | .fileDatabase writer => .files writer.state.received

inductive Request
  | getProtocolVersion
  | getAuthenticationSalt
  | authenticate
  | getDeviceDetails
  | getStorageDetails
  | getDeviceSettings
  | requestIOLock
  | releaseIOLock
  | writeFileChunk
  | getAllFileDetails
  | getFileDetails (storage : Finmap Property.Value)
  | updateFileDetails
  | readFileChunk
  | deleteFile

namespace Request

def MAGIC : Str := bytes "Ri" ++ [0xC5, 0x8D]

def id : Request → Word
  | getProtocolVersion => 0
  | getAuthenticationSalt => 3
  | authenticate => 4
  | getDeviceDetails => 5
  | getStorageDetails => 6
  | getDeviceSettings => 7
  | requestIOLock => 9
  | releaseIOLock => 10
  | writeFileChunk => 12
  | getAllFileDetails => 13
  | getFileDetails _ => 14
  | updateFileDetails => 15
  | readFileChunk => 16
  | deleteFile => 17

def responseFormat : Request → List Field
  | getProtocolVersion => [.I, .I]
  | getAuthenticationSalt => [.s 16]
  | authenticate => [.I, .I]
  | getDeviceDetails => [.s 32, .s 32, .I]
  | getStorageDetails => [.I, .I, .Q, .Q, .I]
  | readFileChunk => [.Q, .I]
  | deleteFile => []
  | _ => [.I]

end Request

/-- The method that `readResponse` is set to. The three states that read a text only differ in the
destination. -/
inductive State
  | beginResponse
  | busyReply
  | normalReply
  | readText (reader : AlignedStringReader) (destination : Destination)
  | readChunk (reader : AlignedBlockReader) (destination : Str)
  | finalStatus (transferred : ℕ)

def statusText (status : ℕ) : Failure :=
  if status = 0x8004005E then
    .protocolError "A lock required for this operation is not held or can't be acquired"
  else if status = 0xC0040002 then .protocolError "Nonexistant file ID"
  else if status = 0xC0041002 then .protocolError "File content can't be read"
  else if status = 0x8004005B then .authenticationError "Password is incorrect"
  else .protocolError "Unexpected status"

def decodeStatus (status : ℕ) : Except Failure Unit :=
  if status = 0 then .ok () else .error (statusText status)

def StructRequest.receivedResponse : List Arg → Except Failure Value
  | [] => .error (.fault .indexError)
  | [arg] => .ok (.arg arg)
  | args => .ok (.args args)

def readText (destination : Destination) : State := .readText .init destination

def Request.receivedResponse : Request → List Arg → Except Failure (State ⊕ Value)
  | authenticate, [.int status, .int accessRights] => do
    decodeStatus status
    if accessRights = 0 then return .inr (.accessRights ["read"])
    else if accessRights = 1 then return .inr (.accessRights ["read", "write"])
    else .error .nameError
  | getDeviceDetails, [.str name, .str version, .int numStorageDevices] =>
    .ok (.inr (.deviceDetails (name.filter (· ≠ NUL)) (version.filter (· ≠ NUL)) numStorageDevices))
  | getStorageDetails, [.int status, .int numFiles, .int totalSpace, .int freeSpace, .int highest] => do
    decodeStatus status
    return .inr (.storageDetails numFiles totalSpace freeSpace highest)
  | getDeviceSettings, [.int status] => do
    decodeStatus status
    return .inl (readText (.properties ⟨[], ∅⟩))
  | requestIOLock, [.int status] => do
    decodeStatus status
    return .inr .none
  | releaseIOLock, [.int status] => do
    decodeStatus status
    return .inr .none
  | writeFileChunk, [.int status] => do
    decodeStatus status
    return .inr .none
  | getAllFileDetails, [.int status] => do
    decodeStatus status
    return .inl (readText (.fileDatabase ⟨[], ∅, []⟩))
  | getFileDetails storage, [.int status] => do
    decodeStatus status
    return .inl (readText (.properties ⟨[], storage⟩))
  | updateFileDetails, [.int status] => do
    decodeStatus status
    return .inr .none
  | readFileChunk, [.int size, .int status] => do
    decodeStatus status
    return .inl (.readChunk (.init size 16384 (by decide)) [])
  | _, args => do return .inr (← StructRequest.receivedResponse args)

/-- A request after a call of `readResponse`, and its result if that was fired. -/
structure Turn where
  state : State
  responseBuffer : Str
  file : Str
  fired : Option (Except Failure Value)

def fillResponseBuffer (size : ℕ) (state : State) (responseBuffer file : Str)
    (full : Str → Str → Turn) : Turn :=
  let remaining := size - responseBuffer.length
  let responseBuffer := responseBuffer ++ file.take remaining
  let file := file.drop remaining
  if responseBuffer.length > size then
    ⟨state, responseBuffer, file, some (.error (.protocolError "Request read too much data"))⟩
  else if responseBuffer.length = size then full responseBuffer file
  else ⟨state, responseBuffer, file, none⟩

def state_beginResponse (request : Request) (responseBuffer file : Str) : Turn :=
  fillResponseBuffer 8 .beginResponse responseBuffer file fun responseBuffer file =>
    if ¬Request.MAGIC <+: responseBuffer then
      ⟨.beginResponse, responseBuffer, file,
        some (.error (.protocolError "Connection is out of sync, didn't receive header"))⟩
    else
      let responseId : Word := load .little 4 (responseBuffer.drop 4)
      if responseId = request.id then ⟨.normalReply, [], file, none⟩
      else if responseId = 1 then
        ⟨.beginResponse, [], file, some (.error (.protocolError "NAK response"))⟩
      else if responseId = 2 then ⟨.busyReply, [], file, none⟩
      else ⟨.beginResponse, [], file, some (.error (.protocolError "Connection is out of sync"))⟩

def state_busyReply (responseBuffer file : Str) : Turn :=
  fillResponseBuffer 8 .busyReply responseBuffer file fun _ file => ⟨.beginResponse, [], file, none⟩

def state_normalReply (request : Request) (responseBuffer file : Str) : Turn :=
  fillResponseBuffer (calcsize request.responseFormat) .normalReply responseBuffer file
    fun responseBuffer file =>
      match request.receivedResponse (unpack request.responseFormat responseBuffer) with
      | .ok (.inl state) => ⟨state, [], file, none⟩
      | .ok (.inr value) => ⟨.normalReply, [], file, some (.ok value)⟩
      | .error failure => ⟨.normalReply, [], file, some (.error failure)⟩

def state_readText (reader : AlignedStringReader) (destination : Destination)
    (responseBuffer file : Str) : Turn :=
  match AlignedStringReader.next Destination.write ⟨reader, [file], destination⟩ with
  | (t, .ok true) => ⟨.readText t.reader t.destination, responseBuffer, t.source.flatten, none⟩
  | (t, .ok false) =>
    ⟨.readText t.reader t.destination, responseBuffer, t.source.flatten, some (.ok t.destination.result)⟩
  | (t, .error fault) =>
    ⟨.readText t.reader t.destination, responseBuffer, t.source.flatten, some (.error (.fault fault))⟩

def state_readChunk (reader : AlignedBlockReader) (destination responseBuffer file : Str) : Turn :=
  match AlignedBlockReader.next append ⟨reader, [file], destination⟩ with
  | (t, .ok true) => ⟨.readChunk t.reader t.destination, responseBuffer, t.source.flatten, none⟩
  | (t, .ok false) => ⟨.finalStatus t.reader.transferred, responseBuffer, t.source.flatten, none⟩
  | (t, .error fault) =>
    ⟨.readChunk t.reader t.destination, responseBuffer, t.source.flatten, some (.error (.fault fault))⟩

def state_finalStatus (transferred : ℕ) (responseBuffer file : Str) : Turn :=
  fillResponseBuffer 4 (.finalStatus transferred) responseBuffer file fun responseBuffer file =>
    match decodeStatus (load .little 4 responseBuffer).toNat with
    | .ok () => ⟨.finalStatus transferred, [], file, some (.ok (.transferred transferred))⟩
    | .error failure => ⟨.finalStatus transferred, [], file, some (.error failure)⟩

def readResponse (request : Request) (state : State) (responseBuffer file : Str) : Turn :=
  match state with
  | .beginResponse => state_beginResponse request responseBuffer file
  | .busyReply => state_busyReply responseBuffer file
  | .normalReply => state_normalReply request responseBuffer file
  | .readText reader destination => state_readText reader destination responseBuffer file
  | .readChunk reader destination => state_readChunk reader destination responseBuffer file
  | .finalStatus transferred => state_finalStatus transferred responseBuffer file

section pack

variable {field : Field} {format : List Field} {arg : Arg} {args : List Arg}

theorem length_pack_field (h : field.Fits arg) : (field.pack arg).length = field.size := by
  cases field with
  | I =>
    cases arg with
    | int n => exact Lib.ByteOrder.length_store .little _
    | str data => cases h
  | Q =>
    cases arg with
    | int n => exact Lib.ByteOrder.length_store .little _
    | str data => cases h
  | s size =>
    cases arg with
    | int n => cases h
    | str data => exact h

theorem unpack_pack_field (h : field.Fits arg) : field.unpack (field.pack arg) = arg := by
  cases field with
  | I =>
    cases arg with
    | int n =>
      rw [Field.pack, Field.unpack, Lib.ByteOrder.load_store, BitVec.toNat_ofNat]
      exact congrArg Arg.int (Nat.mod_eq_of_lt h)
    | str data => cases h
  | Q =>
    cases arg with
    | int n =>
      rw [Field.pack, Field.unpack, Lib.ByteOrder.load_store, BitVec.toNat_ofNat]
      exact congrArg Arg.int (Nat.mod_eq_of_lt h)
    | str data => cases h
  | s size =>
    cases arg with
    | int n => cases h
    | str data => rfl

theorem length_pack (h : List.Forall₂ Field.Fits format args) :
    (pack format args).length = calcsize format := by
  induction h with
  | nil => rfl
  | cons hfits _ ih =>
    rw [pack, List.zipWith_cons_cons, List.flatten_cons, List.length_append, length_pack_field hfits,
      calcsize, List.map_cons, List.sum_cons]
    exact congrArg _ ih

theorem unpack_pack (h : List.Forall₂ Field.Fits format args) : unpack format (pack format args) = args := by
  induction h with
  | nil => rfl
  | @cons field arg format args hfits _ ih =>
    have hcons : pack (field :: format) (arg :: args) = field.pack arg ++ pack format args := by
      rw [pack, List.zipWith_cons_cons, List.flatten_cons]
      rfl
    have hlength := length_pack_field hfits
    rw [hcons, unpack, ← hlength, List.take_left, List.drop_left, unpack_pack_field hfits, ih]

end pack

end NaviMisc.RioKarma.Pearl
