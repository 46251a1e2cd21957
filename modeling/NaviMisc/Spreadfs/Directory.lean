import Mathlib.Data.BitVec
import Mathlib.Tactic.Ring
import NaviMisc.Lib.PosixPath
import NaviMisc.Lib.Runs

/-!
The file handles of spreadfs (spreadfs.py). The mapper keeps them in a directory of symbolic links.
-/

namespace NaviMisc.Spreadfs

open NaviMisc.Lib

abbrev Str := List Char

def join (a b : Str) : Str :=
  if ['/'] <+: b then b
  else if a = [] ∨ ['/'] <:+ a then a ++ b
  else a ++ '/' :: b

def hexDigits : ℕ → ℕ → Str
  | 0, _ => []
  | k + 1, n => hexDigits k (n / 16) ++ [Nat.digitChar (n % 16)]

def Ctr.fmt (id : ℕ) : Str := hexDigits 32 id

abbrev Links := Str → Option Str

inductive KeyType
  | DB_HANDLE | DB_PATH

def KeyType.name : KeyType → Str
  | DB_HANDLE => ['h']
  | DB_PATH => ['p']

structure SpreadMapper where
  links : Links
  lastId : ℕ

variable (dbPath : Str)

def escape (name : Str) : Str :=
  Text.replace ['/'] [',', '_'] (Text.replace [','] [',', ','] name)

def makeDbKey (type : KeyType) (name : Str) : Str :=
  join (join dbPath type.name) (escape name)

def writeDbKey (links : Links) (type : KeyType) (name value : Str) : Links :=
  Function.update links (makeDbKey dbPath type name) (some value)

def newHandle (links : Links) : ℕ → ℕ → Option (ℕ × Str)
  | 0, _ => none
  | fuel + 1, lastId =>
    let lastId := (lastId + 1) % 2 ^ 31
    let handle := Ctr.fmt lastId
    if (links (makeDbKey dbPath .DB_HANDLE handle)).isSome then newHandle links fuel lastId
    else some (lastId, handle)

def addHandle (m : SpreadMapper) (path handle : Str) : SpreadMapper :=
  { m with
    links := writeDbKey dbPath (writeDbKey dbPath m.links .DB_PATH path handle)
      .DB_HANDLE handle path }

def getHandleFromPath (m : SpreadMapper) (path : Str) : Option (SpreadMapper × Str) :=
  match m.links (makeDbKey dbPath .DB_PATH path) with
  | some handle => some (m, handle)
  | none =>
    if path = ['/'] then some (addHandle dbPath m path (Ctr.fmt 1), Ctr.fmt 1)
    else do
      let (lastId, handle) ← newHandle dbPath m.links (2 ^ 31) m.lastId
      some (addHandle dbPath { m with lastId := lastId } path handle, handle)

def getPathFromHandle (m : SpreadMapper) (handle : Str) : Option Str :=
  m.links (makeDbKey dbPath .DB_HANDLE handle)

def start (links : Links) (lastId : ℕ) : Option (SpreadMapper × Str) :=
  getHandleFromPath dbPath ⟨links, lastId⟩ ['/']

end NaviMisc.Spreadfs

/-!
The copies of a path on the mounts of a disk set (spreadfs.py), and which paths are looked up there.
-/

namespace NaviMisc.Spreadfs

open NaviMisc.Lib.PosixPath

def abspath (cwd path : Str) : Str := normpath (if ['/'] <+: path then path else join cwd path)

def relative (path : Str) : Str := if ['/'] <+: path then path.tail else path

def getChild (path name : Str) : Str := join path name

def findIter (cwd : Str) (criteria : Str → Bool) (mounts : List Str) (path : Str) : List Str :=
  mounts.filterMap fun mount =>
    let p := abspath cwd (join mount (relative path))
    if mount <+: p ∧ criteria p = true then some p else none

def copyOn (mount path : Str) : Str := (components path).foldl join mount

/-- Where a path leads from a mount, as initial slashes and directories. A path that is still
absolute has nothing to do with the mount. -/
def leadsTo (mount path : Str) : ℕ × List Str :=
  if ['/'] <+: path then (initialSlashes path, walk [] (components path))
  else (initialSlashes mount, walk (components mount) (components path))

variable (cwd : Str) (criteria : Str → Bool) (mounts : List Str) (path : Str)

def Confined : Prop := ∀ p ∈ findIter cwd criteria mounts path, ∃ mount ∈ mounts, Within mount p

instance : Decidable (Confined cwd criteria mounts path) :=
  inferInstanceAs (Decidable (∀ _ ∈ _, ∃ _ ∈ _, Within _ _))

/-- A path without `..` is found on every mount that has it. -/
def FindsCopies : Prop :=
  ['.', '.'] ∉ components path → ∀ mount ∈ mounts, criteria (copyOn mount path) = true →
    copyOn mount path ∈ findIter cwd criteria mounts path

/-- Where the path leads from a mount to something beside it, in a directory whose name is the
mount's own with more characters behind it, that is not there, or it is in another mount. -/
def StaysInside : Prop :=
  ∀ mount ∈ mounts, ∀ init last more rest, components mount = init ++ [last] → more ≠ [] →
    leadsTo mount (relative path) =
      (initialSlashes mount, init ++ (last ++ more) :: rest) →
    criteria (rest.foldl join (mount ++ more)) = true →
    ∃ mount' ∈ mounts, Within mount' (rest.foldl join (mount ++ more))

def SingleSlash : Prop :=
  ['/'] <+: relative path → ['.', '.'] ∉ components path → ∀ mount ∈ mounts,
    criteria (copyOn mount path) = true →
    mount = List.replicate (initialSlashes (relative path)) '/'

end NaviMisc.Spreadfs

/-!
The listing of a directory that has a copy on several disks (spreadfs.py). The files of the copies
come and go, and FAM reports it later.
-/

namespace NaviMisc.Spreadfs

open NaviMisc.Lib.Runs

local instance lawfulBEqStr : LawfulBEq Str := inferInstance

inductive Code
  | created | deleted | changed
  deriving DecidableEq

structure FamEvent where
  code : Code
  filename : Str
  deriving DecidableEq

structure Copies (Disk : Type) where
  disks : List Disk
  copyPath : Disk → Str
  /-- The path of the directory on the disk set. -/
  path : Str
  /-- Which paths there are that are not entries of the directory. -/
  elsewhere : Str → Bool
  fileHandle : Str → Str

structure SpreadDirectory (Disk : Type) where
  names : Disk → List Str
  events : List FamEvent
  monitored : Bool
  dirCache : Option (List (Str × Str))

/-- What a process does to a copy, and what the server does. FAM names a file with its path or
without it. -/
inductive Action (Disk : Type)
  | create (disk : Disk) (name : Str) (absolute : Bool)
  | delete (disk : Disk) (name : Str) (absolute : Bool)
  | deliver
  | getDir

def afterSlash (filename : Str) : Str :=
  if '/' ∈ filename then (filename.dropWhile (· ≠ '/')).tail else filename

def lastComponent (filename : Str) : Str := (filename.reverse.takeWhile (· ≠ '/')).reverse

def dictSet (dict : List (Str × Str)) (key value : Str) : List (Str × Str) :=
  (key, value) :: dict.filter (·.1 ≠ key)

def dictDel (dict : List (Str × Str)) (key : Str) : List (Str × Str) := dict.filter (·.1 ≠ key)

variable {Disk : Type} [DecidableEq Disk] (c : Copies Disk)

namespace SpreadDirectory

variable (s : SpreadDirectory Disk)

def found (filename : Str) : Bool :=
  if '/' ∈ filename then c.elsewhere (join c.path filename)
  else c.disks.any fun disk => filename ∈ s.names disk

def childHandle (name : Str) : Str := c.fileHandle (join c.path name)

def onMonitorEvent (event : FamEvent) : SpreadDirectory Disk :=
  let filename := afterSlash event.filename
  let code := if event.code = .deleted ∧ s.found c filename = true then .changed else event.code
  match s.dirCache with
  | none | some [] => s
  | some (e :: dict) =>
    match code with
    | .deleted => { s with dirCache := some (dictDel (e :: dict) filename) }
    | .created =>
      { s with dirCache := some (dictSet (e :: dict) filename (childHandle c filename)) }
    | .changed => s

def listdir : List Str := c.disks.flatMap s.names

def get_dir : SpreadDirectory Disk × List (Str × Str) :=
  match s.dirCache with
  | some dict => ({ s with monitored := true }, dict)
  | none =>
    let dict := (s.listdir c).foldl (fun dict name => dictSet dict name (childHandle c name)) []
    ({ s with monitored := true, dirCache := some dict }, dict)

def report (code : Code) (disk : Disk) (name : Str) (absolute : Bool) : List FamEvent :=
  if s.monitored then
    s.events ++ [⟨code, if absolute then c.copyPath disk ++ '/' :: name else name⟩]
  else s.events

def step : Action Disk → SpreadDirectory Disk
  | .create disk name absolute =>
    if disk ∈ c.disks ∧ name ≠ [] ∧ '/' ∉ name ∧ name ∉ s.names disk then
      { s with
        names := Function.update s.names disk (name :: s.names disk)
        events := s.report c .created disk name absolute }
    else s
  | .delete disk name absolute =>
    if disk ∈ c.disks ∧ name ∈ s.names disk then
      { s with
        names := Function.update s.names disk ((s.names disk).filter (· ≠ name))
        events := s.report c .deleted disk name absolute }
    else s
  | .deliver =>
    match s.events with
    | [] => s
    | event :: events => { s with events := events }.onMonitorEvent c event
  | .getDir => (s.get_dir c).1

def Present (name : Str) : Prop := ∃ disk ∈ c.disks, name ∈ s.names disk

/-- An event is delivered whose name, up to one slash at most, is the one of the file, and no file
is created while the cached listing is empty. -/
def Delivers : Action Disk → Prop
  | .deliver => ∀ event ∈ s.events.head?, '/' ∉ afterSlash event.filename ∧
      (event.code = .created → s.dirCache ≠ some [])
  | _ => True

instance decidableDelivers : ∀ a, Decidable (s.Delivers a)
  | .create .. => inferInstanceAs (Decidable True)
  | .delete .. => inferInstanceAs (Decidable True)
  | .deliver =>
    inferInstanceAs (Decidable (∀ event ∈ s.events.head?, '/' ∉ afterSlash event.filename ∧
      (event.code = .created → s.dirCache ≠ some [])))
  | .getDir => inferInstanceAs (Decidable True)

structure Fresh (s : SpreadDirectory Disk) : Prop where
  names : ∀ disk, ∀ name ∈ s.names disk, '/' ∉ name
  events : s.events = []
  monitored : s.monitored = false
  dirCache : s.dirCache = none

end SpreadDirectory

end NaviMisc.Spreadfs
