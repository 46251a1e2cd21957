import Mathlib.Data.Nat.Notation
import Mathlib.Logic.Function.Basic

/-!
`SaveFile::write` and `SaveFile::read` of source/saveData.cpp.
-/

namespace NaviMisc.RobotOdyssey

abbrev Files (Byte : Type) := String → Option (List Byte)

inductive Outcome
  | noSaveDir
  | noFile
  | opened (result : ℕ)

structure SaveFile where
  name : String
  extension : String
  size : ℕ

namespace SaveFile

variable {Byte : Type}

def new (name extension : String) : SaveFile := ⟨name, extension, 0⟩

def getSize (file : SaveFile) : ℕ := file.size

def fullName (file : SaveFile) : String := file.name ++ file.extension

/-- The written count goes to the parameter `size`, which hides the member. -/
def write (outcome : Outcome) (buffer : List Byte) (files : Files Byte) (file : SaveFile) :
    Bool × SaveFile × Files Byte :=
  match outcome with
  | .noSaveDir | .noFile => (false, file, files)
  | .opened result =>
    (decide (result = file.getSize), file,
      Function.update files file.fullName (some (buffer.take result)))

def read (saveDir : Bool) (size : ℕ) (files : Files Byte) (file : SaveFile) : Bool × List Byte :=
  if saveDir then
    match files file.fullName with
    | none => (false, [])
    | some data => (decide ((data.take size).length = size), data.take size)
  else (false, [])

variable {buffer : List Byte} {files files' : Files Byte} {file file' : SaveFile} {k : ℕ}

structure Reports (buffer : List Byte) (files : Files Byte) (file : SaveFile) (k : ℕ) : Prop where
  retval : (write (.opened k) buffer files file).1 = true ↔ k = buffer.length
  size : (write (.opened k) buffer files file).2.1.getSize = k

theorem retval_write : (write (.opened k) buffer files file).1 = true ↔ k = file.size :=
  decide_eq_true_iff

theorem size_write : (write (.opened k) buffer files file).2.1.getSize = file.size := rfl

theorem reports_iff (buffer : List Byte) (files : Files Byte) (file : SaveFile) (k : ℕ) :
    Reports buffer files file k ↔ file.size = buffer.length ∧ k = buffer.length := by
  constructor
  · rintro ⟨hretval, hsize⟩
    rw [retval_write] at hretval
    rw [size_write] at hsize
    have hk := hretval.mp hsize.symm
    exact ⟨hsize.trans hk, hk⟩
  · rintro ⟨hsize, rfl⟩
    exact ⟨by rw [retval_write, hsize], hsize⟩

/-- The first save of a game is stored and reported lost. -/
theorem reports_new : ¬∀ (buffer : List ℕ) (files : Files ℕ) (name extension : String),
    ∀ k ≤ buffer.length, Reports buffer files (.new name extension) k := by
  intro h
  have hsize := (h [0] (fun _ => none) "Slot 1" ".rog" 1 (by decide)).size
  exact absurd hsize (by decide)

end SaveFile

end NaviMisc.RobotOdyssey
