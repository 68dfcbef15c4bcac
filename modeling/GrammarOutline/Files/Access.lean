import GrammarOutline.Fault
import GrammarOutline.Files.Path
import GrammarOutline.Text.Utf8

/-!
# Access to files

What can go wrong when a file is opened, and what a program needs of files: to read one and to write
one. Both may be effects of any monad.
-/
namespace GrammarOutline

/-- Why a file or directory cannot be opened or made. -/
inductive FileError where
  | missing
  | occupied
  | notDirectory
  | isDirectory
  | nameTooLong
  | other (number : Nat) (reason : String)
  deriving DecidableEq

namespace FileError

def number : FileError → Nat
  | .missing => 2
  | .occupied => 17
  | .notDirectory => 20
  | .isDirectory => 21
  | .nameTooLong => 36
  | .other number _ => number

def reason : FileError → String
  | .missing => "No such file or directory"
  | .occupied => "File exists"
  | .notDirectory => "Not a directory"
  | .isDirectory => "Is a directory"
  | .nameTooLong => "File name too long"
  | .other _ reason => reason

end FileError

structure FileFault where
  error : FileError
  path : String
  deriving DecidableEq

/-- The wording of a fault: its number, reason and path. -/
def FileFault.message (f : FileFault) : String :=
  "[Errno " ++ toString f.error.number ++ "] " ++ f.error.reason ++ ": " ++ Text.quote f.path

/-- What a program does with files, each as an effect of `m`: reading and writing one, making a
directory whose name is not taken, and asking whether a path leads to a directory. -/
structure FileAccess (m : Type → Type) where
  read : Path → m (Except FileError (List UInt8))
  writeFile : Path → List UInt8 → m (Except FileError Unit)
  makeDirectory : Path → m (Except FileError Unit)
  isDirectory : Path → m Bool

namespace FileAccess

variable {m : Type → Type} [Monad m]

/-- The text of the bytes that were read for a resource, or why it cannot be read. -/
def textOf (resource : String) : Except FileError (List UInt8) → Except Fault (List Char)
  | .error error => .error (.unreadable resource error.reason)
  | .ok bytes =>
    match Text.ofBytes bytes with
    | .error fault => .error (.unreadable resource fault.message)
    | .ok text => .ok text

/-- Reads the resource whose name is a path. -/
def readText (files : FileAccess m) (resource : String) : m (Except Fault (List Char)) := do
  return textOf resource (← files.read (Path.ofString resource))

/-- Makes a directory, or sees that there is one already. -/
def ensureDirectory (files : FileAccess m) (p : Path) : m (Except FileFault Unit) := do
  match ← files.makeDirectory p with
  | .ok () => return .ok ()
  | .error .missing => return .error ⟨.missing, p.toString⟩
  | .error error =>
    if ← files.isDirectory p then return .ok () else return .error ⟨error, p.toString⟩

/-- Makes a directory and those that hold it, as far as they are missing. The names are given from
the last to the first. -/
def ensureAll (files : FileAccess m) (start : PathStart) : (reversed : List String) →
    m (Except FileFault Unit)
  | [] => files.ensureDirectory ⟨start, []⟩
  | name :: reversed => do
    let p : Path := ⟨start, (name :: reversed).reverse⟩
    match ← files.makeDirectory p with
    | .error .missing =>
      match ← files.ensureAll start reversed with
      | .error fault => return .error fault
      | .ok () => files.ensureDirectory p
    | .error _ => files.ensureDirectory p
    | .ok () => return .ok ()

/-- Writes a file and makes the directories that hold it, as far as they are missing. Directories
that were made stay when the file cannot be written. -/
def write (files : FileAccess m) (p : Path) (bytes : List UInt8) : m (Except FileFault Unit) := do
  match ← files.ensureAll p.start p.parent.names.reverse with
  | .error fault => return .error fault
  | .ok () => return (← files.writeFile p bytes).mapError fun error => ⟨error, p.toString⟩

end FileAccess

end GrammarOutline
