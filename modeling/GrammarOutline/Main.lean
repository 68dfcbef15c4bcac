import GrammarOutline.CommandLine.Run

/-!
# The program

Runs a command on the files of the system. An error of the file that is written is shown on the
error channel and ends the program with status one.
-/
namespace GrammarOutline

/-- An error of the system. -/
def FileError.ofSystem : IO.Error → FileError
  | .noFileOrDirectory .. => .missing
  | .alreadyExists .. => .occupied
  | .inappropriateType _ code details => ofNumber (number code) details
  | .invalidArgument _ code details => ofNumber (number code) details
  | .permissionDenied _ code _ => .other (number code) "Permission denied"
  | error => .other 5 error.toString
where
  /-- The number of an error, which may be given with a minus sign. -/
  number (code : UInt32) : Nat := min code.toNat (-code).toNat
  /-- An error whose number tells what it is. -/
  ofNumber (n : Nat) (details : String) : FileError :=
    if n = 20 then .notDirectory
    else if n = 21 then .isDirectory
    else if n = 36 then .nameTooLong
    else .other n details

def attempt {α : Type} (action : IO α) : IO (Except FileError α) := do
  match ← action.toBaseIO with
  | .ok value => return .ok value
  | .error error => return .error (.ofSystem error)

/-- Access to the files of the system. -/
def systemFiles : FileAccess IO where
  read p := attempt do
    return (← IO.FS.readBinFile p.toString).toList
  writeFile p bytes := attempt (IO.FS.writeBinFile p.toString ⟨bytes.toArray⟩)
  makeDirectory p := attempt (IO.FS.createDir p.toString)
  isDirectory p := do
    match ← attempt (IO.FS.realPath p.toString) with
    | .ok place => place.isDir
    | .error _ => return false

end GrammarOutline

open GrammarOutline in
def main (words : List String) : IO UInt32 := do
  let outcome ← CommandLine.run systemFiles words
  IO.eprint outcome.err
  match outcome.status with
  | .ok status =>
    IO.print outcome.out
    return status.toUInt32
  | .error fault =>
    IO.eprintln fault.message
    return 1
