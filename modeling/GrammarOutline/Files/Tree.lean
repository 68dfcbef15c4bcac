import GrammarOutline.Files.Access

/-!
# File trees

A file tree holds the files and directories that paths of one directory lead to. Paths are followed
name by name, and the first name that cannot be followed decides the error. The directories above
and the root are there from the start, and nothing is known to be in them.
-/
namespace GrammarOutline

/-- What a name stands for. -/
inductive FileEntry where
  | directory
  | file (bytes : List UInt8)
  deriving DecidableEq

/-- Where names lead from: the root, or the directory so many steps above the current one. -/
inductive FileBase where
  | root
  | above (steps : Nat)
  deriving DecidableEq

/-- The place where names lead from a base. -/
structure FileLocation where
  base : FileBase
  names : List String
  deriving DecidableEq

namespace FileLocation

/-- The directory that holds a place. The root holds itself. -/
def parent (l : FileLocation) : FileLocation :=
  if l.names.isEmpty then
    match l.base with
    | .root => l
    | .above steps => { l with base := .above (steps + 1) }
  else { l with names := l.names.dropLast }

def child (l : FileLocation) (name : String) : FileLocation := { l with names := l.names ++ [name] }

end FileLocation

/-- Files and directories with their places. -/
structure FileTree where
  entries : List (FileLocation × FileEntry) := []
  deriving DecidableEq

namespace FileTree

/-- The most bytes of a name. -/
def nameLimit : Nat := 255

/-- The most bytes of a path. -/
def pathLimit : Nat := 4095

def entry? (t : FileTree) (l : FileLocation) : Option FileEntry :=
  if l.names.isEmpty then some .directory else t.entries.lookup l

/-- Follows names from a place. The names before the last have to lead to directories. -/
def follow (t : FileTree) (l : FileLocation) : List String → Except FileError FileLocation
  | [] => .ok l
  | name :: names =>
    match t.entry? l with
    | none => .error .missing
    | some (.file _) => .error .notDirectory
    | some .directory =>
      if name = ".." then t.follow l.parent names
      else if nameLimit < name.utf8ByteSize then .error .nameTooLong
      else t.follow (l.child name) names

/-- The place of a path, which may not be too long. -/
def locate (t : FileTree) (p : Path) : Except FileError FileLocation :=
  if pathLimit < p.toString.utf8ByteSize then .error .nameTooLong
  else t.follow ⟨if p.start.isRoot then .root else .above 0, []⟩ p.names

def isDirectory (t : FileTree) (p : Path) : Bool :=
  match t.locate p with
  | .error _ => false
  | .ok l => t.entry? l = some .directory

def read (t : FileTree) (p : Path) : Except FileError (List UInt8) :=
  (t.locate p).bind fun l =>
    match t.entry? l with
    | none => .error .missing
    | some .directory => .error .isDirectory
    | some (.file bytes) => .ok bytes

def put (t : FileTree) (l : FileLocation) (entry : FileEntry) : FileTree :=
  ⟨t.entries.filter (fun e => e.1 ≠ l) ++ [(l, entry)]⟩

/-- Makes a directory whose name is not taken. -/
def makeDirectory (t : FileTree) (p : Path) : Except FileError FileTree :=
  match p.names.getLast? with
  | none => .error .occupied
  | some name =>
    (t.locate p).bind fun l =>
      if name = ".." then .error .occupied
      else
        match t.entry? l with
        | some _ => .error .occupied
        | none => .ok (t.put l .directory)

/-- Writes a file in a directory that is there. -/
def writeFile (t : FileTree) (p : Path) (bytes : List UInt8) : Except FileError FileTree :=
  (t.locate p).bind fun l =>
    match t.entry? l with
    | some .directory => .error .isDirectory
    | _ => .ok (t.put l (.file bytes))

/-- Changes the tree, unless there is an error. -/
def change (t : FileTree) : Except FileError FileTree → Except FileError Unit × FileTree
  | .error error => (.error error, t)
  | .ok changed => (.ok (), changed)

/-- Access to the files of a tree that is kept as a state. -/
def access : FileAccess (StateM FileTree) where
  read p := return (← get).read p
  writeFile p bytes := modifyGet fun t => t.change (t.writeFile p bytes)
  makeDirectory p := modifyGet fun t => t.change (t.makeDirectory p)
  isDirectory p := return (← get).isDirectory p

end FileTree

end GrammarOutline
