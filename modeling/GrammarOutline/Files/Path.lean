/-!
# Paths

A path is a row of names. Empty names and single dots are left out, and double dots are kept. The
path without names is the directory at which it starts.
-/
namespace GrammarOutline

/-- Where a path starts: at the current directory or at the root. The root may be written with two
slashes. -/
inductive PathStart where
  | current
  | root
  | doubleRoot
  deriving DecidableEq

namespace PathStart

/-- Reads the start of a path. Exactly two slashes are kept, and more of them are the same as
one. -/
def ofChars (text : List Char) : PathStart :=
  match (text.takeWhile (· == '/')).length with
  | 0 => .current
  | 2 => .doubleRoot
  | _ => .root

def slashes : PathStart → String
  | .current => ""
  | .root => "/"
  | .doubleRoot => "//"

def isRoot (s : PathStart) : Bool := s != .current

end PathStart

/-- The start and the names of a path. -/
structure Path where
  start : PathStart
  names : List String
  deriving DecidableEq

namespace Path

def ofString (text : String) : Path where
  start := .ofChars text.toList
  names := (text.splitOn "/").filter fun name => name != "" && name != "."

def toString (p : Path) : String :=
  let text := p.start.slashes ++ "/".intercalate p.names
  if text.isEmpty then "." else text

/-- The path of the directory that holds a path. -/
def parent (p : Path) : Path := { p with names := p.names.dropLast }

end Path

end GrammarOutline
