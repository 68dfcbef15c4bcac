import GrammarOutline.Expr.Normal
import GrammarOutline.Expr.Render
import GrammarOutline.Text.Position
import GrammarOutline.Text.Quoted

/-!
# Faults of a grammar and their wording

A fault is a cause: a text that no token starts with, a word in the wrong place, a broken rule about
names or marks, or a resource that cannot be read. A diagnosis adds the resource in which the fault
was met, and its message starts with that resource.
-/
namespace GrammarOutline

/-- Where a fault was met: the offset, and the whole text when it is known. -/
structure Place where
  offset : Int
  source : Option (List Char) := none
  deriving DecidableEq

namespace Place

/-- The place of a character of a known text. -/
def inSource (source : List Char) (offset : Nat) : Place := ⟨offset, some source⟩

/-- The offset that picks the line. A negative offset is counted back from the end of the text. -/
def anchor (source : List Char) (offset : Int) : Nat :=
  if offset < 0 then (source.length + offset).toNat else offset.toNat

def line (p : Place) : Nat :=
  match p.source with
  | none => 0
  | some source => Text.lineNumber source (anchor source p.offset)

/-- How many characters of the line stand before the place. -/
def indent (source : List Char) (offset : Int) : Int :=
  offset - Text.lineStart source (anchor source offset)

def column (p : Place) : Int :=
  match p.source with
  | none => 0
  | some source => indent source p.offset + 1

/-- The end of a message about this place: the offset, or line, column and snippet. -/
def wording (p : Place) : String :=
  match p.source with
  | none => " at offset " ++ toString p.offset
  | some source =>
    " at " ++ toString p.line ++ ":" ++ toString p.column ++ "\n" ++
      Text.snippetAt source (anchor source p.offset) (indent source p.offset).toNat

end Place

/-- The causes for which a grammar, a definition or a resource is refused. -/
inductive Fault where
  /-- No token starts here, or one is never closed. -/
  | lexical (excerpt : String) (place : Place)
  /-- Something else was expected here. -/
  | unexpected (expected : String) (place : Place)
  /-- A name is given a second time. -/
  | duplicate (name : String)
  /-- A production has more than one rule without elements. -/
  | emptyAlternatives (name : String) (count : Int)
  /-- A mark stands over an operand that is already quantified. -/
  | doubleQuantification (marks : DoubleQuantification)
  /-- Some other rule about grammars is broken. -/
  | invariant (message : String)
  /-- Anything else that is wrong with a grammar. -/
  | general (message : String)
  /-- A resource cannot be read. -/
  | unreadable (resource reason : String)
  deriving DecidableEq

namespace Fault

/-- What a fault is about. -/
inductive Kind where
  | grammar
  | lexical
  | syntactic
  | invariant
  | resource
  deriving DecidableEq

def kind : Fault → Kind
  | .lexical .. => .lexical
  | .unexpected .. => .syntactic
  | .duplicate .. | .emptyAlternatives .. | .doubleQuantification .. | .invariant .. => .invariant
  | .general .. => .grammar
  | .unreadable .. => .resource

/-- The message of a fault, without the resource in which it was met. -/
def message : Fault → String
  | .lexical excerpt place => "Unexpected input " ++ Text.quote excerpt ++ place.wording
  | .unexpected expected place => "Expected " ++ expected ++ place.wording
  | .duplicate name => "Duplicate production '" ++ name ++ "'"
  | .emptyAlternatives name count =>
    "Production '" ++ name ++ "' has " ++ toString count ++
      " empty alternatives (at most one is allowed)"
  | .doubleQuantification marks =>
    "Illegal double quantification: " ++ marks.written.render ++
      " (normalized so far: " ++ marks.reduced.render ++ ")"
  | .invariant text | .general text => text
  | .unreadable resource reason => resource ++ ": cannot read (" ++ reason ++ ")"

end Fault

def Fault.Kind.word : Fault.Kind → String
  | .grammar => "grammar"
  | .lexical => "lexical"
  | .syntactic => "syntax"
  | .invariant => "invariant"
  | .resource => "resource"

/-- A fault and the resource in which it was met, if that is known. -/
structure Diagnosis where
  fault : Fault
  resource : Option String := none
  deriving DecidableEq

namespace Diagnosis

/-- A resource that cannot be read is its own resource. -/
def ofFault : Fault → Diagnosis
  | .unreadable resource reason => ⟨.unreadable resource reason, some resource⟩
  | fault => ⟨fault, none⟩

/-- The message of a diagnosis: that of its fault after the name of its resource. The message about
an unreadable resource names it already. -/
def message (d : Diagnosis) : String :=
  match d.fault, d.resource with
  | .unreadable resource reason, _ => (Fault.unreadable resource reason).message
  | fault, none => fault.message
  | fault, some resource =>
    if resource.isEmpty then fault.message else resource ++ ": " ++ fault.message

/-- Records the resource in which a fault was met, unless one is known or the name is empty. -/
def within (d : Diagnosis) (resource : Option String) : Diagnosis :=
  if (resource.getD "").isEmpty || !(d.resource.getD "").isEmpty then d
  else { d with resource := resource }

end Diagnosis

end GrammarOutline
