/-!
# Failures of a parser

A failure says what was expected and where. Of two failures the further one is kept, and two at the
same place are joined into one that expects either. A committed failure cannot be backed out of.
-/
namespace GrammarOutline.Parsing

/-- What was expected at a position. A failure about characters that belong to no symbol carries an
excerpt of them. -/
structure Failure where
  expected : String
  position : Int
  committed : Bool := false
  excerpt : Option String := none
  deriving DecidableEq

/-- The text that joins two expectations. -/
def disjunction : String := " or "

/-- The parts of a text between the occurrences of `separator`, which are found from the left and do
not overlap. `part` holds the current part in reverse, and `skip` characters are passed over. -/
def splitFrom (separator : List Char) : (skip : Nat) → (part : List Char) → List Char →
    List (List Char)
  | _, part, [] => [part.reverse]
  | skip + 1, part, _ :: rest => splitFrom separator skip part rest
  | 0, part, c :: rest =>
    if separator.isPrefixOf (c :: rest) then
      part.reverse :: splitFrom separator (separator.length - 1) [] rest
    else splitFrom separator 0 (c :: part) rest

/-- The expectations that a text joins. -/
def alternatives (expected : String) : List String :=
  (splitFrom disjunction.toList 0 [] expected.toList).map String.ofList

namespace Failure

/-- Keeps the further failure. Two failures at one place are joined, unless the first lists the
expectation of the second already. -/
def merge (f g : Failure) : Failure :=
  if f.position < g.position then g
  else if g.position < f.position || (alternatives f.expected).contains g.expected then f
  else ⟨f.expected ++ disjunction ++ g.expected, f.position, f.committed || g.committed, none⟩

/-- Merges two failures of which either may be missing. -/
def join : Option Failure → Option Failure → Option Failure
  | none, g => g
  | some f, none => some f
  | some f, some g => some (f.merge g)

/-- Merges a failure that may be missing into another one. -/
def mergeInto : Option Failure → Failure → Failure
  | none, g => g
  | some f, g => f.merge g

/-- The failures that come up when the members of a list are joined one after the other. -/
def joinAll (failures : List (Option Failure)) : List (Option Failure) :=
  ((failures.foldl (fun (steps, last) f => (join last f :: steps, join last f))
    (([], none) : List (Option Failure) × Option Failure)).1).reverse

@[simp] theorem join_none_right (f : Option Failure) : join f none = f := by
  cases f <;> rfl

theorem join_some_right (f : Option Failure) (g : Failure) :
    join f (some g) = some (mergeInto f g) := by
  cases f <;> rfl

end Failure

end GrammarOutline.Parsing
