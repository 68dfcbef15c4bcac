/-!
# The rules section of a grammar text

A line that holds two percent signs and at most blanks after them is a marker. The rules stand
between the first two markers, after the first one if there is no second, and make up the whole text
if there is none. Declarations before them and a trailer after them are not read.
-/
namespace GrammarOutline

/-- A part of a text and the offset at which it starts. -/
structure RulesSection where
  base : Nat
  text : List Char
  deriving DecidableEq

namespace RulesSection

/-- Whether a line, without its line feed, is a marker. Spaces and tabs may follow the signs, and a
carriage return may end it. -/
def isMarker : List Char → Bool
  | '%' :: '%' :: rest =>
    let rest := rest.dropWhile fun c => c = ' ' || c = '\t'
    rest = [] || rest = ['\r']
  | _ => false

/-- The offsets at which the marker lines of a text start and end, when the text starts at
`offset`. -/
def markersFrom (offset : Nat) (text : List Char) : List (Nat × Nat) :=
  let line := text.takeWhile (· != '\n')
  let found := if isMarker line then [(offset, offset + line.length)] else []
  match h : text.dropWhile (· != '\n') with
  | [] => found
  | _ :: rest =>
    have : rest.length < text.length := by
      have := congrArg List.length (List.takeWhile_append_dropWhile (p := (· != '\n')) (l := text))
      rw [h] at this
      simp only [List.length_append, List.length_cons] at this
      omega
    found ++ markersFrom (offset + line.length + 1) rest
termination_by text.length

def ofSource (source : List Char) : RulesSection :=
  match markersFrom 0 source with
  | [] => ⟨0, source⟩
  | [(_, stop)] => ⟨stop, source.drop stop⟩
  | (_, stop) :: (start, _) :: _ => ⟨stop, (source.drop stop).take (start - stop)⟩

end RulesSection

end GrammarOutline
