/-!
# Positions in a text

An offset counts the characters before it. Its line and column count from one, only a line feed ends
a line, and an offset beyond the end belongs to the last line. The snippet of an offset is its line
with a caret below the column.
-/
namespace GrammarOutline.Text

/-- The offset at which the line of `offset` starts. -/
def lineStart (source : List Char) (offset : Nat) : Nat :=
  let before := source.take offset
  before.length - (before.reverse.takeWhile (· != '\n')).length

/-- The number of the line that holds `offset`, counted from one. -/
def lineNumber (source : List Char) (offset : Nat) : Nat :=
  (source.take offset).count '\n' + 1

/-- The place of `offset` in its line, counted from one. -/
def column (source : List Char) (offset : Nat) : Nat :=
  offset - lineStart source offset + 1

/-- The line that holds `offset`, without its line feed. -/
def lineAt (source : List Char) (offset : Nat) : List Char :=
  (source.drop (lineStart source offset)).takeWhile (· != '\n')

/-- The line of `offset` and, on a line of its own, a caret after `indent` spaces. -/
def snippetAt (source : List Char) (offset indent : Nat) : String :=
  String.ofList (lineAt source offset ++ '\n' :: (List.replicate indent ' ' ++ ['^']))

/-- The line of `offset` with a caret under the column. -/
def snippet (source : List Char) (offset : Nat) : String :=
  snippetAt source offset (offset - lineStart source offset)

theorem lineStart_le (source : List Char) (offset : Nat) : lineStart source offset ≤ offset := by
  simp only [lineStart, List.length_take]
  omega

end GrammarOutline.Text
