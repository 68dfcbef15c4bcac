/-!
# Blank characters

The characters that separate words in both notations: those with the Unicode property `White_Space`.
An excerpt of a text that cannot be read is cut at the first blank.
-/
namespace GrammarOutline.Text

/-- The characters with the property `White_Space`, as closed intervals of code points. -/
def blankRanges : List (Nat × Nat) :=
  [(0x9, 0xd), (0x20, 0x20), (0x85, 0x85), (0xa0, 0xa0), (0x1680, 0x1680), (0x2000, 0x200a),
   (0x2028, 0x2029), (0x202f, 0x202f), (0x205f, 0x205f), (0x3000, 0x3000)]

def isBlank (c : Char) : Bool :=
  blankRanges.any fun range => range.1 ≤ c.toNat && c.toNat ≤ range.2

/-- The most characters that an excerpt shows. -/
def excerptLimit : Nat := 16

/-- The excerpt of a text that cannot be read: its first characters up to a blank, at most
`excerptLimit` of them, and a leading blank by itself. -/
def excerpt : List Char → List Char
  | [] => []
  | c :: rest =>
    if isBlank c then [c] else ((c :: rest).take excerptLimit).takeWhile fun d => !isBlank d

end GrammarOutline.Text
