import GrammarOutline.Text.Printable

/-!
# Quoted texts

How a text is shown inside a message: between quotes, on one line, with every character that cannot
be printed written as an escape. A list of texts is shown between parentheses.
-/
namespace GrammarOutline.Text

/-- The quote around a text: single, unless the text holds a single quote and no double one. -/
def quoteFor (text : List Char) : Char :=
  if text.contains '\'' && !text.contains '"' then '"' else '\''

/-- The last `width` hexadecimal digits of a number, in lower case. -/
def hexDigits : (width : Nat) → Nat → List Char
  | 0, _ => []
  | width + 1, n => hexDigits width (n / 16) ++ [Nat.digitChar (n % 16)]

@[simp] theorem hexDigits_length (width n : Nat) : (hexDigits width n).length = width := by
  induction width generalizing n with
  | zero => rfl
  | succ width ih => simp [hexDigits, ih]

/-- The numeric escape of a code point: two, four or eight digits, the fewest that hold it. -/
def numericEscape (n : Nat) : List Char :=
  if n < 0x100 then '\\' :: 'x' :: hexDigits 2 n
  else if n < 0x10000 then '\\' :: 'u' :: hexDigits 4 n
  else '\\' :: 'U' :: hexDigits 8 n

/-- One character inside `quote`. The backslash and the quote itself are escaped, line breaks and
tabs have letters, and other characters that cannot be printed are written by number. -/
def quoteChar (quote c : Char) : List Char :=
  if c = '\\' || c = quote then ['\\', c]
  else if c = '\n' then ['\\', 'n']
  else if c = '\r' then ['\\', 'r']
  else if c = '\t' then ['\\', 't']
  else if isPrintable c then [c]
  else numericEscape c.toNat

def quoteChars (text : List Char) : List Char :=
  let quote := quoteFor text
  quote :: text.flatMap (quoteChar quote) ++ [quote]

/-- A text between quotes. -/
def quote (text : String) : String :=
  String.ofList (quoteChars text.toList)

/-- A list of texts between parentheses. A list of one has a comma after it, so that it is told
apart from a text in parentheses. -/
def quoteAll : List String → String
  | [text] => "(" ++ quote text ++ ",)"
  | texts => "(" ++ ", ".intercalate (texts.map quote) ++ ")"

end GrammarOutline.Text
