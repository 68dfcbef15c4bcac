import GrammarOutline.Text.Blank

/-!
# Whole numbers

A whole number is written with decimal digits of any script after an optional sign. Single
underscores may stand between digits and blanks around the number. Numbers of more than `digitLimit`
digits are refused.
-/
namespace GrammarOutline.Text

/-- The code points of the digits zero: those with the decimal value zero in Unicode 14. The other
nine digits of a script follow its zero. -/
def digitZeros : List Nat :=
  [0x30, 0x660, 0x6f0, 0x7c0, 0x966, 0x9e6, 0xa66, 0xae6, 0xb66, 0xbe6, 0xc66, 0xce6, 0xd66,
   0xde6, 0xe50, 0xed0, 0xf20, 0x1040, 0x1090, 0x17e0, 0x1810, 0x1946, 0x19d0, 0x1a80, 0x1a90,
   0x1b50, 0x1bb0, 0x1c40, 0x1c50, 0xa620, 0xa8d0, 0xa900, 0xa9d0, 0xa9f0, 0xaa50, 0xabf0, 0xff10,
   0x104a0, 0x10d30, 0x11066, 0x110f0, 0x11136, 0x111d0, 0x112f0, 0x11450, 0x114d0, 0x11650,
   0x116c0, 0x11730, 0x118e0, 0x11950, 0x11c50, 0x11d50, 0x11da0, 0x16a60, 0x16ac0, 0x16b50,
   0x1d7ce, 0x1d7d8, 0x1d7e2, 0x1d7ec, 0x1d7f6, 0x1e140, 0x1e2f0, 0x1e950, 0x1fbf0]

def digitValue? (c : Char) : Option Nat :=
  (digitZeros.find? fun first => first ≤ c.toNat && c.toNat < first + 10).map (c.toNat - ·)

/-- The most digits that a number may have. -/
def digitLimit : Nat := 4300

/-- Reads the rest of a number of which `value` with `count` digits was read. A digit has to come
first when `needed` is set: at the start and after an underscore. -/
def digits? (value count : Nat) (needed : Bool) : List Char → Option Nat
  | [] => if needed || digitLimit < count then none else some value
  | c :: rest =>
    match digitValue? c with
    | some digit => digits? (value * 10 + digit) (count + 1) false rest
    | none => if c = '_' && !needed then digits? value count true rest else none

/-- Reads a number with an optional sign. -/
def signed? : List Char → Option Int
  | '-' :: rest => (digits? 0 0 true rest).map fun n => -(n : Int)
  | '+' :: rest => (digits? 0 0 true rest).map fun n => (n : Int)
  | text => (digits? 0 0 true text).map fun n => (n : Int)

/-- Reads a whole number with blanks around it. -/
def integer? (text : String) : Option Int :=
  signed? (((text.toList.dropWhile isBlank).reverse.dropWhile isBlank).reverse)

end GrammarOutline.Text
