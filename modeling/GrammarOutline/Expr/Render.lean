import GrammarOutline.Expr.Basic

/-!
# Writing expressions

An expression is written on one line. A bar separates alternatives, a space separates items, and a
mark follows its operand. Parentheses stand where an expression binds more loosely than its place
requires, and nowhere else.
-/
namespace GrammarOutline

namespace Expr

/-- How tightly an expression binds: a choice least, then a sequence, then a mark, and an atom
most. -/
def precedence : Expr → Nat
  | .alt _ => 0
  | .seq _ => 1
  | .quant _ _ => 2
  | .ref _ | .term _ => 3

/-- Puts parentheses around the text of `e` when `e` binds more loosely than `required`. -/
def enclose (required : Nat) (e : Expr) (text : List Char) : List Char :=
  if e.precedence < required then '(' :: text ++ [')'] else text

mutual

/-- An expression without parentheses around the whole. -/
def bare : Expr → List Char
  | .alt as => ['|'].intercalate (bareAll 1 as)
  | .seq es => [' '].intercalate (bareAll 2 es)
  | .quant operand mark => enclose 3 operand (bare operand) ++ mark.toList
  | .ref name => name.toList
  | .term text => text.toList

/-- The members of a list, each in a place that requires it to bind as tightly as `required`. -/
def bareAll (required : Nat) : List Expr → List (List Char)
  | [] => []
  | e :: es => enclose required e (bare e) :: bareAll required es

end

/-- An expression in a place that requires it to bind as tightly as `required`. -/
def written (required : Nat) (e : Expr) : List Char := enclose required e (bare e)

theorem bareAll_eq (required : Nat) (es : List Expr) :
    bareAll required es = es.map (written required) := by
  induction es with
  | nil => rfl
  | cons e es ih => simp [bareAll, written, ih]

/-- The text of an expression that stands by itself. -/
def render (e : Expr) : String := String.ofList (written 0 e)

end Expr

/-- A definition on one line. A body without text leaves nothing after the sign. -/
def Definition.chars (d : Definition) : List Char :=
  let body := d.body.written 0
  d.name.toList ++ " ::=".toList ++ if body.isEmpty then [] else ' ' :: body

def Definition.render (d : Definition) : String := String.ofList d.chars

/-- The lines of a list of definitions: one for each, and an empty last one. -/
def Definition.lines (ds : List Definition) : List String := ds.map Definition.render ++ [""]

end GrammarOutline
