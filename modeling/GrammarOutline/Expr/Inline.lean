import GrammarOutline.Expr.Normal
import GrammarOutline.Table

/-!
# Trivial bodies and their substitution

A body is trivial when it is small enough to be shown where its name is used. `inline` puts bodies
in the place of their names until nothing changes. A body that is quantified is never put under
another mark: there the name stays.
-/
namespace GrammarOutline

/-- How small a trivial body is, and whether definitions that were substituted everywhere are left
out. A choice of atoms has at most `maxAlternatives` and a sequence of atoms at most
`maxSequence`. -/
structure InlinePolicy where
  maxAlternatives : Int := 4
  maxSequence : Int := 3
  dropInlined : Bool := false
  deriving DecidableEq

namespace Expr

mutual

/-- Whether a normal form is small enough to be shown in the place of its name: a short choice of
atoms, a sequence of atoms and trivial sequences, or a quantified atom. -/
def isTrivial (policy : InlinePolicy) : Expr → Bool
  | .alt as => (as.length : Int) ≤ policy.maxAlternatives && as.all isAtom
  | .seq es =>
    if es.all isAtom then (es.length : Int) ≤ policy.maxSequence else allAtomOrTrivial policy es
  | .quant operand _ => operand.isAtom
  | .ref _ | .term _ => false

def allAtomOrTrivial (policy : InlinePolicy) : List Expr → Bool
  | [] => true
  | e :: es => (e.isAtom || isTrivial policy e) && allAtomOrTrivial policy es

end

mutual

/-- One pass of substitution, followed by normalization. The operand of a mark is left as it is when
its own substitution is quantified. -/
def substitute (bodies : Table Expr) : Expr → Except DoubleQuantification Expr
  | .alt as => (substituteAll bodies as).bind fun as => normalize (.alt as)
  | .seq es => (substituteAll bodies es).bind fun es => normalize (.seq es)
  | .quant operand mark => (substitute bodies operand).bind fun inner =>
    normalize (.quant (if inner.isQuant then operand else inner) mark)
  | .ref name => .ok ((bodies.find? name).getD (.ref name))
  | .term text => .ok (.term text)

def substituteAll (bodies : Table Expr) : List Expr → Except DoubleQuantification (List Expr)
  | [] => .ok []
  | e :: es => (substitute bodies e).bind fun n => (substituteAll bodies es).map (n :: ·)

end

/-- Repeats `substitute` until nothing changes, at most `passes` times. -/
def inlineWithin (bodies : Table Expr) : (passes : Nat) → Expr → Except DoubleQuantification Expr
  | 0, e => .ok e
  | passes + 1, e => (substitute bodies e).bind fun next =>
    if next = e then .ok e else inlineWithin bodies passes next

/-- Puts bodies in the place of their names until nothing changes. When no body leads back to its
own name, a pass for each name, one to normalize and one to see no change are enough. -/
def inline (bodies : Table Expr) (e : Expr) : Except DoubleQuantification Expr :=
  inlineWithin bodies (bodies.entries.length + 2) e

end Expr

end GrammarOutline
