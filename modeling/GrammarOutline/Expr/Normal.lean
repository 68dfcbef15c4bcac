import GrammarOutline.Expr.Basic

/-!
# Normal forms of expressions

Children are brought to normal form first and then joined: nested alternatives and nested sequences
are spliced into their parent, an alternative that stands for nothing makes the others optional, and
a list of one is its only member. A quantified expression cannot be quantified again, so the normal
form of some expressions does not exist.
-/
namespace GrammarOutline

/-- A mark over an operand that is already quantified: the expression as it was written, and the
same mark over the normal form of the operand. -/
structure DoubleQuantification where
  written : Expr
  reduced : Expr
  deriving DecidableEq

namespace Expr

/-- The alternatives of an expression, which is its own only one unless it is a choice. -/
def alternatives : Expr → List Expr
  | .alt as => as
  | e => [e]

/-- The items of an expression, which is its own only one unless it is a sequence. -/
def items : Expr → List Expr
  | .seq es => es
  | e => [e]

/-- The choice between normal forms: none is nothing at all and one is itself. -/
def choose : List Expr → Expr
  | [] => empty
  | [e] => e
  | es => .alt es

/-- Makes a normal form optional. Nothing at all stays what it is, `?` and `*` allow nothing
already, and `+` becomes `*`. -/
def optional : Expr → Expr
  | .quant operand mark => if mark = "+" then .quant operand "*" else .quant operand mark
  | e => if e = empty then empty else .quant e "?"

theorem optional_cases (e : Expr) :
    (∃ operand mark, e = .quant operand mark ∧
      e.optional = .quant operand (if mark = "+" then "*" else mark)) ∨
    e = empty ∧ e.optional = empty ∨
    e.isQuant = false ∧ e ≠ empty ∧ e.optional = .quant e "?" := by
  cases e with
  | quant operand mark =>
    refine .inl ⟨operand, mark, rfl, ?_⟩
    by_cases hplus : mark = "+" <;> simp [optional, hplus]
  | seq es =>
    by_cases hempty : Expr.seq es = empty
    · exact .inr (.inl ⟨hempty, by simp [optional, hempty]⟩)
    · exact .inr (.inr ⟨rfl, hempty, by simp [optional, hempty]⟩)
  | alt | ref | term => exact .inr (.inr ⟨rfl, by simp [empty], by simp [optional, empty]⟩)

/-- Joins normal forms into the normal form of their choice. -/
def ofAlternatives (es : List Expr) : Expr :=
  let spliced := es.flatMap alternatives
  let present := spliced.filter (· ≠ empty)
  if present.length < spliced.length then optional (choose present) else choose present

/-- Joins normal forms into the normal form of their sequence. -/
def ofItems (es : List Expr) : Expr :=
  match es.flatMap items with
  | [e] => e
  | spliced => .seq spliced

theorem ofItems_cases (es : List Expr) :
    (∃ e, es.flatMap items = [e] ∧ ofItems es = e) ∨
      (es.flatMap items).length ≠ 1 ∧ ofItems es = .seq (es.flatMap items) := by
  unfold ofItems
  match es.flatMap items with
  | [] => exact .inr ⟨by simp, rfl⟩
  | [e] => exact .inl ⟨e, rfl, rfl⟩
  | a :: b :: es => exact .inr ⟨by simp, rfl⟩

/-- Puts a mark over the normal form of `operand`, and refuses a second one. -/
def ofQuantified (operand : Expr) (mark : String) (inner : Expr) :
    Except DoubleQuantification Expr :=
  if inner.isQuant then .error ⟨.quant operand mark, .quant inner mark⟩
  else if inner = empty then .ok empty
  else .ok (.quant inner mark)

theorem ofQuantified_cases {operand inner n : Expr} {mark : String}
    (h : ofQuantified operand mark inner = .ok n) : inner.isQuant = false ∧
      (inner = empty ∧ n = empty ∨ inner ≠ empty ∧ n = .quant inner mark) := by
  have hquant : ¬inner.isQuant = true := fun hquant => by simp [ofQuantified, hquant] at h
  rw [ofQuantified, if_neg hquant] at h
  refine ⟨by simpa using hquant, ?_⟩
  by_cases hempty : inner = empty
  · rw [if_pos hempty] at h
    exact .inl ⟨hempty, (Except.ok.inj h).symm⟩
  · rw [if_neg hempty] at h
    exact .inr ⟨hempty, (Except.ok.inj h).symm⟩

mutual

/-- The normal form of an expression, or its first double quantification. -/
def normalize : Expr → Except DoubleQuantification Expr
  | .alt as => (normalizeAll as).map ofAlternatives
  | .seq es => (normalizeAll es).map ofItems
  | .quant operand mark => (normalize operand).bind (ofQuantified operand mark)
  | .ref name => .ok (.ref name)
  | .term text => .ok (.term text)

def normalizeAll : List Expr → Except DoubleQuantification (List Expr)
  | [] => .ok []
  | e :: es => (normalize e).bind fun n => (normalizeAll es).map (n :: ·)

end

end Expr

end GrammarOutline
