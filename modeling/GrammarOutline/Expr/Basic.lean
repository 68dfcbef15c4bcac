/-!
# Grammar expressions

The body of a definition: alternatives, sequences, quantified operands, references to names and
terminals in their written form. Expressions have a decidable equality, and `references` lists the
names that an expression mentions.
-/
namespace GrammarOutline

/-- The expressions of the extended notation. A mark such as `?`, `*` or `+` quantifies its operand,
and the sequence without items stands for nothing at all. -/
inductive Expr where
  | alt (alternatives : List Expr)
  | seq (items : List Expr)
  | quant (operand : Expr) (mark : String)
  | ref (name : String)
  | term (text : String)
  deriving Inhabited

namespace Expr

/-- Induction over an expression, where a property of a list is one of all its members. -/
@[elab_as_elim]
theorem induct {motive : Expr → Prop} (alt : ∀ as, (∀ a ∈ as, motive a) → motive (.alt as))
    (seq : ∀ es, (∀ e ∈ es, motive e) → motive (.seq es))
    (quant : ∀ operand mark, motive operand → motive (.quant operand mark))
    (ref : ∀ name, motive (.ref name)) (term : ∀ text, motive (.term text)) : ∀ e, motive e
  | .alt as => alt as fun a _ => induct alt seq quant ref term a
  | .seq es => seq es fun e _ => induct alt seq quant ref term e
  | .quant operand mark => quant operand mark (induct alt seq quant ref term operand)
  | .ref name => ref name
  | .term text => term text

mutual

def decEq : (a b : Expr) → Decidable (a = b)
  | .alt as, .alt bs =>
    match decEqAll as bs with
    | .isTrue h => .isTrue (by rw [h])
    | .isFalse h => .isFalse (by simp [h])
  | .seq as, .seq bs =>
    match decEqAll as bs with
    | .isTrue h => .isTrue (by rw [h])
    | .isFalse h => .isFalse (by simp [h])
  | .quant a s, .quant b t =>
    if hst : s = t then
      match decEq a b with
      | .isTrue h => .isTrue (by rw [h, hst])
      | .isFalse h => .isFalse (by simp [h])
    else .isFalse (by simp [hst])
  | .ref m, .ref n => if h : m = n then .isTrue (by rw [h]) else .isFalse (by simp [h])
  | .term s, .term t => if h : s = t then .isTrue (by rw [h]) else .isFalse (by simp [h])
  | .alt _, .seq _ | .alt _, .quant _ _ | .alt _, .ref _ | .alt _, .term _
  | .seq _, .alt _ | .seq _, .quant _ _ | .seq _, .ref _ | .seq _, .term _
  | .quant _ _, .alt _ | .quant _ _, .seq _ | .quant _ _, .ref _ | .quant _ _, .term _
  | .ref _, .alt _ | .ref _, .seq _ | .ref _, .quant _ _ | .ref _, .term _
  | .term _, .alt _ | .term _, .seq _ | .term _, .quant _ _ | .term _, .ref _ =>
    .isFalse (by simp)

def decEqAll : (as bs : List Expr) → Decidable (as = bs)
  | [], [] => .isTrue rfl
  | [], _ :: _ => .isFalse (by simp)
  | _ :: _, [] => .isFalse (by simp)
  | a :: as, b :: bs =>
    match decEq a b with
    | .isFalse h => .isFalse (by simp [h])
    | .isTrue h =>
      match decEqAll as bs with
      | .isTrue hs => .isTrue (by rw [h, hs])
      | .isFalse hs => .isFalse (by simp [hs])

end

instance : DecidableEq Expr := decEq

/-- The expression that stands for nothing at all. -/
def empty : Expr := .seq []

/-- References and terminals are atoms. -/
def isAtom : Expr → Bool
  | .ref _ | .term _ => true
  | _ => false

/-- Whether a mark is at the root. -/
def isQuant : Expr → Bool
  | .quant _ _ => true
  | _ => false

def isAlt : Expr → Bool
  | .alt _ => true
  | _ => false

def isSeq : Expr → Bool
  | .seq _ => true
  | _ => false

mutual

/-- The names that an expression mentions, from left to right and with repeats. -/
def references : Expr → List String
  | .alt as => referencesAll as
  | .seq items => referencesAll items
  | .quant operand _ => references operand
  | .ref name => [name]
  | .term _ => []

def referencesAll : List Expr → List String
  | [] => []
  | e :: es => references e ++ referencesAll es

end

theorem referencesAll_eq (es : List Expr) : referencesAll es = es.flatMap references := by
  induction es with
  | nil => rfl
  | cons e es ih => simp [referencesAll, ih]

theorem mem_referencesAll {es : List Expr} {e : Expr} (he : e ∈ es) {name : String}
    (h : name ∈ e.references) : name ∈ referencesAll es := by
  rw [referencesAll_eq]
  exact List.mem_flatMap.2 ⟨e, he, h⟩

end Expr

structure Definition where
  name : String
  body : Expr
  deriving DecidableEq

/-- Whether the body mentions the name itself. Other definitions are not followed. -/
def Definition.isRecursive (d : Definition) : Bool := d.body.references.contains d.name

end GrammarOutline
