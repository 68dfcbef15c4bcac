import GrammarOutline.Fault
import GrammarOutline.Expr.Normal

/-!
# Productions and grammars

A production gives a name its rules, and a rule is a row of names and literals. A grammar keeps its
productions in order. No name has two productions, and no production has two rules without elements.
-/
namespace GrammarOutline

/-- A name, or a literal with its quotes. -/
inductive Element where
  | name (identifier : String)
  | literal (text : String)
  deriving DecidableEq

abbrev Rule := List Element

structure Production where
  name : String
  rules : List Rule
  deriving DecidableEq

def Element.expr : Element → Expr
  | .name identifier => .ref identifier
  | .literal text => .term text

def Element.reference? : Element → Option String
  | .name identifier => some identifier
  | .literal _ => none

namespace Production

/-- The names that a production mentions, in order and with repeats. -/
def references (p : Production) : List String := p.rules.flatten.filterMap Element.reference?

/-- How many rules have no elements. -/
def emptyRules (p : Production) : Nat := p.rules.countP List.isEmpty

/-- A production as a choice of sequences, as it is written. -/
def expr (p : Production) : Expr := .alt (p.rules.map fun rule => .seq (rule.map Element.expr))

def body (p : Production) : Expr :=
  Expr.ofAlternatives (p.rules.map fun rule => Expr.ofItems (rule.map Element.expr))

theorem normalizeAll_elements (rule : Rule) :
    Expr.normalizeAll (rule.map Element.expr) = .ok (rule.map Element.expr) := by
  induction rule with
  | nil => rfl
  | cons element rule ih =>
    have helement : element.expr.normalize = .ok element.expr := by cases element <;> rfl
    simp [Expr.normalizeAll, helement, ih, Except.bind, Except.map]

theorem normalizeAll_rules (rules : List Rule) :
    Expr.normalizeAll (rules.map fun rule => .seq (rule.map Element.expr)) =
      .ok (rules.map fun rule => Expr.ofItems (rule.map Element.expr)) := by
  induction rules with
  | nil => rfl
  | cons rule rules ih =>
    simp [Expr.normalizeAll, Expr.normalize, normalizeAll_elements, ih, Except.bind, Except.map]

/-- A production has no marks, so its normal form always exists. -/
theorem normalize_expr (p : Production) : p.expr.normalize = .ok p.body := by
  simp [expr, body, Expr.normalize, normalizeAll_rules, Except.map]

end Production

/-- Productions in order, of which no two have one name. -/
structure NamedProductions where
  productions : List Production
  distinct : (productions.map Production.name).Nodup

namespace NamedProductions

def names (g : NamedProductions) : List String := g.productions.map Production.name

def contains (g : NamedProductions) (name : String) : Bool := g.names.contains name

def find? (g : NamedProductions) (name : String) : Option Production :=
  g.productions.find? fun p => p.name = name

theorem mem_names_of_find? {g : NamedProductions} {name : String} {p : Production}
    (h : g.find? name = some p) : name ∈ g.names := by
  have hname : p.name = name := by simpa using List.find?_some h
  exact hname ▸ List.mem_map_of_mem (List.mem_of_find?_eq_some h)

end NamedProductions

/-- Productions of which besides none has two rules without elements. -/
structure Grammar extends NamedProductions where
  emptyRules_le_one : ∀ p ∈ productions, p.emptyRules ≤ 1

instance : Coe Grammar NamedProductions := ⟨Grammar.toNamedProductions⟩

namespace Grammar

def empty : Grammar where
  productions := []
  distinct := List.nodup_nil
  emptyRules_le_one := by simp

/-- Adds a production at the end. It is refused if its name has one already, or else if more than
one of its rules is without elements. -/
def add (g : Grammar) (p : Production) : Except Fault Grammar :=
  if hname : g.contains p.name then .error (.duplicate p.name)
  else if hempty : 1 < p.emptyRules then .error (.emptyAlternatives p.name p.emptyRules)
  else .ok {
    productions := g.productions ++ [p]
    distinct := by
      have hp : p.name ∉ g.productions.map Production.name := by
        simpa [NamedProductions.contains, NamedProductions.names] using hname
      rw [List.map_append, List.nodup_append]
      refine ⟨g.distinct, by simp, ?_⟩
      intro a ha b hb hab
      simp only [List.map_cons, List.map_nil, List.mem_singleton] at hb
      exact hp (hb ▸ hab ▸ ha)
    emptyRules_le_one := by
      intro q hq
      rcases List.mem_append.1 hq with hq | hq
      · exact g.emptyRules_le_one q hq
      · rw [List.mem_singleton.1 hq]
        omega }

/-- Adds productions in order, up to the first that is refused. -/
def addAll (g : Grammar) : List Production → Except Fault Grammar
  | [] => .ok g
  | p :: ps => (g.add p).bind fun g => g.addAll ps

end Grammar

end GrammarOutline
