import GrammarOutline.Expr.Inline
import GrammarOutline.Graph.Components

/-!
# Conversion of productions to definitions

The bodies of productions and of supplementary definitions are settled component by component, leaf
first. Settling a body substitutes the trivial bodies that are settled already. A name that was
referred to and no longer is has been inlined.
-/
namespace GrammarOutline

/-- The outcome of a conversion. The definitions of productions come leaf first and the
supplementary ones in their own order. `trivial` lists the names whose bodies were substituted, and
`inlined` those of them that no other body mentions any more. -/
structure Conversion where
  definitions : List Definition
  extra : List Definition
  components : List (List String)
  trivial : List String
  inlined : List String
  deriving DecidableEq

namespace Conversion

/-- The bodies that are settled so far, in order, and the trivial ones among them. -/
structure Settled where
  bodies : Table Expr := Table.empty
  trivial : Table Expr := Table.empty

/-- Settles the body of a name. It is trivial if it is small and its name is not recursive. -/
def Settled.add (policy : InlinePolicy) (s : Settled) (name : String) (recursive : Bool)
    (body : Expr) : Except DoubleQuantification Settled :=
  (body.inline s.trivial).map fun body =>
    { bodies := s.bodies.insert name body
      trivial := if !recursive && body.isTrivial policy then s.trivial.insert name body
        else s.trivial }

/-- Settles the bodies of a list of names in order. -/
def Settled.addAll (policy : InlinePolicy) (bodies : Table Expr) (s : Settled) :
    List (String × Bool) → Except DoubleQuantification Settled
  | [] => .ok s
  | (name, recursive) :: rest =>
    (s.add policy name recursive ((bodies.find? name).getD (.ref name))).bind fun s =>
      s.addAll policy bodies rest

/-- Whether an entry of another name mentions a name. -/
def mentioned (references : Table (List String)) (name : String) : Bool :=
  references.entries.any fun entry => entry.1 != name && entry.2.contains name

/-- The bodies before anything is settled: the productions and then the supplementary
definitions. -/
def sources (g : NamedProductions) (extra : Definitions) : Table Expr :=
  (g.table Production.body).append extra

/-- The names of components in order, each with whether its component is recursive. -/
def order (graph : Graph) (components : List (List String)) : List (String × Bool) :=
  components.flatMap fun names => names.map (·, graph.isRecursiveGroup names)

/-- Settles all bodies, component by component. -/
def settle (policy : InlinePolicy) (bodies : Table Expr) : Except DoubleQuantification Settled :=
  let graph := Definitions.graph bodies
  Settled.addAll policy bodies {} (order graph graph.components)

/-- The conversion whose bodies are settled. -/
def ofSettled (g : NamedProductions) (extra : Definitions) (policy : InlinePolicy) (s : Settled) :
    Conversion :=
  let graph := Definitions.graph (sources g extra)
  let after := s.bodies.map fun _ body => body.references
  let inlined := s.trivial.names.filter fun name => mentioned graph name && !mentioned after name
  let kept := s.bodies.entries.filter fun entry =>
    g.contains entry.1 && !(policy.dropInlined && inlined.contains entry.1)
  { definitions := kept.map fun entry => ⟨entry.1, entry.2⟩
    extra := extra.names.map fun name => ⟨name, (s.bodies.find? name).getD (.ref name)⟩
    components := graph.components
    trivial := s.trivial.names
    inlined := inlined }

def all (c : Conversion) : List Definition := c.definitions ++ c.extra

def lines (c : Conversion) : List String := Definition.lines c.all

end Conversion

/-- Converts productions together with supplementary definitions. The first of these whose name has
a production already is refused. -/
def NamedProductions.convert (g : NamedProductions) (extra : Definitions) (policy : InlinePolicy) :
    Except Fault Conversion :=
  match extra.names.find? g.contains with
  | some name => .error (.duplicate name)
  | none =>
    match Conversion.settle policy (Conversion.sources g extra) with
    | .error marks => .error (.doubleQuantification marks)
    | .ok s => .ok (Conversion.ofSettled g extra policy s)

end GrammarOutline
