import GrammarOutline.Definition.Reader
import GrammarOutline.Production.Grammar

/-!
# Graphs of names

A node is a name with the names it has edges to, in order. Edges may be repeated and may lead to
names that are no nodes. A graph of references keeps each edge once and only those between nodes.
-/
namespace GrammarOutline

/-- Nodes in order, each with the targets of its edges. -/
abbrev Graph := Table (List String)

namespace Graph

/-- The targets of the edges of a node. A name that is no node has none. -/
def successors (g : Graph) (name : String) : List String := (g.find? name).getD []

/-- The graph of references: an edge for each name that is a node, in the order in which the names
first come. -/
def ofReferences (references : Table (List String)) : Graph :=
  references.map fun _ names => (names.filter references.contains).eraseDups

@[simp] theorem names_ofReferences (references : Table (List String)) :
    (ofReferences references).names = references.names := by
  simp [ofReferences]

theorem successors_of_not_mem {g : Graph} {name : String} (h : name ∉ g.names) :
    g.successors name = [] := by
  rw [successors, Table.find?_eq_none_iff.2 h, Option.getD_none]

end Graph

def NamedProductions.table {α : Type} (g : NamedProductions) (f : Production → α) : Table α where
  entries := g.productions.map fun p => (p.name, f p)
  nodup := by
    rw [List.map_map]
    exact g.distinct

namespace NamedProductions

variable {α : Type}

/-- A look-up in the table finds what the production of the name is mapped to. -/
theorem find?_table (g : NamedProductions) (f : Production → α) (name : String) :
    (g.table f).find? name = (g.find? name).map f := by
  simp only [Table.find?, table, find?]
  induction g.productions with
  | nil => rfl
  | cons p ps ih =>
    rw [List.map_cons, Table.lookup_cons, List.find?_cons, ih]
    by_cases h : name = p.name
    · simp [h]
    · simp [h, Ne.symm h]

@[simp] theorem names_table (g : NamedProductions) (f : Production → α) :
    (g.table f).names = g.names := by
  simp [Table.names, table, names]

end NamedProductions

/-- The references between productions. -/
def NamedProductions.graph (g : NamedProductions) : Graph :=
  Graph.ofReferences (g.table Production.references)

def Definitions.graph (defs : Definitions) : Graph :=
  Graph.ofReferences (defs.map fun _ body => body.references)

end GrammarOutline
