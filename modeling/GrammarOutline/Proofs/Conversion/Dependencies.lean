import GrammarOutline.Conversion
import GrammarOutline.Proofs.Expr.References

/-!
# Dependencies of productions and of definitions

The dependencies of productions are read off their rules, and those of definitions off their bodies.
The body of a production is the normal form of its rules, which mentions the same names in the same
order. Both ways therefore give the same graph, and a conversion goes by the graph that the rules
show.
-/
namespace GrammarOutline

namespace Production

/-- Productions with different names, as a table. -/
def table {α : Type} (ps : List Production) (distinct : (ps.map name).Nodup) (f : Production → α) :
    Table α where
  entries := ps.map fun p => (p.name, f p)
  nodup := by
    rw [List.map_map]
    exact distinct

theorem references_elements (rule : Rule) :
    Expr.referencesAll (rule.map Element.expr) = rule.filterMap Element.reference? := by
  induction rule with
  | nil => rfl
  | cons element rule ih =>
    rw [List.map_cons, Expr.referencesAll, ih]
    cases element <;> rfl

theorem references_expr (p : Production) : p.expr.references = p.references := by
  have hrules : ∀ rules : List Rule,
      Expr.referencesAll (rules.map fun rule => .seq (rule.map Element.expr)) =
        rules.flatten.filterMap Element.reference? := by
    intro rules
    induction rules with
    | nil => rfl
    | cons rule rules ih =>
      rw [List.map_cons, Expr.referencesAll, Expr.references, references_elements, ih,
        List.flatten_cons, List.filterMap_append]
  exact hrules p.rules

theorem references_body (p : Production) : p.body.references = p.references :=
  (Expr.references_normalize p.normalize_expr).trans p.references_expr

theorem map_references_table (ps : List Production) (distinct : (ps.map name).Nodup) :
    (table ps distinct body).map (fun _ body => body.references) =
      table ps distinct references := by
  apply Table.ext
  simp [table, Table.map, references_body]

end Production

/-- An expression keeps its references on the way to normal form, in order and with repeats.
Productions have the same graph whether their rules are asked or their bodies, and so have
productions together with supplementary definitions. -/
theorem normalize_keeps_references :
    (∀ e n : Expr, e.normalize = .ok n → n.references = e.references) ∧
    (∀ p : Production, p.expr.normalize = .ok p.body) ∧
    (∀ (ps : List Production) (distinct : (ps.map Production.name).Nodup),
      Graph.ofReferences (Production.table ps distinct Production.references) =
        Definitions.graph (Production.table ps distinct Production.body)) ∧
    ∀ (g : Grammar) (extra : Definitions),
      g.graph = Definitions.graph (Conversion.sources g Table.empty) ∧
      Definitions.graph (Conversion.sources g extra) = Graph.ofReferences
        ((g.table Production.references).append (extra.map fun _ body => body.references)) := by
  refine ⟨fun e n h => Expr.references_normalize h, Production.normalize_expr,
    fun ps distinct => ?_, fun g extra => ?_⟩
  · rw [Definitions.graph, Production.map_references_table]
  · have htable : (g.table Production.body).map (fun _ body => body.references) =
        g.table Production.references := Production.map_references_table g.productions g.distinct
    constructor
    · exact congrArg Graph.ofReferences htable.symm
    · rw [Definitions.graph, Conversion.sources, Table.map_append, htable]

/-- Names stay in order and as often where alternatives vanish, sequences are spliced and a name is
mentioned twice. The production has two rules without elements. -/
theorem normalize_keeps_references_spliced :
    let e := Expr.seq [.alt [.seq [.ref "b", .seq [.ref "a"]], .seq [], .alt [.ref "a", .seq []]],
      .quant (.seq []) "+", .seq [.ref "b"]]
    let n := Expr.seq [.quant (.alt [.seq [.ref "b", .ref "a"], .quant (.ref "a") "?"]) "?",
      .ref "b"]
    let ps : List Production := [⟨"a", [[], [.name "b", .literal "'x'", .name "a", .name "b"], []]⟩,
      ⟨"b", [[.name "NAME"]]⟩]
    e.normalize = .ok n ∧ n.references = e.references ∧ n.references = ["b", "a", "a", "b"] ∧
      ∃ distinct : (ps.map Production.name).Nodup,
        Graph.ofReferences (Production.table ps distinct Production.references) =
          Definitions.graph (Production.table ps distinct Production.body) ∧
        (Definitions.graph (Production.table ps distinct Production.body)).entries =
          [("a", ["b", "a"]), ("b", [])] := by
  intro e n ps
  obtain ⟨hkeeps, -, hgraph, -⟩ := normalize_keeps_references
  have hn : e.normalize = .ok n := by rfl
  exact ⟨hn, hkeeps e n hn, by rfl, by decide, hgraph ps (by decide), by decide⟩

end GrammarOutline
