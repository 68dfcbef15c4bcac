import GrammarOutline.Proofs.Conversion.Determined

/-!
# Cycles of the written definitions

The written bodies mention other names than the bodies from which they come, but what they mention
is reached there too. A name on a cycle is never trivial, so it is written and stays mentioned
wherever it was. The names that lie on cycles are therefore the same.
-/
namespace GrammarOutline
open Relation

/-- The edges of a cycle are those whose target leads back to their source. -/
theorem Graph.transGen_of_cycle {graph : Graph} {p : String → String → Prop}
    (hedge : ∀ x y, graph.Edge x y → ReflTransGen graph.Edge y x → p x y) {n : String}
    (h : TransGen graph.Edge n n) : TransGen p n n := by
  have hpath : ∀ m, TransGen graph.Edge n m → ReflTransGen graph.Edge m n → TransGen p n m := by
    intro m hm
    induction hm with
    | single hfirst => exact fun hback => .single (hedge _ _ hfirst hback)
    | tail hto hlast ih =>
      intro hback
      exact .tail (ih (.head hlast hback)) (hedge _ _ hlast (hback.trans hto.to_reflTransGen))
  exact hpath n h .refl

namespace Conversion

/-- What is written, as a table. -/
def table (c : Conversion) : Definitions := Table.ofList (c.all.map fun d => (d.name, d.body))

section Written

variable {g : NamedProductions} {extra : Definitions} {policy : InlinePolicy} {s : Settled}

theorem entries_table (hg : g.Admits extra) (policy : InlinePolicy) (s : Settled) :
    (ofSettled g extra policy s).table.entries =
      (ofSettled g extra policy s).all.map fun d => (d.name, d.body) := by
  have hnodup : (((ofSettled g extra policy s).all.map fun d => (d.name, d.body)).map
      Prod.fst).Nodup := by
    rw [List.map_map]
    exact nodup_names_all hg policy s
  rw [table, Table.ofList_of_nodup hnodup]

theorem names_table (hg : g.Admits extra) (policy : InlinePolicy) (s : Settled) :
    (ofSettled g extra policy s).table.names =
      (ofSettled g extra policy s).all.map Definition.name := by
  rw [Table.names, entries_table hg, List.map_map]
  rfl

variable (h : Settles g extra policy s)

include h

theorem Settles.find?_table {n : String} {b : Expr} :
    (ofSettled g extra policy s).table.find? n = some b ↔
      s.bodies.find? n = some b ∧ ¬LeftOut g policy (ofSettled g extra policy s) n := by
  rw [Table.find?_eq_some_iff, entries_table h.admits, List.mem_map]
  constructor
  · rintro ⟨d, hd, ⟨⟩⟩
    exact (mem_all_ofSettled h.admits h.valid).1 hd
  · exact fun hn => ⟨⟨n, b⟩, (mem_all_ofSettled h.admits h.valid).2 hn, rfl⟩

theorem Settles.mem_names_table {n : String} : n ∈ (ofSettled g extra policy s).table.names ↔
    n ∈ (sources g extra).names ∧ ¬LeftOut g policy (ofSettled g extra policy s) n := by
  rw [NamedProductions.mem_names_sources, ← h.valid.mem_names_bodies]
  constructor
  · intro hn
    obtain ⟨b, hb⟩ := Table.exists_find?_of_mem hn
    obtain ⟨hb, hkept⟩ := h.find?_table.1 hb
    exact ⟨Table.mem_names_of_find? hb, hkept⟩
  · rintro ⟨hn, hkept⟩
    obtain ⟨b, hb⟩ := Table.exists_find?_of_mem hn
    exact Table.mem_names_of_find? (h.find?_table.2 ⟨hb, hkept⟩)

/-- What a written body mentions was reached before. -/
theorem Settles.transGen_of_edge_table {n m : String}
    (hedge : (Definitions.graph (ofSettled g extra policy s).table).Edge n m) :
    TransGen (Definitions.graph (sources g extra)).Edge n m := by
  obtain ⟨⟨b, hb, hmention⟩, hm⟩ := Definitions.edge_graph_iff.1 hedge
  exact h.valid.reached n b (h.find?_table.1 hb).1 m hmention (h.mem_names_table.1 hm).1

theorem Settles.mem_names_table_of_cycle {n : String}
    (hcycle : TransGen (Definitions.graph (sources g extra)).Edge n n) :
    n ∈ (ofSettled g extra policy s).table.names := by
  obtain ⟨m, hedge, -⟩ := TransGen.head'_iff.1 hcycle
  have hn : n ∈ (sources g extra).names := by
    have := hedge.source_mem
    rwa [Definitions.names_graph] at this
  refine h.mem_names_table.2 ⟨hn, fun hout => ?_⟩
  exact Table.find?_eq_none_iff.1 (h.determined.find?_trivial_of_cycle hcycle)
    (mem_inlined_ofSettled.1 hout.2.2).1

/-- The edges of a cycle stay when bodies are settled. -/
theorem Settles.edge_table_of_cycle {n m : String}
    (hedge : (Definitions.graph (sources g extra)).Edge n m)
    (hback : ReflTransGen (Definitions.graph (sources g extra)).Edge m n) :
    (Definitions.graph (ofSettled g extra policy s).table).Edge n m := by
  have hn : TransGen (Definitions.graph (sources g extra)).Edge n n := .head' hedge hback
  have hm : TransGen (Definitions.graph (sources g extra)).Edge m m := .tail' hback hedge
  obtain ⟨⟨b, hb, hmention⟩, -⟩ := Definitions.edge_graph_iff.1 hedge
  obtain ⟨r, hr, hfound⟩ := h.determined.body n (Table.mem_names_of_find? hb) b hb
  have hkept := (h.mem_names_table.1 (h.mem_names_table_of_cycle hn)).2
  have hmention := Expr.mem_references_substitute h.valid.normal_trivial
    (h.admits.normal_sources n b hb) hr hmention (h.determined.find?_trivial_of_cycle hm)
  exact Definitions.edge_graph_iff.2
    ⟨⟨r, h.find?_table.2 ⟨hfound, hkept⟩, hmention⟩, h.mem_names_table_of_cycle hm⟩

/-- The same names lie on cycles of the written definitions as before. -/
theorem Settles.cycle_table_iff {n : String} :
    TransGen (Definitions.graph (ofSettled g extra policy s).table).Edge n n ↔
      TransGen (Definitions.graph (sources g extra)).Edge n n :=
  ⟨TransGen.closed (fun _ _ => h.transGen_of_edge_table) n n,
    Graph.transGen_of_cycle fun _ _ => h.edge_table_of_cycle⟩

end Written

end Conversion

end GrammarOutline
