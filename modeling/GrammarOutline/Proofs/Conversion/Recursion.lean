import GrammarOutline.CommandLine.Run
import GrammarOutline.Proofs.Conversion.Cycles

/-!
# Recursion of the written definitions

A trivial body that brings in the name for which it is settled would lie on a cycle with it, and no
name on a cycle is trivial. So a written definition mentions itself exactly if it did before. The
recursive components can be told from what is written, also where all their members are left out.
-/
namespace GrammarOutline
open Relation

theorem Graph.isRecursiveGroup_congr {g g' : Graph}
    (h : ∀ name, TransGen g.Edge name name ↔ TransGen g'.Edge name name) (names : List String) :
    g.isRecursiveGroup names = g'.isRecursiveGroup names := by
  cases names with
  | nil => rfl
  | cons name others =>
    have hself : g.reachesSelf name = g'.reachesSelf name := by
      rw [Bool.eq_iff_iff, reachesSelf, reachesSelf, reaches_eq_true_iff, reaches_eq_true_iff, h]
    rw [isRecursiveGroup, isRecursiveGroup, hself]

namespace Conversion

variable {g : NamedProductions} {extra : Definitions} {policy : InlinePolicy} {s : Settled}

/-- A settled body mentions its own name exactly if the body from which it comes does. -/
theorem Settles.mem_references_self_iff (h : Settles g extra policy s) {n : String} {b r : Expr}
    (hb : (sources g extra).find? n = some b) (hr : s.bodies.find? n = some r) :
    n ∈ r.references ↔ n ∈ b.references := by
  have hn : n ∈ (sources g extra).names := Table.mem_names_of_find? hb
  have hnormal := h.admits.normal_sources n b hb
  obtain ⟨r', hsubstitute, hfound⟩ := h.determined.body n hn b hb
  obtain rfl : r = r' := Option.some.inj (hr.symm.trans hfound)
  constructor
  · intro hmention
    rcases Expr.references_substitute h.valid.normal_trivial hnormal hsubstitute n hmention with
      hmention | ⟨m, hm, t, ht, hback⟩
    · exact hmention
    · have htrivial := h.valid.trivial_bodies m t ht
      have hedge : (Definitions.graph (sources g extra)).Edge n m :=
        Definitions.edge_graph_iff.2 ⟨⟨b, hb, hm⟩, h.determined.mem_done m t htrivial⟩
      have hpath := h.valid.reached m t htrivial n hback hn
      have hnone := h.determined.find?_trivial_of_cycle (.tail hpath hedge)
      exact absurd ht (by simp [hnone])
  · intro hmention
    have hcycle : TransGen (Definitions.graph (sources g extra)).Edge n n :=
      .single (Definitions.edge_graph_iff.2 ⟨⟨b, hb, hmention⟩, hn⟩)
    exact Expr.mem_references_substitute h.valid.normal_trivial hnormal hsubstitute hmention
      (h.determined.find?_trivial_of_cycle hcycle)

theorem Settles.isRecursiveGroup_table (h : Settles g extra policy s) (names : List String) :
    (Definitions.graph (ofSettled g extra policy s).table).isRecursiveGroup names =
      (Definitions.graph (sources g extra)).isRecursiveGroup names :=
  Graph.isRecursiveGroup_congr (fun _ => h.cycle_table_iff) names

end Conversion

/-- The lines of a summary after the first two are about the components that are recursive in what
is written. -/
theorem CommandLine.summary_recursive (c : Conversion) :
    let recursive := c.components.filter (Definitions.graph c.table).isRecursiveGroup
    ((summary c).drop 2).take recursive.length =
      recursive.map fun names => "  \x7b" ++ ", ".intercalate names ++ "\x7d" := by
  intro recursive
  have hgraph : Graph.ofReferences ((Table.ofList (c.all.map fun d => (d.name, d.body))).map
      fun _ e => e.references) = Definitions.graph c.table := rfl
  simp only [summary, hgraph, List.append_assoc, List.cons_append, List.nil_append,
    List.drop_succ_cons, List.drop_zero]
  exact List.take_left' (List.length_map _)

/-- A conversion writes recursive definitions for those that were recursive before, and its
recursive components are the same before and after. The summary tells them from what is written. -/
theorem convert_keeps_recursion (g : Grammar) (extra : Definitions) (policy : InlinePolicy)
    (hextra : g.Admits extra) :
    ∃ c, g.convert extra policy = .ok c ∧
      (∀ d ∈ c.all, ∃ b, (Conversion.sources g extra).find? d.name = some b ∧
        (d.isRecursive = true ↔ d.name ∈ b.references)) ∧
      (∀ names ∈ c.components, (Definitions.graph c.table).isRecursiveGroup names =
        (Definitions.graph (Conversion.sources g extra)).isRecursiveGroup names) ∧
      let recursive :=
        c.components.filter (Definitions.graph (Conversion.sources g extra)).isRecursiveGroup
      ((CommandLine.summary c).drop 2).take recursive.length =
        recursive.map fun names => "  \x7b" ++ ", ".intercalate names ++ "\x7d" := by
  obtain ⟨s, hs, hconvert⟩ := hextra.exists_settles policy
  have hgroups := hs.isRecursiveGroup_table
  refine ⟨_, hconvert, ?_, fun names _ => hgroups names, ?_⟩
  · intro d hd
    have hr := ((Conversion.mem_all_ofSettled hextra hs.valid).1 hd).1
    obtain ⟨b, hb⟩ := Table.exists_find?_of_mem (hs.determined.mem_done d.name d.body hr)
    refine ⟨b, hb, ?_⟩
    rw [Definition.isRecursive, List.contains_iff_mem, hs.mem_references_self_iff hb hr]
  · have hsummary := CommandLine.summary_recursive (Conversion.ofSettled g extra policy s)
    rwa [funext hgroups] at hsummary

/-- Lists of words stay recursive. Words have been put in and are left out, so that their component
has no member among what is written. -/
theorem convert_keeps_recursion_wordLists :
    let graph := Definitions.graph (Conversion.sources Grammar.wordLists Definitions.wordNames)
    Grammar.wordLists.Admits Definitions.wordNames ∧
    graph.isRecursiveGroup ["list"] = true ∧ graph.isRecursiveGroup ["word"] = false ∧
    ∃ c, Grammar.wordLists.convert Definitions.wordNames { dropInlined := true } = .ok c ∧
      (∀ d ∈ c.all, ∃ b,
        (Conversion.sources Grammar.wordLists Definitions.wordNames).find? d.name = some b ∧
        (d.isRecursive = true ↔ d.name ∈ b.references)) ∧
      (∀ names ∈ c.components,
        (Definitions.graph c.table).isRecursiveGroup names = graph.isRecursiveGroup names) ∧
      let recursive := c.components.filter graph.isRecursiveGroup
      ((CommandLine.summary c).drop 2).take recursive.length =
        recursive.map fun names => "  \x7b" ++ ", ".intercalate names ++ "\x7d" := by
  intro graph
  have hgraph : graph = _ := Grammar.graph_wordLists
  obtain ⟨hlist, hword⟩ :
      graph.isRecursiveGroup ["list"] = true ∧ graph.isRecursiveGroup ["word"] = false := by
    rw [hgraph]
    simp [Graph.isRecursiveGroup, Graph.reachesSelf, Graph.reaches, Graph.reachesFrom,
      Graph.successors, Table.find?, Table.lookup_cons]
  exact ⟨Grammar.wordLists_admits, hlist, hword,
    convert_keeps_recursion _ _ { dropInlined := true } Grammar.wordLists_admits⟩

end GrammarOutline
