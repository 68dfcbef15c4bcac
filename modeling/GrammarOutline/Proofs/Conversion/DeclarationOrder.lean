import GrammarOutline.Proofs.Conversion.Determined
import Mathlib.Data.Finset.Dedup
import Mathlib.Data.List.Perm.Basic

/-!
# The order of declarations

A conversion gives every name the same body in whatever order productions and supplementary
definitions come. The order decides only on the order of what is written and of the components.
-/
namespace GrammarOutline
open Relation

namespace Table

variable {α : Type} {s t : Table α}

theorem find?_eq_of_perm (h : s.entries.Perm t.entries) (name : String) :
    s.find? name = t.find? name :=
  Option.ext fun value => by rw [find?_eq_some_iff, find?_eq_some_iff, h.mem_iff]

theorem mem_names_iff_of_perm (h : s.entries.Perm t.entries) {name : String} :
    name ∈ s.names ↔ name ∈ t.names := (h.map Prod.fst).mem_iff

end Table

namespace Graph

variable {g g' : Graph}

theorem exists_component_of_edge_eq (hnames : ∀ n, n ∈ g.names ↔ n ∈ g'.names)
    (hedge : g.Edge = g'.Edge) {c : List String} (hc : c ∈ g.components) :
    ∃ c' ∈ g'.components, c'.toFinset = c.toFinset := by
  have hcomponent := isComponent_of_mem_components hc
  obtain ⟨a, ha⟩ := List.exists_mem_of_ne_nil c hcomponent.nonempty
  obtain ⟨c', hc', ha'⟩ := exists_mem_components ((hnames a).1 (hcomponent.sublist.subset ha))
  have hcomponent' := isComponent_of_mem_components hc'
  refine ⟨c', hc', Finset.ext fun b => ?_⟩
  rw [List.mem_toFinset, List.mem_toFinset]
  by_cases hb : b ∈ g.names
  · rw [hcomponent.mem_iff a ha b hb, hcomponent'.mem_iff a ha' b ((hnames b).1 hb), hedge]
  · exact iff_of_false (fun h => hb ((hnames b).2 (hcomponent'.sublist.subset h)))
      fun h => hb (hcomponent.sublist.subset h)

theorem components_toFinset_eq (hnames : ∀ n, n ∈ g.names ↔ n ∈ g'.names)
    (hedge : g.Edge = g'.Edge) :
    (g.components.map List.toFinset).toFinset = (g'.components.map List.toFinset).toFinset := by
  ext members
  simp only [List.mem_toFinset, List.mem_map]
  constructor
  · rintro ⟨c, hc, rfl⟩
    exact exists_component_of_edge_eq hnames hedge hc
  · rintro ⟨c, hc, rfl⟩
    exact exists_component_of_edge_eq (fun n => (hnames n).symm) hedge.symm hc

end Graph

namespace NamedProductions

variable {g g' : NamedProductions} {extra extra' : Definitions}

theorem mem_names_iff_of_perm (h : g.productions.Perm g'.productions) {name : String} :
    name ∈ g.names ↔ name ∈ g'.names := (h.map Production.name).mem_iff

theorem find?_sources_of_perm (hg : g.productions.Perm g'.productions)
    (hextra : extra.entries.Perm extra'.entries) (name : String) :
    (Conversion.sources g extra).find? name = (Conversion.sources g' extra').find? name := by
  have htable : (g.table Production.body).entries.Perm (g'.table Production.body).entries :=
    hg.map _
  rw [find?_sources, find?_sources, ← find?_table, ← find?_table, Table.find?_eq_of_perm hextra,
    Table.find?_eq_of_perm htable]

theorem Admits.of_perm (h : g.Admits extra) (hg : g.productions.Perm g'.productions)
    (hextra : extra.entries.Perm extra'.entries) : g'.Admits extra' where
  normal n b hb := h.normal n b ((Table.find?_eq_of_perm hextra n).trans hb)
  apart n hn hname :=
    h.apart n ((Table.mem_names_iff_of_perm hextra).2 hn) ((mem_names_iff_of_perm hg).2 hname)

end NamedProductions

namespace Conversion

variable {g g' : NamedProductions} {extra extra' : Definitions} {policy : InlinePolicy}
  {s t : Settled}

section Order

variable (hg : g.productions.Perm g'.productions) (hextra : extra.entries.Perm extra'.entries)
  (hbodies : ∀ n, s.bodies.find? n = t.bodies.find? n)
  (htrivial : s.trivial.names.Perm t.trivial.names)

include hg hextra hbodies htrivial

theorem inlined_perm :
    (ofSettled g extra policy s).inlined.Perm (ofSettled g' extra' policy t).inlined := by
  refine (List.perm_ext_iff_of_nodup (nodup_inlined g extra policy s)
    (nodup_inlined g' extra' policy t)).2 fun n => ?_
  rw [mem_inlined_ofSettled, mem_inlined_ofSettled, htrivial.mem_iff,
    Definitions.edge_eq (NamedProductions.find?_sources_of_perm hg hextra)]
  simp only [hbodies]

theorem definitions_perm :
    (ofSettled g extra policy s).definitions.Perm (ofSettled g' extra' policy t).definitions := by
  refine (List.perm_ext_iff_of_nodup (nodup_names_definitions g extra policy s).of_map
    (nodup_names_definitions g' extra' policy t).of_map).2 fun d => ?_
  rw [mem_definitions_ofSettled, mem_definitions_ofSettled, hbodies, LeftOut, LeftOut,
    NamedProductions.mem_names_iff_of_perm hg, (inlined_perm hg hextra hbodies htrivial).mem_iff]

omit hg htrivial in
theorem extra_perm :
    (ofSettled g extra policy s).extra.Perm (ofSettled g' extra' policy t).extra := by
  have hnames : extra.names.Perm extra'.names := hextra.map Prod.fst
  simp only [ofSettled, hbodies]
  exact hnames.map _

end Order

end Conversion

/-- Grammars and supplementary definitions that differ only in their order are converted to the same
definitions with the same trivial, inlined and connected names, each in some order. -/
theorem convert_of_perm (g g' : Grammar) (extra extra' : Definitions) (policy : InlinePolicy)
    (hg : g.productions.Perm g'.productions) (hextra : extra.entries.Perm extra'.entries)
    (hadmits : g.Admits extra) :
    ∃ c c', g.convert extra policy = .ok c ∧ g'.convert extra' policy = .ok c' ∧
      (c.all.map Definition.name).Nodup ∧ c.definitions.Perm c'.definitions ∧
      c.extra.Perm c'.extra ∧ c.trivial.Perm c'.trivial ∧ c.inlined.Perm c'.inlined ∧
      (c.components.map List.toFinset).toFinset = (c'.components.map List.toFinset).toFinset := by
  have hadmits' := hadmits.of_perm hg hextra
  obtain ⟨s, hs, hconvert⟩ := hadmits.exists_settles policy
  obtain ⟨t, ht, hconvert'⟩ := hadmits'.exists_settles policy
  have hsources := NamedProductions.find?_sources_of_perm hg hextra
  have hsettled := hs.determined.congr hsources
  have hsettled' := ht.determined
  have hbodies := hsettled.unique hsettled'
  have htrivial : s.trivial.names.Perm t.trivial.names := by
    refine (List.perm_ext_iff_of_nodup s.trivial.nodup_names t.trivial.nodup_names).2 fun n => ?_
    rw [← Table.isSome_find?_iff, ← Table.isSome_find?_iff,
      hsettled.find?_trivial_eq hsettled' (hbodies n)]
  refine ⟨_, _, hconvert, hconvert', Conversion.nodup_names_all hadmits policy s,
    Conversion.definitions_perm hg hextra hbodies htrivial,
    Conversion.extra_perm hextra hbodies, htrivial,
    Conversion.inlined_perm hg hextra hbodies htrivial, ?_⟩
  refine Graph.components_toFinset_eq (fun n => ?_) (Definitions.edge_eq hsources)
  rw [Definitions.names_graph, Definitions.names_graph, ← Table.isSome_find?_iff, hsources,
    Table.isSome_find?_iff]

def Definitions.letterNames : Definitions :=
  ⟨[("LETTER", .term "[a-z]"), ("NAME", .quant (.ref "LETTER") "+")], by decide⟩

theorem convert_of_perm_wordLists :
    ∃ (g' : Grammar) (extra' : Definitions),
      g'.productions = Grammar.wordLists.productions.reverse ∧
      extra'.entries = Definitions.letterNames.entries.reverse ∧
      Grammar.wordLists.productions.Perm g'.productions ∧
      Definitions.letterNames.entries.Perm extra'.entries ∧
      Grammar.wordLists.Admits Definitions.letterNames ∧
      ∃ c c', Grammar.wordLists.convert Definitions.letterNames {} = .ok c ∧
        g'.convert extra' {} = .ok c' ∧ (c.all.map Definition.name).Nodup ∧
        c.definitions.Perm c'.definitions ∧ c.extra.Perm c'.extra ∧
        c.trivial.Perm c'.trivial ∧ c.inlined.Perm c'.inlined ∧
        (c.components.map List.toFinset).toFinset = (c'.components.map List.toFinset).toFinset := by
  have hg := (List.reverse_perm Grammar.wordLists.productions).symm
  have hextra := (List.reverse_perm Definitions.letterNames.entries).symm
  have hadmits : Grammar.wordLists.Admits Definitions.letterNames := by decide
  exact ⟨⟨⟨_, by decide⟩, by decide⟩, ⟨_, by decide⟩, rfl, rfl, hg, hextra, hadmits,
    convert_of_perm _ ⟨⟨_, by decide⟩, by decide⟩ _ ⟨_, by decide⟩ {} hg hextra hadmits⟩

end GrammarOutline
