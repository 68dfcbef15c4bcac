import GrammarOutline.Proofs.Conversion.Result

/-!
# The order of what is written

Productions are written in the order in which their bodies were settled, component by component. A
path never leads to a later component, and a settled body only mentions what its name leads to. So a
body that mentions a definition written after it lies on a cycle with it.
-/
namespace GrammarOutline
open Relation

namespace Graph

variable {graph : Graph}

/-- Among the components that are left, no path leads to a later one. -/
theorem pairwise_not_path {before after : List (List String)}
    (hall : before ++ after = graph.components) : after.Pairwise fun earlier later =>
      ∀ a ∈ earlier, ∀ b ∈ later, ¬ReflTransGen graph.Edge a b := by
  induction after generalizing before with
  | nil => exact .nil
  | cons c after ih =>
    have hall' : (before ++ [c]) ++ after = graph.components := by simpa using hall
    refine .cons (fun later hlater a ha b hb hpath => ?_) (ih hall')
    have hnodup := (components_flatten_perm graph).nodup_iff.2 graph.nodup_names
    rw [← hall', List.flatten_append, List.nodup_append] at hnodup
    have hnode : b ∈ graph.names := by
      have hmem : later ∈ graph.components := hall ▸ by simp [hlater]
      exact (isComponent_of_mem_components hmem).sublist.subset hb
    rcases Conversion.mem_of_path_from_earlier hall' (by simp [ha]) hpath with hbefore | hnone
    · exact hnodup.2.2 b hbefore b (List.mem_flatten.2 ⟨later, hlater, hb⟩) rfl
    · exact hnone hnode

/-- A node that leads to one after it shares a component with it. -/
theorem pairwise_sameComponent (graph : Graph) : graph.components.flatten.Pairwise fun a b =>
    ReflTransGen graph.Edge a b → ∃ c ∈ graph.components, a ∈ c ∧ b ∈ c := by
  rw [List.pairwise_flatten]
  constructor
  · exact fun c hc => List.pairwise_of_forall_mem_list fun a ha b hb _ => ⟨c, hc, ha, hb⟩
  · exact (pairwise_not_path (List.nil_append _)).imp
      fun h a ha b hb hpath => absurd hpath (h a ha b hb)

end Graph

namespace Conversion

variable {g : NamedProductions} {extra : Definitions} {policy : InlinePolicy} {s : Settled}

theorem names_definitions_perm (hkeeps : policy.dropInlined = false)
    (h : s.Valid (sources g extra) (Definitions.graph (sources g extra)).components.flatten) :
    ((ofSettled g extra policy s).definitions.map Definition.name).Perm g.names := by
  refine (List.perm_ext_iff_of_nodup (nodup_names_definitions g extra policy s) g.distinct).2
    fun n => ?_
  constructor
  · intro hn
    obtain ⟨d, hd, rfl⟩ := List.mem_map.1 hn
    exact (mem_definitions_ofSettled.1 hd).2.1
  · intro hn
    obtain ⟨b, hb⟩ := Table.exists_find?_of_mem (h.mem_names_bodies.2 (.inr hn))
    have hkept : ¬LeftOut g policy (ofSettled g extra policy s) n :=
      fun hout => absurd (hkeeps.symm.trans hout.1) (by decide)
    exact List.mem_map.2 ⟨⟨n, b⟩, mem_definitions_ofSettled.2 ⟨hb, hn, hkept⟩, rfl⟩

/-- Settled bodies mention names of later ones only within a component. -/
theorem Settled.Valid.pairwise_entries
    (h : s.Valid (sources g extra) (Definitions.graph (sources g extra)).components.flatten) :
    s.bodies.entries.Pairwise fun earlier later => later.1 ∈ earlier.2.references →
      ∃ c ∈ (Definitions.graph (sources g extra)).components, earlier.1 ∈ c ∧ later.1 ∈ c := by
  have hpaths := Graph.pairwise_sameComponent (Definitions.graph (sources g extra))
  rw [← h.names_bodies, Table.names, List.pairwise_map] at hpaths
  refine hpaths.imp_of_mem fun {earlier later} hearlier hlater hsame hmention => hsame ?_
  have hnode : later.1 ∈ (sources g extra).names :=
    h.known _ (h.mem_done (Table.find?_eq_some_iff.2 hlater))
  exact (h.reached _ _ (Table.find?_eq_some_iff.2 hearlier) _ hmention hnode).to_reflTransGen

/-- Definitions of productions mention later ones only within a component. -/
theorem pairwise_definitions
    (h : s.Valid (sources g extra) (Definitions.graph (sources g extra)).components.flatten) :
    (ofSettled g extra policy s).definitions.Pairwise fun earlier later =>
      later.name ∈ earlier.body.references →
        ∃ c ∈ (ofSettled g extra policy s).components, earlier.name ∈ c ∧ later.name ∈ c := by
  dsimp only [ofSettled]
  rw [List.pairwise_map]
  exact h.pairwise_entries.filter _

end Conversion

/-- Without leaving out any, a conversion writes every definition once: the productions leaf first,
and then the supplementary definitions in their order. A production that mentions one written after
it shares a component with it. -/
theorem convert_writes_leafFirst (g : NamedProductions) (extra : Definitions)
    (policy : InlinePolicy) (hextra : g.Admits extra) (hkeeps : policy.dropInlined = false) :
    ∃ c, g.convert extra policy = .ok c ∧ (c.definitions.map Definition.name).Perm g.names ∧
      c.extra.map Definition.name = extra.names ∧
      c.definitions.Pairwise fun earlier later => later.name ∈ earlier.body.references →
        ∃ names ∈ c.components, earlier.name ∈ names ∧ later.name ∈ names := by
  obtain ⟨s, -, hvalid, hconvert⟩ := hextra.exists_convert policy
  exact ⟨_, hconvert, Conversion.names_definitions_perm hkeeps hvalid,
    Conversion.names_extra_ofSettled g extra policy s, Conversion.pairwise_definitions hvalid⟩

/-- Lists whose items are names or lists in parentheses. -/
def Grammar.nestedLists : Grammar where
  productions := [
    ⟨"list", [[.name "item"], [.name "list", .name "comma", .name "item"]]⟩,
    ⟨"item", [[.name "NAME"], [.literal "'('", .name "list", .literal "')'"]]⟩,
    ⟨"comma", [[.literal "','"]]⟩]
  distinct := by decide
  emptyRules_le_one := by decide

theorem convert_writes_leafFirst_nestedLists :
    Grammar.nestedLists.Admits Definitions.wordNames ∧
    ∃ c, Grammar.nestedLists.convert Definitions.wordNames {} = .ok c ∧
      (c.definitions.map Definition.name).Perm Grammar.nestedLists.names ∧
      c.extra.map Definition.name = Definitions.wordNames.names ∧
      c.definitions.Pairwise fun earlier later => later.name ∈ earlier.body.references →
        ∃ names ∈ c.components, earlier.name ∈ names ∧ later.name ∈ names := by
  have hextra : Grammar.nestedLists.Admits Definitions.wordNames := by decide
  exact ⟨hextra, convert_writes_leafFirst _ _ {} hextra rfl⟩

/-- The list and its items mention each other, so one of them comes before the other. -/
example : (Grammar.nestedLists.convert Definitions.wordNames {}).map
    (fun c => (c.definitions.map Definition.name, c.components)) =
      .ok (["comma", "list", "item"], [["NAME"], ["comma"], ["list", "item"]]) := by cbv

end GrammarOutline
