import GrammarOutline.Proofs.Conversion.Settled

/-!
# What a conversion writes

A conversion of normal forms whose names do not clash succeeds. It writes every settled body except
those of productions that are left out because they have been inlined, and no other body mentions
these.
-/
namespace GrammarOutline

/-- The supplementary definitions are normal forms and define no name that has a production. -/
structure NamedProductions.Admits (g : NamedProductions) (extra : Definitions) : Prop where
  normal : ∀ n b, extra.find? n = some b → b.normalize = .ok b
  apart : ∀ n ∈ extra.names, n ∉ g.names

namespace NamedProductions

variable {g : NamedProductions} {extra : Definitions}

theorem admits_iff : g.Admits extra ↔ (∀ entry ∈ extra.entries, entry.2.normalize = .ok entry.2) ∧
    ∀ n ∈ extra.names, n ∉ g.names := by
  constructor
  · exact fun h => ⟨fun _ hentry => h.normal _ _ (Table.find?_eq_some_iff.2 hentry), h.apart⟩
  · rintro ⟨hnormal, hapart⟩
    exact ⟨fun n b hb => hnormal (n, b) (Table.find?_eq_some_iff.1 hb), hapart⟩

instance (g : NamedProductions) (extra : Definitions) : Decidable (g.Admits extra) :=
  decidable_of_iff _ admits_iff.symm

theorem find?_sources (g : NamedProductions) (extra : Definitions) (name : String) :
    (Conversion.sources g extra).find? name =
      (extra.find? name).or ((g.find? name).map Production.body) := by
  rw [Conversion.sources, Table.find?_append, find?_table]

theorem mem_names_sources {name : String} :
    name ∈ (Conversion.sources g extra).names ↔ name ∈ extra.names ∨ name ∈ g.names := by
  rw [Conversion.sources, Table.mem_names_append, names_table]

theorem normal_sources (h : ∀ n b, extra.find? n = some b → b.normalize = .ok b) :
    Expr.NormalBodies (Conversion.sources g extra) := by
  intro n b hb
  rw [find?_sources, Option.or_eq_some_iff] at hb
  rcases hb with hb | ⟨-, hb⟩
  · exact Expr.isNormal_of_normalize (h n b hb)
  · obtain ⟨p, -, rfl⟩ := Option.map_eq_some_iff.1 hb
    exact Expr.isNormal_of_normalize p.normalize_expr

theorem Admits.normal_sources (h : g.Admits extra) :
    Expr.NormalBodies (Conversion.sources g extra) := NamedProductions.normal_sources h.normal

/-- Admitted definitions can be converted, and the conversion has the settled bodies. -/
theorem Admits.exists_convert (h : g.Admits extra) (policy : InlinePolicy) :
    ∃ s : Conversion.Settled, Conversion.settle policy (Conversion.sources g extra) = .ok s ∧
      s.Valid (Conversion.sources g extra)
        (Definitions.graph (Conversion.sources g extra)).components.flatten ∧
      g.convert extra policy = .ok (Conversion.ofSettled g extra policy s) := by
  obtain ⟨s, hs, hvalid⟩ := Conversion.exists_settle policy h.normal_sources
  refine ⟨s, hs, hvalid, ?_⟩
  have hclash : extra.names.find? g.contains = none := by
    rw [List.find?_eq_none]
    intro n hn
    simpa [contains] using h.apart n hn
  rw [convert, hclash]
  dsimp only
  rw [hs]

end NamedProductions

/-- Lists of words, where a word may be missing. -/
def Grammar.wordLists : Grammar where
  productions := [
    ⟨"list", [[.name "word"], [.name "list", .literal "','", .name "word"]]⟩,
    ⟨"word", [[], [.name "NAME"]]⟩]
  distinct := by decide
  emptyRules_le_one := by decide

def Definitions.wordNames : Definitions := ⟨[("NAME", .quant (.term "[a-z]") "+")], by decide⟩

theorem Grammar.wordLists_admits : wordLists.Admits Definitions.wordNames := by decide

theorem Grammar.graph_wordLists :
    Definitions.graph (Conversion.sources wordLists Definitions.wordNames) =
      ⟨[("list", ["word", "list"]), ("word", ["NAME"]), ("NAME", [])], by decide⟩ := by rfl

namespace Conversion

variable {g : NamedProductions} {extra : Definitions} {policy : InlinePolicy} {s : Settled}

theorem mentioned_eq_true_iff {references : Table (List String)} {name : String} :
    mentioned references name = true ↔
      ∃ n names, references.find? n = some names ∧ n ≠ name ∧ name ∈ names := by
  simp only [mentioned, List.any_eq_true, Bool.and_eq_true, bne_iff_ne, List.contains_iff_mem,
    Prod.exists, ← Table.find?_eq_some_iff]

/-- A graph mentions the targets of its edges, where a name does not mention itself. -/
theorem mentioned_graph_iff {graph : Graph} {name : String} :
    mentioned graph name = true ↔ ∃ n, n ≠ name ∧ graph.Edge n name := by
  rw [mentioned_eq_true_iff]
  constructor
  · rintro ⟨n, names, hfind, hne, hmem⟩
    exact ⟨n, hne, by rwa [Graph.Edge, Graph.successors, hfind, Option.getD_some]⟩
  · rintro ⟨n, hne, hedge⟩
    obtain ⟨names, hfind⟩ := Table.exists_find?_of_mem hedge.source_mem
    rw [Graph.Edge, Graph.successors, hfind, Option.getD_some] at hedge
    exact ⟨n, names, hfind, hne, hedge⟩

theorem mentioned_bodies_iff {bodies : Table Expr} {name : String} :
    mentioned (bodies.map fun _ body => body.references) name = true ↔
      ∃ n b, bodies.find? n = some b ∧ n ≠ name ∧ name ∈ b.references := by
  simp only [mentioned_eq_true_iff, Table.find?_map, Option.map_eq_some_iff]
  constructor
  · rintro ⟨n, _, ⟨b, hb, rfl⟩, hne, hmem⟩
    exact ⟨n, b, hb, hne, hmem⟩
  · rintro ⟨n, b, hb, hne, hmem⟩
    exact ⟨n, _, ⟨b, hb, rfl⟩, hne, hmem⟩

/-- A trivial name has been inlined if it was mentioned before and no settled body mentions it. -/
theorem mem_inlined_ofSettled {name : String} :
    name ∈ (ofSettled g extra policy s).inlined ↔ name ∈ s.trivial.names ∧
      (∃ n, n ≠ name ∧ (Definitions.graph (sources g extra)).Edge n name) ∧
      ¬∃ n b, s.bodies.find? n = some b ∧ n ≠ name ∧ name ∈ b.references := by
  rw [← mentioned_graph_iff, ← mentioned_bodies_iff]
  simp [ofSettled]

theorem Settled.Valid.mem_names_bodies
    (h : s.Valid (sources g extra) (Definitions.graph (sources g extra)).components.flatten)
    {name : String} : name ∈ s.bodies.names ↔ name ∈ extra.names ∨ name ∈ g.names := by
  rw [h.names_bodies, (Graph.components_flatten_perm _).mem_iff, Definitions.names_graph,
    NamedProductions.mem_names_sources]

/-- A production that is left out because its body stands wherever its name was mentioned. -/
def LeftOut (g : NamedProductions) (policy : InlinePolicy) (c : Conversion)
    (name : String) : Prop :=
  policy.dropInlined = true ∧ name ∈ g.names ∧ name ∈ c.inlined

theorem mem_definitions_ofSettled {d : Definition} :
    d ∈ (ofSettled g extra policy s).definitions ↔ s.bodies.find? d.name = some d.body ∧
      d.name ∈ g.names ∧ ¬LeftOut g policy (ofSettled g extra policy s) d.name := by
  obtain ⟨name, body⟩ := d
  simp only [ofSettled, LeftOut, List.mem_map, List.mem_filter, Definition.mk.injEq, Prod.exists,
    Table.find?_eq_some_iff, NamedProductions.contains, List.contains_iff_mem, Bool.and_eq_true,
    ← Bool.not_eq_true, Bool.not_eq_true']
  constructor
  · rintro ⟨n, b, ⟨hentry, hname, hkept⟩, rfl, rfl⟩
    exact ⟨hentry, hname, fun hout => hkept ⟨hout.1, hout.2.2⟩⟩
  · rintro ⟨hentry, hname, hkept⟩
    exact ⟨name, body, ⟨hentry, hname, fun hout => hkept ⟨hout.1, hname, hout.2⟩⟩, rfl, rfl⟩

theorem mem_extra_ofSettled
    (h : s.Valid (sources g extra) (Definitions.graph (sources g extra)).components.flatten)
    {d : Definition} : d ∈ (ofSettled g extra policy s).extra ↔
      s.bodies.find? d.name = some d.body ∧ d.name ∈ extra.names := by
  obtain ⟨name, body⟩ := d
  simp only [ofSettled, List.mem_map, Definition.mk.injEq]
  constructor
  · rintro ⟨n, hn, rfl, rfl⟩
    obtain ⟨b, hb⟩ := Table.exists_find?_of_mem (h.mem_names_bodies.2 (.inl hn))
    exact ⟨by rw [hb, Option.getD_some], hn⟩
  · rintro ⟨hb, hn⟩
    exact ⟨name, hn, rfl, by rw [hb, Option.getD_some]⟩

theorem nodup_inlined (g : NamedProductions) (extra : Definitions) (policy : InlinePolicy)
    (s : Settled) : (ofSettled g extra policy s).inlined.Nodup := s.trivial.nodup_names.filter _

theorem nodup_names_definitions (g : NamedProductions) (extra : Definitions)
    (policy : InlinePolicy) (s : Settled) :
    ((ofSettled g extra policy s).definitions.map Definition.name).Nodup := by
  rw [ofSettled, List.map_map]
  exact (List.filter_sublist.map Prod.fst).nodup s.bodies.nodup

theorem names_extra_ofSettled (g : NamedProductions) (extra : Definitions)
    (policy : InlinePolicy) (s : Settled) :
    (ofSettled g extra policy s).extra.map Definition.name = extra.names := by
  rw [ofSettled, List.map_map]
  exact List.map_id _

theorem nodup_names_all (hg : g.Admits extra) (policy : InlinePolicy) (s : Settled) :
    ((ofSettled g extra policy s).all.map Definition.name).Nodup := by
  rw [all, List.map_append, names_extra_ofSettled]
  refine List.nodup_append.2 ⟨nodup_names_definitions g extra policy s, extra.nodup_names, ?_⟩
  rintro _ hmem n hn rfl
  obtain ⟨d, hd, rfl⟩ := List.mem_map.1 hmem
  exact hg.apart _ hn (mem_definitions_ofSettled.1 hd).2.1

/-- What is written are the settled bodies that are not left out. -/
theorem mem_all_ofSettled (hg : g.Admits extra)
    (h : s.Valid (sources g extra) (Definitions.graph (sources g extra)).components.flatten)
    {d : Definition} : d ∈ (ofSettled g extra policy s).all ↔
      s.bodies.find? d.name = some d.body ∧
        ¬LeftOut g policy (ofSettled g extra policy s) d.name := by
  obtain ⟨name, body⟩ := d
  rw [all, List.mem_append, mem_definitions_ofSettled, mem_extra_ofSettled h]
  dsimp only
  constructor
  · rintro (⟨hb, -, hkept⟩ | ⟨hb, hextra⟩)
    · exact ⟨hb, hkept⟩
    · exact ⟨hb, fun hout => hg.apart name hextra hout.2.1⟩
  · rintro ⟨hb, hkept⟩
    rcases h.mem_names_bodies.1 (Table.mem_names_of_find? hb) with hextra | hname
    · exact .inr ⟨hb, hextra⟩
    · exact .inl ⟨hb, hname, hkept⟩

/-- A settled body mentions no other name that has been inlined. -/
theorem not_mem_references_of_inlined {n name : String} {b : Expr}
    (hname : name ∈ (ofSettled g extra policy s).inlined) (hb : s.bodies.find? n = some b)
    (hn : n ≠ name) : name ∉ b.references :=
  fun hmention => (mem_inlined_ofSettled.1 hname).2.2 ⟨n, b, hb, hn, hmention⟩

/-- A body that is written mentions no definition that is left out. -/
theorem not_leftOut_of_mem_references {n m : String} {b : Expr}
    (hn : ¬LeftOut g policy (ofSettled g extra policy s) n) (hb : s.bodies.find? n = some b)
    (hm : m ∈ b.references) : ¬LeftOut g policy (ofSettled g extra policy s) m := by
  intro hout
  have hne : n ≠ m := fun e => hn (e ▸ hout)
  exact not_mem_references_of_inlined hout.2.2 hb hne hm

end Conversion

end GrammarOutline
