import GrammarOutline.Proofs.Conversion.Cycles

/-!
# Converting what has been converted

What a conversion writes is settled already: no written body mentions a trivial one where it can be
put in, and the same names are small and lie on no cycle. Converting it again changes nothing.
-/
namespace GrammarOutline

namespace Table

variable {α : Type}

/-- The entries of the names that are kept. -/
def filter (keeps : String → Bool) (t : Table α) : Table α where
  entries := t.entries.filter fun entry => keeps entry.1
  nodup := t.nodup.sublist (List.filter_sublist.map Prod.fst)

theorem names_filter (keeps : String → Bool) (t : Table α) :
    (t.filter keeps).names = t.names.filter keeps := by
  rw [names, names, filter, List.filter_map]
  rfl

theorem find?_filter_eq_some_iff {keeps : String → Bool} {t : Table α} {name : String} {value : α} :
    (t.filter keeps).find? name = some value ↔ t.find? name = some value ∧ keeps name = true := by
  rw [find?_eq_some_iff, find?_eq_some_iff, filter, List.mem_filter]

end Table

namespace Conversion

theorem sources_empty (extra : Definitions) : sources Grammar.empty extra = extra :=
  Table.empty_append extra

variable {g : NamedProductions} {extra : Definitions} {policy : InlinePolicy} {s t : Settled}

theorem definitions_ofSettled_empty : (ofSettled Grammar.empty extra policy s).definitions = [] :=
  List.eq_nil_iff_forall_not_mem.2 fun _ hd => List.not_mem_nil (mem_definitions_ofSettled.1 hd).2.1

theorem Settles.determined_of_empty (h : Settles Grammar.empty extra policy s) :
    s.Determined policy extra extra.names := by
  have := h.determined
  rwa [sources_empty] at this

/-- The written bodies and those trivial ones that are written. -/
def writtenSettled (c : Conversion) (s : Settled) : Settled where
  bodies := c.table
  trivial := s.trivial.filter fun name => name ∈ c.table.names

/-- What is written needs no productions to be converted. -/
theorem Settles.admits_table (h : Settles g extra policy s) :
    Grammar.empty.Admits (ofSettled g extra policy s).table where
  normal n b hb := (h.valid.normal n b (h.find?_table.1 hb).1).normalize_eq
  apart _ _ := List.not_mem_nil

/-- A written body mentions as many trivial ones as before. -/
theorem Settles.find?_writtenSettled (h : Settles g extra policy s) {n m : String} {b : Expr}
    (hb : (ofSettled g extra policy s).table.find? n = some b) (hm : m ∈ b.references) :
    ((ofSettled g extra policy s).writtenSettled s).trivial.find? m = s.trivial.find? m := by
  obtain ⟨hb, hkept⟩ := h.find?_table.1 hb
  refine Option.ext fun body => ?_
  rw [writtenSettled, Table.find?_filter_eq_some_iff, decide_eq_true_iff, and_iff_left_iff_imp]
  intro htrivial
  have hbody := h.valid.trivial_bodies m body htrivial
  exact Table.mem_names_of_find?
    (h.find?_table.2 ⟨hbody, not_leftOut_of_mem_references hkept hb hm⟩)

theorem Settles.determined_table (h : Settles g extra policy s) :
    ((ofSettled g extra policy s).writtenSettled s).Determined policy
      (ofSettled g extra policy s).table (ofSettled g extra policy s).table.names where
  mem_done n b hb := Table.mem_names_of_find? hb
  body n _ b hb := by
    have hbody := (h.find?_table.1 hb).1
    have hinlined := (h.valid.inlined n b hbody).substitute_eq (h.valid.normal n b hbody)
    refine ⟨b, ?_, hb⟩
    rw [Expr.substitute_congr fun m hm => h.find?_writtenSettled hb hm, hinlined]
  trivial_iff n b := by
    rw [h.cycle_table_iff]
    simp only [writtenSettled, Table.find?_filter_eq_some_iff, decide_eq_true_iff,
      h.mem_names_table, h.find?_table, h.determined.trivial_iff]
    constructor
    · rintro ⟨⟨hb, hsmall, hcycle⟩, -, hkept⟩
      exact ⟨⟨hb, hkept⟩, hsmall, hcycle⟩
    · rintro ⟨⟨hb, hkept⟩, hsmall, hcycle⟩
      exact ⟨⟨hb, hsmall, hcycle⟩, h.determined.mem_done n b hb, hkept⟩

section Again

variable (h : Settles g extra policy s)
  (hagain : Settles Grammar.empty (ofSettled g extra policy s).table policy t)

include h hagain

/-- The second conversion settles the written bodies. -/
theorem find?_bodies_again (n : String) :
    t.bodies.find? n = (ofSettled g extra policy s).table.find? n :=
  hagain.determined_of_empty.unique h.determined_table n

theorem find?_trivial_again (n : String) :
    t.trivial.find? n = ((ofSettled g extra policy s).writtenSettled s).trivial.find? n :=
  hagain.determined_of_empty.find?_trivial_eq h.determined_table (find?_bodies_again h hagain n)

theorem extra_again : (ofSettled Grammar.empty (ofSettled g extra policy s).table policy t).extra =
    (ofSettled g extra policy s).all := by
  rw [ofSettled]
  dsimp only
  rw [names_table h.admits, List.map_map]
  refine (List.map_congr_left fun d hd => ?_).trans (List.map_id _)
  have hfound := h.find?_table.2 ((mem_all_ofSettled h.admits h.valid).1 hd)
  rw [Function.comp_apply, find?_bodies_again h hagain, hfound, Option.getD_some, id]

theorem inlined_again :
    (ofSettled Grammar.empty (ofSettled g extra policy s).table policy t).inlined = [] := by
  refine List.eq_nil_iff_forall_not_mem.2 fun n hn => ?_
  obtain ⟨-, ⟨m, hne, hedge⟩, hnone⟩ := mem_inlined_ofSettled.1 hn
  rw [sources_empty] at hedge
  obtain ⟨⟨b, hb, hmention⟩, -⟩ := Definitions.edge_graph_iff.1 hedge
  exact hnone ⟨m, b, (find?_bodies_again h hagain m).trans hb, hne, hmention⟩

theorem mem_trivial_again {n : String} :
    n ∈ t.trivial.names ↔ n ∈ s.trivial.names ∧ n ∈ (ofSettled g extra policy s).table.names := by
  rw [← Table.isSome_find?_iff, find?_trivial_again h hagain, Table.isSome_find?_iff,
    writtenSettled, Table.names_filter, List.mem_filter, decide_eq_true_iff]

end Again

end Conversion

/-- What a conversion writes is converted to itself. The trivial names are those that have been
written, and nothing is inlined. -/
theorem convert_again (g : Grammar) (extra : Definitions) (policy : InlinePolicy)
    (hextra : g.Admits extra) :
    ∃ c c', g.convert extra policy = .ok c ∧
      c.table.entries = c.all.map (fun d => (d.name, d.body)) ∧
      Grammar.empty.convert c.table policy = .ok c' ∧ c'.definitions = [] ∧ c'.all = c.all ∧
      c'.trivial.toFinset = c.trivial.toFinset ∩ (c.all.map Definition.name).toFinset ∧
      c'.inlined = [] := by
  obtain ⟨s, hs, hconvert⟩ := hextra.exists_settles policy
  obtain ⟨t, ht, hconvert'⟩ := hs.admits_table.exists_settles policy
  refine ⟨_, _, hconvert, Conversion.entries_table hextra policy s, hconvert',
    Conversion.definitions_ofSettled_empty, ?all, ?trivial, Conversion.inlined_again hs ht⟩
  case all =>
    rw [Conversion.all, Conversion.definitions_ofSettled_empty, Conversion.extra_again hs ht,
      List.nil_append]
  case trivial =>
    ext n
    rw [Finset.mem_inter, List.mem_toFinset, List.mem_toFinset, List.mem_toFinset,
      ← Conversion.names_table hextra]
    exact Conversion.mem_trivial_again hs ht

theorem convert_again_wordLists :
    Grammar.wordLists.Admits Definitions.wordNames ∧
    ∃ c c', Grammar.wordLists.convert Definitions.wordNames { dropInlined := true } = .ok c ∧
      c.table.entries = c.all.map (fun d => (d.name, d.body)) ∧
      Grammar.empty.convert c.table { dropInlined := true } = .ok c' ∧ c'.definitions = [] ∧
      c'.all = c.all ∧
      c'.trivial.toFinset = c.trivial.toFinset ∩ (c.all.map Definition.name).toFinset ∧
      c'.inlined = [] :=
  ⟨Grammar.wordLists_admits, convert_again _ _ _ Grammar.wordLists_admits⟩

end GrammarOutline
