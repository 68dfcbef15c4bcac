import GrammarOutline.Proofs.Conversion.Nesting
import GrammarOutline.Proofs.Conversion.Result
import GrammarOutline.Proofs.Production.Acceptance

/-!
# Reading what a conversion writes

The names and literals of a grammar that is read are lexemes of the extended notation too, and its
settled bodies need two groups at most. So what a conversion of the grammar alone writes is a text
of definitions when every line ends in a semicolon.
-/
namespace GrammarOutline

namespace Production

open Lexeme

/-- The name and the elements of a production are lexemes of the extended notation. -/
structure IsLexical (p : Production) : Prop where
  isName : IsIdentifier p.name.toList
  elements : ∀ rule ∈ p.rules, ∀ e ∈ rule, e.expr.IsLexical

theorem IsLexical.expr {p : Production} (h : p.IsLexical) : p.expr.IsLexical := by
  refine .alt fun a ha => ?_
  obtain ⟨rule, hrule, rfl⟩ := List.mem_map.1 ha
  refine .seq fun e he => ?_
  obtain ⟨element, helement, rfl⟩ := List.mem_map.1 he
  exact h.elements rule hrule element helement

section Derived

variable {lexemes : List (List Char)}

/-- Literals of productions are literals of definitions, where a backslash takes a line feed as
well. -/
theorem isLexical_of_isLiteral {text : List Char} (h : IsLiteral false text) :
    (Expr.term (String.ofList text)).IsLexical := by
  refine .term ?_
  rw [String.toList_ofList]
  exact h.joins.imp_right .inl

theorem DerivesElement.isLexical {e : Option Element} (h : DerivesElement lexemes e) :
    ∀ element ∈ e, element.expr.IsLexical := by
  cases h with
  | @name text isIdentifier =>
    rintro _ ⟨⟩
    exact .ref (by rwa [String.toList_ofList])
  | literal isLiteral =>
    rintro _ ⟨⟩
    exact isLexical_of_isLiteral isLiteral
  | action | precedence => simp

theorem DerivesRule.isLexical {rule : Rule} (h : DerivesRule lexemes rule) :
    ∀ e ∈ rule, e.expr.IsLexical := by
  induction h with
  | nothing => simp
  | element isElement _ ih =>
    exact List.forall_mem_append.2 ⟨fun e he => isElement.isLexical e (Option.mem_toList.1 he), ih⟩

theorem DerivesRules.isLexical {rules : List Rule} (h : DerivesRules lexemes rules) :
    ∀ rule ∈ rules, ∀ e ∈ rule, e.expr.IsLexical := by
  induction h with
  | last isRule => exact List.forall_mem_singleton.2 isRule.isLexical
  | bar isRule _ ih => exact List.forall_mem_cons.2 ⟨isRule.isLexical, ih⟩

theorem DerivesAll.isLexical {ps : List Production} (h : DerivesAll lexemes ps) :
    ∀ p ∈ ps, p.IsLexical := by
  induction h with
  | nil => simp
  | cons isIdentifier _ body _ ih =>
    refine List.forall_mem_cons.2 ⟨⟨?_, body.isLexical⟩, ih⟩
    rwa [String.toList_ofList]

end Derived

end Production

theorem Grammar.isLexical_of_read {source : List Char} {g : Grammar}
    (h : Grammar.read source = .ok g) : ∀ p ∈ g.productions, p.IsLexical := by
  obtain ⟨lexemes, hderives, -⟩ := Grammar.read_eq_ok_iff_section.1 h
  exact hderives.isLexical

namespace Conversion

variable {g : NamedProductions} {policy : InlinePolicy} {s : Settled}

theorem sublist_entries_ofSettled (g : NamedProductions) (policy : InlinePolicy) (s : Settled) :
    ((ofSettled g Table.empty policy s).all.map fun d => (d.name, d.body)).Sublist
      s.bodies.entries := by
  have hextra : (ofSettled g Table.empty policy s).extra = [] := rfl
  rw [all, hextra, List.append_nil, ofSettled, List.map_map]
  simp only [Function.comp_def, List.map_id']
  exact List.filter_sublist

def written (g : NamedProductions) (policy : InlinePolicy) (s : Settled) : Definitions where
  entries := (ofSettled g Table.empty policy s).all.map fun d => (d.name, d.body)
  nodup := ((sublist_entries_ofSettled g policy s).map Prod.fst).nodup s.bodies.nodup

theorem toList_written (g : NamedProductions) (policy : InlinePolicy) (s : Settled) :
    (written g policy s).toList = (ofSettled g Table.empty policy s).all := by
  simp [Definitions.toList, written, Function.comp_def]

/-- The lines of written definitions, ended by semicolons, are the text of their table. -/
theorem text_written (g : NamedProductions) (policy : InlinePolicy) (s : Settled) :
    (written g policy s).text = ['\n'].intercalate
      (((ofSettled g Table.empty policy s).all.map Definition.render).map fun line =>
        line.toList ++ " ;".toList) := by
  have hline : (fun line => line.toList ++ " ;".toList) ∘ Definition.render =
      Definition.statement :=
    funext fun d => by simp [Definition.statement, Definition.render]
  rw [Definitions.text, toList_written, List.map_map, hline]

end Conversion

/-- An empty last line leaves a line break at the end, or nothing where there is no other line. -/
theorem exists_intercalate_concat_nil (lines : List (List Char)) :
    ∃ blanks, (∀ c ∈ blanks, Text.isBlank c = true) ∧
      ['\n'].intercalate (lines ++ [[]]) = ['\n'].intercalate lines ++ blanks := by
  induction lines with
  | nil => exact ⟨[], by simp, rfl⟩
  | cons line lines ih =>
    cases lines with
    | nil =>
      refine ⟨['\n'], List.forall_mem_singleton.2 (by decide), ?_⟩
      rw [List.singleton_append, List.intercalate_cons_cons, List.intercalate_singleton,
        List.intercalate_singleton, List.append_nil]
    | cons line' lines =>
      obtain ⟨blanks, hblanks, hlines⟩ := ih
      refine ⟨blanks, hblanks, ?_⟩
      rw [List.cons_append, List.cons_append, List.intercalate_cons_cons,
        ← List.cons_append, hlines, List.intercalate_cons_cons]
      simp

section Read

variable {source : List Char} {g : Grammar}

/-- The bodies of a grammar that is read are shallow when they are settled. -/
theorem Grammar.keeps_of_read (h : Grammar.read source = .ok g) (policy : InlinePolicy) {n : String}
    {b : Expr} (hb : (Conversion.sources g Table.empty).find? n = some b) :
    Conversion.Settled.Keeps policy Conversion.IsShallow b := by
  rw [NamedProductions.find?_sources, Table.find?_empty, Option.none_or,
    Option.map_eq_some_iff] at hb
  obtain ⟨p, hp, rfl⟩ := hb
  have hlexical := Grammar.isLexical_of_read h p (List.mem_of_find?_eq_some hp)
  exact Conversion.Settled.keeps_body policy hlexical.expr

/-- A grammar that is read is converted by itself, and what is written can be printed without groups
that nest too deep. -/
theorem Grammar.exists_written_of_read (h : Grammar.read source = .ok g) (policy : InlinePolicy) :
    ∃ s, g.convert Table.empty policy = .ok (Conversion.ofSettled g Table.empty policy s) ∧
      ∀ d ∈ (Conversion.written g policy s).toList,
        d.Printable ∧ d.body.writtenDepth 0 ≤ Definition.maxDepth := by
  have hadmits : g.Admits Table.empty := by constructor <;> simp
  obtain ⟨s, hs, hvalid, hconvert⟩ := hadmits.exists_convert policy
  have hshallow : s.All policy Conversion.IsShallow :=
    Conversion.Settled.all_of_settle hadmits.normal_sources (fun _ _ => keeps_of_read h policy) hs
  refine ⟨s, hconvert, fun d hd => ?_⟩
  rw [Conversion.toList_written, Conversion.mem_all_ofSettled hadmits hvalid] at hd
  obtain ⟨hbody, -⟩ := hd
  have hname : d.name ∈ g.names := by
    simpa using hvalid.mem_names_bodies.1 (Table.mem_names_of_find? hbody)
  obtain ⟨p, hp, hpname⟩ := List.mem_map.1 hname
  have hsettled := hshallow.bodies _ _ hbody
  exact ⟨⟨hpname ▸ (isLexical_of_read h p hp).isName, hvalid.normal _ _ hbody, hsettled.isLexical⟩,
    hsettled.bareDepth_le.trans (by decide)⟩

/-- A grammar that is read is converted by itself under every policy. When a semicolon is put after
each of the written lines, they are read as the written definitions: with their names in order and
with their bodies, whether or not the empty line at the end is kept. -/
theorem Grammar.read_lines_of_convert (h : Grammar.read source = .ok g) (policy : InlinePolicy) :
    ∃ c lines, g.convert Table.empty policy = .ok c ∧ c.lines = lines ++ [""] ∧
      ∃ defs : Definitions, defs.toList = c.all ∧
        let statements := lines.map fun line => line.toList ++ " ;".toList
        Definitions.read (['\n'].intercalate statements) = .ok defs ∧
        Definitions.read (['\n'].intercalate (statements ++ [[]])) = .ok defs := by
  obtain ⟨s, hconvert, hwritten⟩ := Grammar.exists_written_of_read h policy
  have hprintable := fun d hd => (hwritten d hd).1
  have hdepth := fun d hd => (hwritten d hd).2
  refine ⟨_, _, hconvert, rfl, Conversion.written g policy s,
    Conversion.toList_written g policy s, ?_⟩
  intro statements
  have htext : (Conversion.written g policy s).text = ['\n'].intercalate statements :=
    Conversion.text_written g policy s
  obtain ⟨blanks, hblanks, hlast⟩ := exists_intercalate_concat_nil statements
  rw [hlast, ← htext]
  exact ⟨Definition.read_text_eq_ok hprintable hdepth,
    Definition.read_text_append_eq_ok hprintable hdepth hblanks⟩

end Read

/-- The choice that `s` stands for comes into groups of `t`, which is optional. -/
theorem Grammar.read_lines_of_convert_groups :
    ∃ g, Grammar.read "t:s s|;s:'+'|'-';".toList = .ok g ∧
      g.productions = [⟨"t", [[.name "s", .name "s"], []]⟩,
        ⟨"s", [[.literal "'+'"], [.literal "'-'"]]⟩] ∧
      ∃ c lines, g.convert Table.empty {} = .ok c ∧ c.lines = lines ++ [""] ∧
        ∃ defs : Definitions, defs.toList = c.all ∧
          let statements := lines.map fun line => line.toList ++ " ;".toList
          Definitions.read (['\n'].intercalate statements) = .ok defs ∧
          Definitions.read (['\n'].intercalate (statements ++ [[]])) = .ok defs := by
  obtain ⟨g, hg, hproductions⟩ := map_eq_ok_iff.1 (by decide +kernel :
    (Grammar.read "t:s s|;s:'+'|'-';".toList).map (·.productions) =
      .ok [⟨"t", [[.name "s", .name "s"], []]⟩, ⟨"s", [[.literal "'+'"], [.literal "'-'"]]⟩])
  exact ⟨g, hg, hproductions, Grammar.read_lines_of_convert hg {}⟩

end GrammarOutline
