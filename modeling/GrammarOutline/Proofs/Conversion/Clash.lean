import GrammarOutline.Resources
import GrammarOutline.Proofs.Conversion.Result
import GrammarOutline.Proofs.Definition.Entries

/-!
# Clashes of names

What was read are normal forms, and these can be settled whatever the names are. So a conversion of
texts fails only when a supplementary definition has the name of a production, and it reports the
first one.
-/
namespace GrammarOutline

namespace NamedProductions

variable {g : NamedProductions} {extra : Definitions}

theorem find?_contains_eq_some_iff {name : String} : extra.names.find? g.contains = some name ↔
    name ∈ g.names ∧ ∃ before after, extra.names = before ++ name :: after ∧
      ∀ n ∈ before, n ∉ g.names := by
  simp [List.find?_eq_some_iff_append, contains]

theorem exists_find?_contains_iff :
    (∃ name, extra.names.find? g.contains = some name) ↔ ∃ n ∈ extra.names, n ∈ g.names := by
  rw [← Option.isSome_iff_exists, List.find?_isSome]
  simp [contains]

/-- Normal forms can be settled, so only a clash of names is an error. -/
theorem convert_eq_error_iff (hnormal : ∀ n b, extra.find? n = some b → b.normalize = .ok b)
    (policy : InlinePolicy) {fault : Fault} : g.convert extra policy = .error fault ↔
      ∃ name, extra.names.find? g.contains = some name ∧ fault = .duplicate name := by
  obtain ⟨s, hs, -⟩ := Conversion.exists_settle policy (normal_sources (g := g) hnormal)
  rw [convert]
  cases extra.names.find? g.contains with
  | some name => simp [eq_comm]
  | none => simp [hs]

end NamedProductions

namespace Conversion

/-- A fault about a name is reported together with the resource, if that has a name. -/
theorem located_eq_error_iff {α : Type} {resource : Option String} {result : Except Fault α}
    (hresult : ∀ fault, result = .error fault → ∃ name, fault = .duplicate name) {d : Diagnosis} :
    located resource result = .error d ↔
      ∃ name, result = .error (.duplicate name) ∧
        d = ⟨.duplicate name, resource.filter (!·.isEmpty)⟩ := by
  cases result with
  | ok value => simp [located, Except.mapError]
  | error fault =>
    obtain ⟨name, rfl⟩ := hresult fault rfl
    have hwithin : (Diagnosis.ofFault (.duplicate name)).within resource =
        ⟨.duplicate name, resource.filter (!·.isEmpty)⟩ := by
      cases resource with
      | none => simp [Diagnosis.ofFault, Diagnosis.within]
      | some resource =>
        by_cases hempty : resource.isEmpty <;>
          simp [Diagnosis.ofFault, Diagnosis.within, Option.filter, hempty]
    simp [located, Except.mapError, hwithin, eq_comm]

end Conversion

/-- A conversion of a grammar with definitions that were read fails exactly when one of these has
the name of a production. The first of them is reported together with the resource. Settling the
bodies never fails. -/
theorem convert_fails_only_on_clash (g : Grammar) {source : List Char} {extra : Definitions}
    (hread : Definitions.read source = .ok extra) (policy : InlinePolicy)
    (resource : Option String) :
    ((∃ d, Conversion.located resource (g.convert extra policy) = .error d) ↔
      ∃ n ∈ extra.names, n ∈ g.names) ∧
    (∀ d, Conversion.located resource (g.convert extra policy) = .error d →
      ∃ before name after, extra.names = before ++ name :: after ∧ name ∈ g.names ∧
        (∀ n ∈ before, n ∉ g.names) ∧ d = ⟨.duplicate name, resource.filter (!·.isEmpty)⟩) ∧
    ∃ s, Conversion.settle policy (Conversion.sources g extra) = .ok s := by
  have hnormal : ∀ n b, extra.find? n = some b → b.normalize = .ok b :=
    fun _ _ => Definitions.normalize_of_read hread
  have hfault : ∀ fault, g.convert extra policy = .error fault →
      ∃ name, fault = .duplicate name := by
    intro fault h
    obtain ⟨name, -, rfl⟩ := (NamedProductions.convert_eq_error_iff hnormal policy).1 h
    exact ⟨name, rfl⟩
  have herror : ∀ d, Conversion.located resource (g.convert extra policy) = .error d ↔
      ∃ name, extra.names.find? g.contains = some name ∧
        d = ⟨.duplicate name, resource.filter (!·.isEmpty)⟩ := by
    intro d
    simp [Conversion.located_eq_error_iff hfault, NamedProductions.convert_eq_error_iff hnormal]
  refine ⟨?_, fun d hd => ?_, ?_⟩
  · rw [← NamedProductions.exists_find?_contains_iff]
    simp only [herror]
    exact ⟨fun ⟨_, name, hname, _⟩ => ⟨name, hname⟩, fun ⟨name, hname⟩ => ⟨_, name, hname, rfl⟩⟩
  · obtain ⟨name, hname, rfl⟩ := (herror d).1 hd
    obtain ⟨hmem, before, after, hnames, hbefore⟩ :=
      NamedProductions.find?_contains_eq_some_iff.1 hname
    exact ⟨before, name, after, hnames, hmem, hbefore, rfl⟩
  · obtain ⟨s, hs, -⟩ := Conversion.exists_settle policy (NamedProductions.normal_sources hnormal)
    exact ⟨s, hs⟩

/-- Of two names that are productions already, the one that was read first is reported. -/
theorem convert_fails_only_on_clash_wordLists : ∃ extra : Definitions,
    Definitions.read "item ::= word* ; word ::= ; list ::= item ;".toList = .ok extra ∧
    ((∃ d, Conversion.located (some "lists") (Grammar.wordLists.convert extra {}) = .error d) ↔
      ∃ n ∈ extra.names, n ∈ Grammar.wordLists.names) ∧
    (∀ d, Conversion.located (some "lists") (Grammar.wordLists.convert extra {}) = .error d →
      ∃ before name after, extra.names = before ++ name :: after ∧ name ∈ Grammar.wordLists.names ∧
        (∀ n ∈ before, n ∉ Grammar.wordLists.names) ∧
        d = ⟨.duplicate name, (some "lists").filter (!·.isEmpty)⟩) ∧
    ∃ s, Conversion.settle {} (Conversion.sources Grammar.wordLists extra) = .ok s := by
  have hread : (Definitions.read "item ::= word* ; word ::= ; list ::= item ;".toList).map
      Table.names = .ok ["item", "word", "list"] := by decide +kernel
  obtain ⟨extra, hextra, -⟩ := map_eq_ok_iff.1 hread
  exact ⟨extra, hextra, convert_fails_only_on_clash _ hextra {} (some "lists")⟩

end GrammarOutline
