import GrammarOutline.Production.Reader
import GrammarOutline.Proofs.Expr.Normal
import GrammarOutline.Proofs.Parsing.Abort

/-!
# Malformed grammar texts

A committed failure aborts the reading of a grammar text. The first characters that belong to no
lexeme are therefore the ones that are reported.
-/
namespace GrammarOutline
open Parsing

theorem Grammar.kind_of_addAll {g : Grammar} {ps : List Production} {fault : Fault}
    (h : g.addAll ps = .error fault) : fault.kind = .invariant := by
  induction ps generalizing g with
  | nil => simp [Grammar.addAll] at h
  | cons p ps ih =>
    rcases bind_eq_error_iff.1 h with hadd | ⟨g', -, hps⟩
    · rw [Grammar.add] at hadd
      split_ifs at hadd <;> obtain rfl := Except.error.inj hadd <;> rfl
    · exact ih hps

/-- A text has a lexical fault exactly if its reading fails with an excerpt. -/
theorem Grammar.read_eq_lexical_iff {source : List Char} {excerpt : String} {place : Place} :
    Grammar.read source = .error (.lexical excerpt place) ↔ ∃ f,
      Production.productions.run noRules (RulesSection.ofSource source).text 0 = .failure f ∧
      f.excerpt = some excerpt ∧
      place = ⟨(RulesSection.ofSource source).base + f.position, some source⟩ := by
  rw [Grammar.read, Production.readRaw]
  dsimp only
  cases Production.productions.run noRules (RulesSection.ofSource source).text 0 with
  | success raw next hint =>
    have hne : Grammar.empty.addAll raw ≠ .error (.lexical excerpt place) := fun h =>
      absurd (Grammar.kind_of_addAll h) (by simp [Fault.kind])
    simpa [Except.bind] using hne
  | exhausted => simp [Except.bind]
  | failure f =>
    cases hexcerpt : f.excerpt with
    | none => simp [Except.bind, hexcerpt]
    | some excerpt' => simp [Except.bind, hexcerpt, eq_comm]

/-- A committed failure aborts a run as it is, whatever combinators the parser is made up of. A
grammar text has a lexical fault exactly if characters that belong to no lexeme come up in its
reading, and then the fault is about the first of them. -/
theorem committed_failures_abort :
    (∀ {σ : Type} {n : Nat} {τ : Fin n → Type} (rules : (i : Fin n) → Parser σ τ (τ i)) {α : Type}
      (p : Parser σ τ α) (input : List σ) (position : Nat),
      p.AbortsUnchanged rules input position) ∧
    ∀ (source : List Char) (excerpt : String) (place : Place),
      Grammar.read source = .error (.lexical excerpt place) ↔ ∃ f,
        (Production.productions.record noRules (RulesSection.ofSource source).text
          0).events.findSome? Event.malformed? = some f ∧
        f.excerpt = some excerpt ∧
        place = ⟨(RulesSection.ofSource source).base + f.position, some source⟩ := by
  refine ⟨fun rules _ p input position => p.abortsUnchanged rules input position,
    fun source excerpt place => ?_⟩
  have haborts := Production.productions.abortsUnchanged noRules
    (RulesSection.ofSource source).text 0
  have hfirst : ∀ f, (Production.productions.record noRules
      (RulesSection.ofSource source).text 0).events.findSome? Event.malformed? = some f →
      Production.productions.run noRules (RulesSection.ofSource source).text 0 = .failure f := by
    intro f hfind
    obtain ⟨before, e, after, hevents, hmalformed, -⟩ := List.findSome?_eq_some_iff.1 hfind
    have he := haborts.holds e (by simp [hevents])
    exact (haborts.unchanged before e after f hevents (Event.malformed?_eq_some_iff.1 hmalformed).1
      (he.committed_of_malformed hmalformed)).2
  rw [Grammar.read_eq_lexical_iff]
  constructor
  · rintro ⟨f, hrun, hexcerpt, hplace⟩
    have hlast := Production.productions.finish_mem_record noRules
      (RulesSection.ofSource source).text 0
    rw [hrun] at hlast
    cases hfind : (Production.productions.record noRules
        (RulesSection.ofSource source).text 0).events.findSome? Event.malformed? with
    | none =>
      have hnone := List.findSome?_eq_none_iff.1 hfind _ hlast
      simp [Event.malformed?, Event.failure?, Reply.failure?, hexcerpt] at hnone
    | some g =>
      obtain rfl : f = g := Reply.failure.inj (hrun.symm.trans (hfirst g hfind))
      exact ⟨f, rfl, hexcerpt, hplace⟩
  · rintro ⟨f, hfind, hexcerpt, hplace⟩
    exact ⟨f, hfirst f hfind, hexcerpt, hplace⟩

/-- A quote that is not closed, within a rule, ends the reading of the text. -/
theorem committed_failures_abort_openQuote :
    let text := "%%\na : b | 'x ;".toList
    let rules := RulesSection.ofSource text
    Grammar.read text = .error (.lexical "'x" ⟨11, some text⟩) ∧
    ∃ before e after f,
      (Production.productions.record noRules rules.text 0).events = before ++ e :: after ∧
      e.failure? = some f ∧ f.committed = true ∧ f.excerpt = some "'x" ∧
      (rules.base + f.position : Int) = 11 ∧
      (∀ e' ∈ after, e'.failure? = some f) ∧
      Production.productions.run noRules rules.text 0 = .failure f := by
  intro text rules
  have hread : (Grammar.read text).map (·.productions) =
      .error (.lexical "'x" ⟨11, some text⟩) := by decide +kernel
  have hread : Grammar.read text = .error (.lexical "'x" ⟨11, some text⟩) := by
    cases hresult : Grammar.read text with
    | ok g => simp [hresult, Except.map] at hread
    | error fault => simpa [hresult, Except.map] using hread
  obtain ⟨f, hfind, hexcerpt, hplace⟩ := (committed_failures_abort.2 text _ _).1 hread
  obtain ⟨before, e, after, hevents, hmalformed, -⟩ := List.findSome?_eq_some_iff.1 hfind
  have haborts := committed_failures_abort.1 noRules Production.productions rules.text 0
  have hfailure := (Event.malformed?_eq_some_iff.1 hmalformed).1
  have hcommitted := (haborts.holds e (by simp [rules, hevents])).committed_of_malformed hmalformed
  obtain ⟨hafter, hrun⟩ := haborts.unchanged before e after f hevents hfailure hcommitted
  exact ⟨hread, before, e, after, f, hevents, hfailure, hcommitted, hexcerpt,
    (congrArg Place.offset hplace).symm, hafter, hrun⟩

end GrammarOutline
