import GrammarOutline.Definition.Reader
import GrammarOutline.Proofs.Parsing.Termination

/-!
# Hints play no part

A success may come with a hint, which is merged into failures further on. No hint is committed, so
it never changes whether one backs out of a failure: what a run comes to is what its parser means.
-/
namespace GrammarOutline.Parsing

variable {σ : Type} {n : Nat} {τ : Fin n → Type} {α : Type}

section Symbols

variable {rules : (i : Fin n) → Parser σ τ (τ i)} {accepts : σ → Bool} {expected : String}

/-- A symbol is always taken. -/
theorem not_mayTakeNothing_symbol : ¬MayTakeNothing rules (.symbol accepts expected) := by
  rintro ⟨input, position, value, hposition, hevaluates⟩
  have hagrees := hevaluates.agreesAt hposition 0
  obtain ⟨hint, hrun⟩ := hagrees.exists_success (Scanner.run_ne_exhausted _ _)
  obtain ⟨hrest, -⟩ := rest_of_accepts_symbol ⟨hint, hrun⟩
  exact absurd (congrArg List.length hrest) (by simp)

theorem not_startsWith_symbol (i : Fin n) :
    ¬(Parser.symbol accepts expected).StartsWith rules i := id

end Symbols

/-- The rule of definitions comes back to itself only behind a parenthesis. -/
theorem notLeftRecursive_definition : NotLeftRecursive Definition.rules := by
  have hnone : ∀ i j, ¬(Definition.rules i).StartsWith Definition.rules j := by
    intro i j
    simp [Definition.rules, Definition.sequence, Definition.quantified, Definition.quantifier,
      Definition.atom, Definition.identifier, Definition.terminal, Definition.group,
      Definition.tokenOf, Definition.sign, Parser.sepBy1, Parser.choice, Parser.right,
      Parser.StartsWith, not_startsWith_symbol, not_mayTakeNothing_symbol]
  intro i h
  cases h with
  | single h => exact hnone _ _ h
  | tail _ h => exact hnone _ _ h

/-- What a run at a position comes to is what its parser means there. -/
structure Parser.RunsAsMeant (rules : (i : Fin n) → Parser σ τ (τ i)) (p : Parser σ τ α)
    (input : List σ) (position : Nat) : Prop where
  /-- A parser means one outcome. -/
  exists_unique : ∃! o, Evaluates rules input p position o
  /-- It succeeds with a value and a position exactly if they are the outcome. -/
  success_iff : ∀ value next,
    (∃ after hint, p.run rules input position = .success value after hint ∧ after.position = next) ↔
      Evaluates rules input p position (.ok value next)
  /-- It fails without being committed exactly if the parser fails. -/
  failure_iff : (∃ f, p.run rules input position = .failure f ∧ f.committed = false) ↔
    Evaluates rules input p position .fail
  /-- It fails committed exactly if the parser is cut off. -/
  committed_iff : (∃ f, p.run rules input position = .failure f ∧ f.committed = true) ↔
    Evaluates rules input p position .cut
  /-- The hint of a success is not committed. -/
  hint_free : ∀ value after f, p.run rules input position = .success value after (some f) →
    f.committed = false

/-- Whatever hints are merged on the way, a run comes to what its parser means, unless the rules are
left-recursive. -/
theorem Parser.runsAsMeant (rules : (i : Fin n) → Parser σ τ (τ i))
    (hrules : NotLeftRecursive rules) (p : Parser σ τ α) (input : List σ) (position : Nat)
    (hposition : position ≤ input.length) : p.RunsAsMeant rules input position := by
  have hne := hrules.run_ne_exhausted p hposition
  constructor
  case exists_unique =>
    obtain ⟨o, hevaluates⟩ := covered _ p position hposition hne
    exact ⟨o, hevaluates, fun o' h =>
      (h.agreesAt hposition _).unique (hevaluates.agreesAt hposition _) hne⟩
  case success_iff =>
    intro value next
    constructor
    · rintro ⟨after, hint, hrun, rfl⟩
      obtain ⟨next, rfl, -, -, hevaluates, -⟩ := exists_of_runWith_eq_success hposition hrun
      rwa [Cursor.position_ofPosition]
    · intro hevaluates
      obtain ⟨hint, hrun⟩ := (hevaluates.agreesAt hposition _).exists_success hne
      exact ⟨_, hint, hrun, Cursor.position_ofPosition input next⟩
  case failure_iff =>
    refine ⟨?_, fun hevaluates => (hevaluates.agreesAt hposition _).exists_failure hne⟩
    rintro ⟨f, hrun, hfree⟩
    have hevaluates := evaluates_of_runWith_eq_failure hposition hrun
    rwa [if_neg (by simp [hfree])] at hevaluates
  case committed_iff =>
    refine ⟨?_, fun hevaluates => (hevaluates.agreesAt hposition _).exists_committed hne⟩
    rintro ⟨f, hrun, hcommitted⟩
    have hevaluates := evaluates_of_runWith_eq_failure hposition hrun
    rwa [if_pos hcommitted] at hevaluates
  case hint_free =>
    intro value after f hrun
    obtain ⟨-, -, -, -, -, hfree⟩ := exists_of_runWith_eq_success hposition hrun
    exact Failure.isFree_some_iff.1 hfree

/-- The parser of a choice does what it means, here at the body of a definition. -/
theorem Parser.runsAsMeant_alternation :
    let tokens := Token.scan "a ::= ('x' | ) ;".toList
    NotLeftRecursive Definition.rules ∧ 2 ≤ tokens.length ∧
      Definition.alternation.RunsAsMeant Definition.rules tokens 2 := by
  intro tokens
  have hstart : 2 ≤ tokens.length := by decide +kernel
  exact ⟨notLeftRecursive_definition, hstart, Parser.runsAsMeant Definition.rules
    notLeftRecursive_definition Definition.alternation tokens 2 hstart⟩

end GrammarOutline.Parsing
