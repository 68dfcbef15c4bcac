import GrammarOutline.Proofs.Parsing.Hints
import GrammarOutline.Proofs.Parsing.Replies

/-!
# Where runs move

A run that starts within the input ends there, whatever it repeats. It takes no step back and none
beyond the end, and what it says about failures is about places that it has come to: merged hints
included, they lie between the start of the run and the end of the input.
-/
namespace GrammarOutline.Parsing

variable {σ α : Type} {n : Nat} {τ : Fin n → Type}

/-- The failure lies between two positions. -/
def Failure.Within (first last : Nat) (f : Failure) : Prop := first ≤ f.position ∧ f.position ≤ last

/-- A run has ended, and the cursor, the failure and the hint that it leaves lie between two
positions. -/
def Reply.Within (first last : Nat) : Reply σ α → Prop
  | .success _ next hint =>
    (first ≤ next.position ∧ next.position ≤ last) ∧ ∀ f ∈ hint, f.Within first last
  | .failure f => f.Within first last
  | .exhausted => False

/-- The cursor is at a position of the input from `first` on. -/
def Cursor.From (input : List σ) (first : Nat) (c : Cursor σ) : Prop :=
  ∃ position, c = ofPosition input position ∧ first ≤ position ∧ position ≤ input.length

section Lasting

variable {input : List σ} {first : Nat} {c : Cursor σ}

theorem Cursor.From.within (h : c.From input first) :
    first ≤ c.position ∧ c.position ≤ input.length := by
  obtain ⟨position, rfl, hle⟩ := h
  rwa [position_ofPosition]

theorem Failure.within_of_from (h : c.From input first) (expected : String) (committed : Bool)
    (excerpt : Option String) :
    Failure.Within first input.length ⟨expected, c.position, committed, excerpt⟩ := by
  obtain ⟨hfirst, hlast⟩ := h.within
  exact ⟨Int.ofNat_le.2 hfirst, Int.ofNat_le.2 hlast⟩

theorem Failure.Within.merge {last : Nat} {f g : Failure} (hf : f.Within first last)
    (hg : g.Within first last) : (f.merge g).Within first last := by
  rw [Failure.Within, Failure.position_merge]
  exact ⟨Int.le_trans hf.1 (Int.le_max_left _ _), Int.max_le.2 ⟨hf.2, hg.2⟩⟩

theorem lasting_within (input : List σ) (first : Nat) :
    Lasting (Cursor.From input first) (Failure.Within first input.length) where
  merge _ _ hf hg := hf.merge hg
  label _ expected hc := Failure.within_of_from hc expected false none
  commit _ hf := hf

/-- A scanner looks over symbols that are left, and breaks off at one of them or at the end. -/
theorem Scanner.keeps_within (s : Scanner σ α) (hc : c.From input first) :
    (s.run c).Keeps (Cursor.From input first) (Failure.Within first input.length) := by
  obtain ⟨position, rfl, hfirst, hlast⟩ := hc
  have hrest : (Cursor.ofPosition input position).rest = input.drop position := rfl
  have hreach := s.reach_le (input.drop position)
  rw [List.length_drop] at hreach
  rw [Scanner.run, Cursor.settle_of_beyond (Cursor.beyond_ofPosition hlast), hrest]
  cases hread : s.read (input.drop position) with
  | taken value count =>
    rw [hread, Scan.reach] at hreach
    have hwithin : position + count ≤ input.length := by omega
    dsimp only
    rw [Cursor.advance_ofPosition hwithin]
    exact ⟨⟨position + count, rfl, by omega, hwithin⟩, by simp⟩
  | refused expected =>
    exact Failure.within_of_from ⟨position, rfl, hfirst, hlast⟩ expected false none
  | broken expected after excerpt =>
    rw [hread, Scan.reach] at hreach
    have hplace := Cursor.position_ofPosition input position
    show Failure.Within first input.length ⟨expected, _, true, excerpt⟩
    rw [Failure.Within, hplace]
    constructor <;> dsimp only <;> omega

/-- A run that starts within the input stays between its start and the end. -/
theorem Parser.keeps_run_within (rules : (i : Fin n) → Parser σ τ (τ i)) (p : Parser σ τ α)
    {position : Nat} (hposition : position ≤ input.length) :
    (p.run rules input position).Keeps (Cursor.From input position)
      (Failure.Within position input.length) := by
  have hscan : ∀ {β : Type} (q : Parser σ τ β), q.AllScanners fun s => ∀ c,
      Cursor.From input position c →
        (s.run c).Keeps (Cursor.From input position) (Failure.Within position input.length) :=
    fun q => q.allScanners_of_forall fun s _ hc => s.keeps_within hc
  exact p.keeps_run (lasting_within input position) (fun i => hscan (rules i)) (hscan p)
    ⟨position, rfl, Nat.le_refl _, hposition⟩

end Lasting

/-- Every run that starts within the input ends, unless the rules are left-recursive. Its cursor,
its failure and its hint lie between the start and the end of the input. -/
theorem Parser.run_ends_within (rules : (i : Fin n) → Parser σ τ (τ i))
    (hrules : NotLeftRecursive rules) (p : Parser σ τ α) (input : List σ) (position : Nat)
    (hposition : position ≤ input.length) :
    (p.run rules input position).Within position input.length := by
  have hends := hrules.run_ne_exhausted p hposition
  have hkeeps := p.keeps_run_within rules hposition
  cases hrun : p.run rules input position with
  | success value next hint =>
    rw [hrun] at hkeeps
    exact ⟨hkeeps.1.within, hkeeps.2⟩
  | failure f =>
    rw [hrun] at hkeeps
    exact hkeeps
  | exhausted => exact absurd hrun hends

/-- A repetition whose values may take nothing, before a group with an empty alternative. -/
theorem Parser.run_ends_within_repetition :
    let tokens := Token.scan "a ::= ('x' | ) ;".toList
    NotLeftRecursive Definition.rules ∧ 2 ≤ tokens.length ∧
      ((Parser.many Definition.alternation).run Definition.rules tokens 2).Within 2
        tokens.length := by
  intro tokens
  have hstart : 2 ≤ tokens.length := by decide +kernel
  exact ⟨notLeftRecursive_definition, hstart, Parser.run_ends_within Definition.rules
    notLeftRecursive_definition (.many Definition.alternation) tokens 2 hstart⟩

end GrammarOutline.Parsing
