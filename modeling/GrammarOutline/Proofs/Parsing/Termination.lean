import GrammarOutline.Proofs.Parsing.Evaluation
import Mathlib.Data.Fintype.Card
import Mathlib.Logic.Relation

/-!
# Runs that end

Rules are left-recursive when one of them can come back to itself before anything is taken.
Otherwise a run never follows more rules than it may: every rule that it enters at the same place is
lower than the one before, and there are only so many rules.
-/
namespace GrammarOutline.Parsing
open Relation

variable {σ : Type} {n : Nat} {τ : Fin n → Type} {α β : Type}

section Exhausted

variable {call : (i : Fin n) → Cursor σ → Reply σ (τ i)} {c : Cursor σ} {p q : Parser σ τ α}

theorem Scanner.run_ne_exhausted (s : Scanner σ α) (c : Cursor σ) : s.run c ≠ .exhausted := by
  rw [Scanner.run]
  split <;> simp

theorem runWith_both_eq_exhausted_iff {q : Parser σ τ β} :
    (Parser.both p q).runWith call c = .exhausted ↔ p.runWith call c = .exhausted ∨
      ∃ value next hint, p.runWith call c = .success value next hint ∧
        q.runWith call next = .exhausted := by
  rw [Parser.runWith]
  cases hp : p.runWith call c with
  | failure f => simp
  | exhausted => simp
  | success value next hint =>
    dsimp only
    cases hq : q.runWith call next <;> simp [hq]

theorem runWith_either_eq_exhausted_iff :
    (Parser.either p q).runWith call c = .exhausted ↔ p.runWith call c = .exhausted ∨
      ∃ f, p.runWith call c = .failure f ∧ f.committed = false ∧ q.runWith call c = .exhausted := by
  rw [Parser.runWith]
  cases hp : p.runWith call c with
  | success value next hint => simp
  | exhausted => simp
  | failure f =>
    dsimp only
    cases hcommitted : f.committed with
    | true => simp [hcommitted]
    | false => cases hq : q.runWith call c <;> simp [hcommitted]

theorem runWith_map_eq_exhausted_iff {f : α → β} :
    (Parser.map f p).runWith call c = .exhausted ↔ p.runWith call c = .exhausted := by
  rw [Parser.runWith]
  cases p.runWith call c <;> simp

theorem runWith_label_eq_exhausted_iff {expected : String} :
    (Parser.label p expected).runWith call c = .exhausted ↔ p.runWith call c = .exhausted := by
  rw [Parser.runWith]
  cases p.runWith call c with
  | failure f =>
    dsimp only
    split <;> simp
  | success | exhausted => simp

theorem runWith_commit_eq_exhausted_iff :
    (Parser.commit p).runWith call c = .exhausted ↔ p.runWith call c = .exhausted := by
  rw [Parser.runWith]
  cases p.runWith call c with
  | failure f =>
    dsimp only
    split <;> simp
  | success | exhausted => simp

theorem map_eq_exhausted_iff {f : α → β} {reply : Reply σ α} :
    reply.map f = .exhausted ↔ reply = .exhausted := by
  cases reply <;> simp [Reply.map]

/-- Whether a repetition is exhausted does not depend on a hint from before. -/
theorem repeatFrom_eq_exhausted_iff {step : Cursor σ → Reply σ α} {hint : Option Failure} :
    repeatFrom step c [] hint = .exhausted ↔ repeatFrom step c [] none = .exhausted := by
  rw [repeatFrom, repeatFrom]
  cases step c with
  | failure f =>
    dsimp only
    split <;> simp
  | success | exhausted => rfl

theorem runWith_many_eq_exhausted_iff :
    (Parser.many p).runWith call c = .exhausted ↔ p.runWith call c = .exhausted ∨
      ∃ value next hint, p.runWith call c = .success value next hint ∧ next.size < c.size ∧
        (Parser.many p).runWith call next = .exhausted := by
  rw [Parser.runWith, repeatFrom]
  cases hp : p.runWith call c with
  | failure f =>
    dsimp only
    split <;> simp
  | exhausted => simp
  | success value next hint =>
    dsimp only
    split_ifs with hless
    · rw [repeatFrom_one, map_eq_exhausted_iff, repeatFrom_eq_exhausted_iff]
      simp [hless]
    · simp [hless]

end Exhausted

section Meaning

variable {rules : (i : Fin n) → Parser σ τ (τ i)} {input : List σ} {position next : Nat}
  {call : (i : Fin n) → Cursor σ → Reply σ (τ i)} {p : Parser σ τ α} {value : α}

theorem AgreesAt.exists_success (h : AgreesAt call input p position (.ok value next))
    (hrun : p.runWith call (Cursor.ofPosition input position) ≠ .exhausted) :
    ∃ hint, p.runWith call (Cursor.ofPosition input position) =
      .success value (Cursor.ofPosition input next) hint := by
  unfold AgreesAt at h
  generalize p.runWith call (Cursor.ofPosition input position) = reply at h hrun
  cases h with
  | ok => exact ⟨_, rfl⟩
  | exhausted => exact absurd rfl hrun

theorem AgreesAt.exists_failure (h : AgreesAt call input p position .fail)
    (hrun : p.runWith call (Cursor.ofPosition input position) ≠ .exhausted) :
    ∃ f, p.runWith call (Cursor.ofPosition input position) = .failure f ∧ f.committed = false := by
  unfold AgreesAt at h
  generalize p.runWith call (Cursor.ofPosition input position) = reply at h hrun
  cases h with
  | fail free => exact ⟨_, rfl, free⟩
  | exhausted => exact absurd rfl hrun

theorem AgreesAt.exists_committed (h : AgreesAt call input p position .cut)
    (hrun : p.runWith call (Cursor.ofPosition input position) ≠ .exhausted) :
    ∃ f, p.runWith call (Cursor.ofPosition input position) = .failure f ∧ f.committed = true := by
  unfold AgreesAt at h
  generalize p.runWith call (Cursor.ofPosition input position) = reply at h hrun
  cases h with
  | cut committed => exact ⟨_, rfl, committed⟩
  | exhausted => exact absurd rfl hrun

/-- The parser has an outcome wherever its run is not exhausted. -/
def Covered (rules : (i : Fin n) → Parser σ τ (τ i)) (budget : Nat) (input : List σ)
    (p : Parser σ τ α) : Prop :=
  ∀ position, position ≤ input.length →
    p.runWith (callRule rules budget) (Cursor.ofPosition input position) ≠ .exhausted →
    ∃ o, Evaluates rules input p position o

section Covered

variable {budget : Nat} {q : Parser σ τ α}

theorem Covered.both {q : Parser σ τ β} (hp : Covered rules budget input p)
    (hq : Covered rules budget input q) : Covered rules budget input (.both p q) := by
  intro position hposition hrun
  rw [ne_eq, runWith_both_eq_exhausted_iff, not_or] at hrun
  obtain ⟨hfirst, hafter⟩ := hrun
  obtain ⟨o, hevaluates⟩ := hp position hposition hfirst
  cases o with
  | fail => exact ⟨_, .bothFail hevaluates⟩
  | cut => exact ⟨_, .bothCut hevaluates⟩
  | ok value middle =>
    obtain ⟨hint, hsuccess⟩ := (hevaluates.agreesAt hposition budget).exists_success hfirst
    have hsecond : q.runWith (callRule rules budget) (Cursor.ofPosition input middle) ≠
        .exhausted :=
      fun hexhausted => hafter ⟨_, _, _, hsuccess, hexhausted⟩
    obtain ⟨o, hothers⟩ := hq middle (hevaluates.within hposition).2 hsecond
    exact ⟨_, .both hevaluates hothers⟩

theorem Covered.either (hp : Covered rules budget input p) (hq : Covered rules budget input q) :
    Covered rules budget input (.either p q) := by
  intro position hposition hrun
  rw [ne_eq, runWith_either_eq_exhausted_iff, not_or] at hrun
  obtain ⟨hfirst, hafter⟩ := hrun
  obtain ⟨o, hevaluates⟩ := hp position hposition hfirst
  cases o with
  | ok value next => exact ⟨_, .eitherFirst hevaluates⟩
  | cut => exact ⟨_, .eitherCut hevaluates⟩
  | fail =>
    obtain ⟨f, hf, hfree⟩ := (hevaluates.agreesAt hposition budget).exists_failure hfirst
    have hsecond : q.runWith (callRule rules budget) (Cursor.ofPosition input position) ≠
        .exhausted :=
      fun hexhausted => hafter ⟨f, hf, hfree, hexhausted⟩
    obtain ⟨o, hothers⟩ := hq position hposition hsecond
    exact ⟨_, .eitherSecond hevaluates hothers⟩

theorem Covered.many (hp : Covered rules budget input p) :
    Covered rules budget input (.many p) := by
  intro position hposition hrun
  induction hleft : input.length - position using Nat.strong_induction_on generalizing position with
  | _ left ih =>
    rw [ne_eq, runWith_many_eq_exhausted_iff, not_or] at hrun
    obtain ⟨hfirst, hafter⟩ := hrun
    obtain ⟨o, hevaluates⟩ := hp position hposition hfirst
    cases o with
    | fail => exact ⟨_, .manyStop hevaluates⟩
    | cut => exact ⟨_, .manyCut hevaluates⟩
    | ok value middle =>
      obtain ⟨hle, hmiddle⟩ := hevaluates.within hposition
      rcases Nat.eq_or_lt_of_le hle with rfl | hlt
      · exact ⟨_, .manyLast hevaluates⟩
      · obtain ⟨hint, hsuccess⟩ := (hevaluates.agreesAt hposition budget).exists_success hfirst
        have hsize := (Cursor.size_lt_iff hposition hmiddle).2 hlt
        obtain ⟨o, hothers⟩ := ih (input.length - middle) (by omega) middle hmiddle
          (fun hexhausted => hafter ⟨_, _, _, hsuccess, hsize, hexhausted⟩) rfl
        exact ⟨_, .manyMore hevaluates hlt hothers⟩

theorem covered_of_rules (hrules : ∀ i, Covered rules budget input (.rule i)) (p : Parser σ τ α) :
    Covered rules budget input p := by
  induction p with
  | scan s => exact fun position _ _ => ⟨_, .scan s position⟩
  | succeed value => exact fun position _ _ => ⟨_, .succeed value position⟩
  | both p q ihp ihq => exact ihp.both ihq
  | either p q ihp ihq => exact ihp.either ihq
  | many p ih => exact ih.many
  | rule i => exact hrules i
  | map f p ih =>
    intro position hposition hrun
    rw [ne_eq, runWith_map_eq_exhausted_iff] at hrun
    obtain ⟨o, hevaluates⟩ := ih position hposition hrun
    exact ⟨_, .map f hevaluates⟩
  | label p expected ih =>
    intro position hposition hrun
    rw [ne_eq, runWith_label_eq_exhausted_iff] at hrun
    obtain ⟨o, hevaluates⟩ := ih position hposition hrun
    exact ⟨_, .label expected hevaluates⟩
  | commit p ih =>
    intro position hposition hrun
    rw [ne_eq, runWith_commit_eq_exhausted_iff] at hrun
    obtain ⟨o, hevaluates⟩ := ih position hposition hrun
    exact ⟨_, .commit hevaluates⟩

/-- Every parser is covered, however many rules a run may follow. -/
theorem covered (budget : Nat) (p : Parser σ τ α) : Covered rules budget input p := by
  induction budget generalizing α with
  | zero => exact covered_of_rules (fun i position _ hrun => absurd rfl hrun) p
  | succ budget ih =>
    refine covered_of_rules (fun i position hposition hrun => ?_) p
    obtain ⟨o, hevaluates⟩ := ih (rules i) position hposition hrun
    exact ⟨o, .rule hevaluates⟩

end Covered

/-- A success is what the parser means. It takes no step back, and its hint is not committed. -/
theorem exists_of_runWith_eq_success {budget : Nat} {after : Cursor σ} {hint : Option Failure}
    (hposition : position ≤ input.length)
    (hrun : p.runWith (callRule rules budget) (Cursor.ofPosition input position) =
      .success value after hint) :
    ∃ next, after = Cursor.ofPosition input next ∧ position ≤ next ∧ next ≤ input.length ∧
      Evaluates rules input p position (.ok value next) ∧ Failure.IsFree hint := by
  have hne : p.runWith (callRule rules budget) (Cursor.ofPosition input position) ≠ .exhausted := by
    simp [hrun]
  obtain ⟨o, hevaluates⟩ := covered budget p position hposition hne
  have hagrees := hevaluates.agreesAt hposition budget
  rw [AgreesAt, hrun] at hagrees
  cases hagrees with
  | ok within free =>
    exact ⟨_, rfl, (hevaluates.within hposition).1, within, hevaluates, free⟩

/-- A failure is what the parser means: committed if it is cut off. -/
theorem evaluates_of_runWith_eq_failure {budget : Nat} {f : Failure}
    (hposition : position ≤ input.length)
    (hrun : p.runWith (callRule rules budget) (Cursor.ofPosition input position) = .failure f) :
    Evaluates rules input p position (if f.committed then .cut else .fail) := by
  have hne : p.runWith (callRule rules budget) (Cursor.ofPosition input position) ≠ .exhausted := by
    simp [hrun]
  obtain ⟨o, hevaluates⟩ := covered budget p position hposition hne
  have hagrees := hevaluates.agreesAt hposition budget
  rw [AgreesAt, hrun] at hagrees
  cases hagrees with
  | fail free => rwa [if_neg (by simp [free])]
  | cut committed => rwa [if_pos committed]

end Meaning

/-- The parser may succeed somewhere without taking anything. -/
def MayTakeNothing (rules : (i : Fin n) → Parser σ τ (τ i)) (p : Parser σ τ α) : Prop :=
  ∃ input position value, position ≤ input.length ∧
    Evaluates rules input p position (.ok value position)

/-- A run of the parser may enter the rule before anything is taken. -/
def Parser.StartsWith (rules : (i : Fin n) → Parser σ τ (τ i)) {α : Type} :
    Parser σ τ α → Fin n → Prop
  | .scan _, _ | .succeed _, _ => False
  | .both p q, i => p.StartsWith rules i ∨ MayTakeNothing rules p ∧ q.StartsWith rules i
  | .either p q, i => p.StartsWith rules i ∨ q.StartsWith rules i
  | .map _ p, i | .label p _, i | .commit p, i | .many p, i => p.StartsWith rules i
  | .rule j, i => i = j

/-- No rule can come back to itself before anything is taken, neither directly nor through other
rules. -/
def NotLeftRecursive (rules : (i : Fin n) → Parser σ τ (τ i)) : Prop :=
  ∀ i, ¬TransGen (fun i j => (rules i).StartsWith rules j) i i

section Heights

variable {rules : (i : Fin n) → Parser σ τ (τ i)} {i j : Fin n}

open Classical in
/-- The rules that a rule can lead to before anything is taken. -/
noncomputable def rulesBelow (rules : (i : Fin n) → Parser σ τ (τ i)) (i : Fin n) :
    Finset (Fin n) :=
  Finset.univ.filter fun j => TransGen (fun i j => (rules i).StartsWith rules j) i j

theorem mem_rulesBelow :
    j ∈ rulesBelow rules i ↔ TransGen (fun i j => (rules i).StartsWith rules j) i j := by
  simp [rulesBelow]

/-- How many rules a rule can lead to before anything is taken. -/
noncomputable def height (rules : (i : Fin n) → Parser σ τ (τ i)) (i : Fin n) : Nat :=
  (rulesBelow rules i).card

theorem NotLeftRecursive.height_lt (h : NotLeftRecursive rules) (i : Fin n) :
    height rules i < n := by
  have hself : i ∉ rulesBelow rules i := fun hi => h i (mem_rulesBelow.1 hi)
  simpa [height] using Finset.card_lt_univ_of_notMem hself

/-- A rule that is entered before anything is taken is lower. -/
theorem NotLeftRecursive.height_lt_of_startsWith (h : NotLeftRecursive rules)
    (hstarts : (rules i).StartsWith rules j) : height rules j < height rules i := by
  have hsub : rulesBelow rules j ⊆ rulesBelow rules i :=
    fun k hk => mem_rulesBelow.2 (.head hstarts (mem_rulesBelow.1 hk))
  have hmem : j ∈ rulesBelow rules i := mem_rulesBelow.2 (.single hstarts)
  have hself : j ∉ rulesBelow rules j := fun hj => h j (mem_rulesBelow.1 hj)
  exact Finset.card_lt_card ((Finset.ssubset_iff_of_subset hsub).2 ⟨j, hmem, hself⟩)

end Heights

section Ends

variable {rules : (i : Fin n) → Parser σ τ (τ i)} {input : List σ} {position : Nat} {budget : Nat}

/-- A run is not exhausted if no rule is that it may enter where it starts, and none further on. -/
theorem runWith_ne_exhausted (p : Parser σ τ α) (hposition : position ≤ input.length)
    (hlater : ∀ i later, position < later → later ≤ input.length →
      callRule rules budget i (Cursor.ofPosition input later) ≠ .exhausted)
    (hstart : ∀ i, p.StartsWith rules i →
      callRule rules budget i (Cursor.ofPosition input position) ≠ .exhausted) :
    p.runWith (callRule rules budget) (Cursor.ofPosition input position) ≠ .exhausted := by
  induction p generalizing position with
  | scan s => exact s.run_ne_exhausted _
  | succeed value => simp
  | both p q ihp ihq =>
    rw [ne_eq, runWith_both_eq_exhausted_iff]
    rintro (hp | ⟨value, after, hint, hsuccess, hq⟩)
    · exact ihp hposition hlater (fun i hi => hstart i (.inl hi)) hp
    obtain ⟨middle, rfl, hle, hmiddle, hfirst, -⟩ := exists_of_runWith_eq_success hposition hsuccess
    rcases Nat.eq_or_lt_of_le hle with rfl | hlt
    · have hnothing : MayTakeNothing rules p := ⟨input, position, value, hposition, hfirst⟩
      exact ihq hmiddle hlater (fun i hi => hstart i (.inr ⟨hnothing, hi⟩)) hq
    · exact ihq hmiddle (fun i later h => hlater i later (Nat.lt_trans hlt h))
        (fun i _ => hlater i middle hlt hmiddle) hq
  | either p q ihp ihq =>
    rw [ne_eq, runWith_either_eq_exhausted_iff]
    rintro (hp | ⟨f, -, -, hq⟩)
    · exact ihp hposition hlater (fun i hi => hstart i (.inl hi)) hp
    · exact ihq hposition hlater (fun i hi => hstart i (.inr hi)) hq
  | map f p ih =>
    rw [ne_eq, runWith_map_eq_exhausted_iff]
    exact ih hposition hlater hstart
  | label p expected ih =>
    rw [ne_eq, runWith_label_eq_exhausted_iff]
    exact ih hposition hlater hstart
  | commit p ih =>
    rw [ne_eq, runWith_commit_eq_exhausted_iff]
    exact ih hposition hlater hstart
  | many p ih =>
    induction hleft : input.length - position using Nat.strong_induction_on
      generalizing position with
    | _ left ihleft =>
      rw [ne_eq, runWith_many_eq_exhausted_iff]
      rintro (hp | ⟨value, after, hint, hsuccess, hsize, hmany⟩)
      · exact ih hposition hlater hstart hp
      obtain ⟨middle, rfl, -, hmiddle, -⟩ := exists_of_runWith_eq_success hposition hsuccess
      have hlt : position < middle := (Cursor.size_lt_iff hposition hmiddle).1 hsize
      exact ihleft (input.length - middle) (by omega) hmiddle
        (fun i later h => hlater i later (Nat.lt_trans hlt h))
        (fun i _ => hlater i middle hlt hmiddle) rfl hmany
  | rule i => exact hstart i rfl

/-- Rules are not exhausted where they may follow a rule for every height at every place. -/
theorem callRule_ne_exhausted (h : NotLeftRecursive rules) (i : Fin n)
    (hposition : position ≤ input.length)
    (hbudget : (input.length - position) * n + height rules i < budget) :
    callRule rules budget i (Cursor.ofPosition input position) ≠ .exhausted := by
  induction budget generalizing i position with
  | zero => omega
  | succ budget ih =>
    refine runWith_ne_exhausted (rules i) hposition (fun j later hlt hlater => ?_)
      fun j hstarts => ?_
    · have hheight := h.height_lt j
      have hmul : (input.length - later + 1) * n ≤ (input.length - position) * n :=
        Nat.mul_le_mul_right n (by omega)
      rw [Nat.add_mul, Nat.one_mul] at hmul
      exact ih j hlater (by omega)
    · have hheight := h.height_lt_of_startsWith hstarts
      exact ih j hposition (by omega)

/-- Without left recursion every run ends. -/
theorem NotLeftRecursive.run_ne_exhausted (h : NotLeftRecursive rules) (p : Parser σ τ α)
    (hposition : position ≤ input.length) : p.run rules input position ≠ .exhausted := by
  have hcall : ∀ i later, position ≤ later → later ≤ input.length →
      callRule rules ((input.length - position + 1) * n) i (Cursor.ofPosition input later) ≠
        .exhausted := by
    intro i later hle hlater
    have hheight := h.height_lt i
    have hmul : (input.length - later) * n ≤ (input.length - position) * n :=
      Nat.mul_le_mul_right n (by omega)
    refine callRule_ne_exhausted h i hlater ?_
    rw [Nat.add_mul, Nat.one_mul]
    omega
  rw [Parser.run, Parser.runAt, Cursor.size_ofPosition hposition]
  exact runWith_ne_exhausted p hposition (fun i later hlt => hcall i later (Nat.le_of_lt hlt))
    fun i _ => hcall i position (Nat.le_refl _) hposition

end Ends

end GrammarOutline.Parsing
