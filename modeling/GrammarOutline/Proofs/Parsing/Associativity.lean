import GrammarOutline.Proofs.Parsing.Evaluation
import GrammarOutline.Proofs.Parsing.Replies
import Mathlib.Logic.Equiv.Prod

/-!
# Brackets of choices and sequences

Choices of three parsers and sequences of three parsers may be bracketed either way. The failures
and hints on the way are merged in another order then, so what is expected may be worded
differently, but nothing else is.
-/
namespace GrammarOutline.Parsing

variable {σ α β γ : Type} {n : Nat} {τ : Fin n → Type}

section Places

theorem Failure.map_position_join_assoc (hint hint' hint'' : Option Failure) :
    (join (join hint hint') hint'').map position =
      (join hint (join hint' hint'')).map position := by
  cases hint <;> cases hint' <;> cases hint'' <;> simp [join, position_merge, Int.max_assoc]

-- A text that comes up again is left out only where it is listed already.
example :
    let f : Failure := ⟨"a", 0, false, none⟩
    let g : Failure := ⟨"b", 0, false, none⟩
    ((f.merge g).merge f).expected = "a or b" ∧ (f.merge (g.merge f)).expected = "a or b or a" := by
  decide +kernel

/-- Hints are merged into a failure one after the other, or together. -/
theorem Failure.position_mergeInto_assoc (hint hint' : Option Failure) (f : Failure) :
    (mergeInto hint (mergeInto hint' f)).position = (mergeInto (join hint hint') f).position := by
  have hassoc := map_position_join_assoc hint hint' (some f)
  simp only [join_some_right, Option.map_some, Option.some.injEq] at hassoc
  exact hassoc.symm

end Places

namespace Reply

/-- Two replies differ in nothing but what their hints expect, or their failures if these are not
committed. -/
inductive Alike : Reply σ α → Reply σ α → Prop where
  | success {value : α} {next : Cursor σ} {hint hint' : Option Failure}
      (place_eq : hint.map Failure.position = hint'.map Failure.position) :
      Alike (.success value next hint) (.success value next hint')
  | free {f g : Failure} (position_eq : f.position = g.position) (free : f.committed = false)
      (free' : g.committed = false) : Alike (.failure f) (.failure g)
  | committed {f : Failure} (committed : f.committed = true) : Alike (.failure f) (.failure f)
  | exhausted : Alike .exhausted .exhausted

theorem Alike.refl (reply : Reply σ α) : reply.Alike reply := by
  cases reply with
  | success value next hint => exact .success rfl
  | exhausted => exact .exhausted
  | failure f =>
    cases hcommitted : f.committed with
    | true => exact .committed hcommitted
    | false => exact .free rfl hcommitted hcommitted

/-- The reply of what goes on after a hint. The hint is merged into a hint, and into a failure that
is not committed. -/
def after (hint : Option Failure) : Reply σ α → Reply σ α
  | .success value next hint' => .success value next (Failure.join hint hint')
  | .failure f => .failure (if f.committed then f else Failure.mergeInto hint f)
  | .exhausted => .exhausted

variable {hint hint' : Option Failure}

theorem map_after (f : α → β) (reply : Reply σ α) :
    (reply.after hint).map f = (reply.map f).after hint := by
  cases reply <;> rfl

/-- Hints come one after the other, or together. -/
theorem alike_after_after (hfree : Failure.IsFree hint) (hfree' : Failure.IsFree hint')
    (reply : Reply σ α) :
    (reply.after (Failure.join hint hint')).Alike ((reply.after hint').after hint) := by
  cases reply with
  | success value next hint'' => exact .success (Failure.map_position_join_assoc hint hint' hint'')
  | exhausted => exact .exhausted
  | failure f =>
    cases hcommitted : f.committed with
    | true => simpa [after, hcommitted] using .committed hcommitted
    | false =>
      have hone := hfree'.committed_mergeInto hcommitted
      simpa [after, hcommitted, hone]
        using .free (Failure.position_mergeInto_assoc hint hint' f).symm
        ((hfree.join hfree').committed_mergeInto hcommitted) (hfree.committed_mergeInto hone)

/-- The hint of a success is not committed. -/
def LeavesFree (reply : Reply σ α) : Prop :=
  reply.Ensures (fun _ hint => Failure.IsFree hint) fun _ => True

end Reply

section Free

variable {call : (i : Fin n) → Cursor σ → Reply σ (τ i)}

/-- No parser leaves a committed hint, wherever it starts. -/
theorem Parser.leavesFree_runWith (hcall : ∀ i c, (call i c).LeavesFree) (p : Parser σ τ α)
    (c : Cursor σ) : (p.runWith call c).LeavesFree := by
  induction p generalizing c with
  | scan s =>
    rw [runWith, Scanner.run]
    split
    · exact Failure.isFree_none
    · trivial
    · trivial
  | succeed value => exact Failure.isFree_none
  | rule i => exact hcall i c
  | map f p ih => exact ensures_map (ih c)
  | label p expected ih => exact ensures_label (ih c)
  | commit p ih => exact ensures_commit (ih c)
  | both p q ihp ihq =>
    refine ensures_both (Reply.Ensures.mono (ihp c) (fun mid hint hfree => ?_) fun _ _ => trivial)
    exact Reply.Ensures.mono (ihq mid) (fun _ _ hfree' => hfree.join hfree') fun _ _ => trivial
  | either p q ihp ihq =>
    refine ensures_either (Reply.Ensures.mono_failed (ihp c) fun f _ => ?_)
    by_cases hcommitted : f.committed = true
    · rw [if_pos hcommitted]
      trivial
    · rw [if_neg hcommitted]
      have hfree : Failure.IsFree (some f) := Failure.isFree_some_iff.2 (by simpa using hcommitted)
      exact Reply.Ensures.mono (ihq c) (fun _ _ hfree' => hfree.join hfree') fun _ _ => trivial
  | many p ih =>
    refine ensures_repeatFrom (fun _ hint => Failure.IsFree hint) (fun c hint hfree => ?_)
      Failure.isFree_none
    refine Reply.Ensures.mono (ih c) (fun next hint' hfree' => ?_) fun f _ => ?_
    · split_ifs <;> exact hfree'
    · by_cases hcommitted : f.committed = true
      · rw [if_pos hcommitted]
        trivial
      · rw [if_neg hcommitted]
        exact Failure.isFree_some_iff.2 (hfree.committed_mergeInto (by simpa using hcommitted))

theorem leavesFree_callRule (rules : (i : Fin n) → Parser σ τ (τ i)) (budget : Nat) (i : Fin n)
    (c : Cursor σ) : (callRule rules budget i c).LeavesFree := by
  induction budget generalizing i c with
  | zero => trivial
  | succ budget ih => exact (rules i).leavesFree_runWith ih c

end Free

namespace Parser

variable {call : (i : Fin n) → Cursor σ → Reply σ (τ i)} {c mid : Cursor σ} {hint : Option Failure}
  {f : Failure}

section Replies

variable {p : Parser σ τ α} {value : α}

theorem runWith_either_of_free (q : Parser σ τ α) (h : p.runWith call c = .failure f)
    (hfree : f.committed = false) :
    (Parser.either p q).runWith call c = (q.runWith call c).after (some f) := by
  rw [runWith, h]
  dsimp only
  rw [if_neg (by simp [hfree])]
  cases q.runWith call c <;> rfl

/-- A choice is what its first parser is, unless that one can be backed out of. -/
theorem runWith_either_of_not_refuses (q : Parser σ τ α) (h : ¬Refuses call p c) :
    (Parser.either p q).runWith call c = p.runWith call c := by
  rw [runWith]
  cases hp : p.runWith call c with
  | success v next hint => rfl
  | exhausted => rfl
  | failure f =>
    have hcommitted : f.committed = true := by
      rw [← Bool.not_eq_false]
      exact fun hfree => h ⟨f, hp, hfree⟩
    simp [hcommitted]

/-- A choice that can be backed out of has a second parser that can. -/
theorem refuses_of_refuses_either {q : Parser σ τ α} (h : Refuses call (.either p q) c) :
    Refuses call q c := by
  obtain ⟨g, hg, hfree⟩ := h
  by_cases hp : Refuses call p c
  · obtain ⟨f, hpf, hf⟩ := hp
    rw [runWith_either_of_free q hpf hf] at hg
    cases hq : q.runWith call c with
    | success v next hint => simp [hq, Reply.after] at hg
    | exhausted => simp [hq, Reply.after] at hg
    | failure k =>
      refine ⟨k, hq, Bool.eq_false_iff.2 fun hcommitted => ?_⟩
      rw [hq, Reply.after, if_pos hcommitted] at hg
      obtain rfl := Reply.failure.inj hg
      exact absurd hcommitted (by simp [hfree])
  · rw [runWith_either_of_not_refuses q hp] at hg
    exact absurd ⟨g, hg, hfree⟩ hp

theorem runWith_both_of_success (q : Parser σ τ β)
    (h : p.runWith call c = .success value mid hint) :
    (Parser.both p q).runWith call c = ((q.runWith call mid).map (value, ·)).after hint := by
  rw [runWith, h]
  dsimp only
  cases q.runWith call mid <;> rfl

theorem runWith_both_of_failure (q : Parser σ τ β) (h : p.runWith call c = .failure f) :
    (Parser.both p q).runWith call c = .failure f := by
  rw [runWith, h]

theorem runWith_both_of_exhausted (q : Parser σ τ β) (h : p.runWith call c = .exhausted) :
    (Parser.both p q).runWith call c = .exhausted := by
  rw [runWith, h]

end Replies

theorem alike_either_assoc (p q r : Parser σ τ α) (c : Cursor σ) :
    ((Parser.either (.either p q) r).runWith call c).Alike
      ((Parser.either p (.either q r)).runWith call c) := by
  by_cases hp : Refuses call p c
  · obtain ⟨f, hpf, hf⟩ := hp
    have hpq := runWith_either_of_free q hpf hf
    rw [runWith_either_of_free (.either q r) hpf hf]
    by_cases hq : Refuses call q c
    · obtain ⟨g, hqg, hg⟩ := hq
      have hfg : (Parser.either p q).runWith call c = .failure (f.merge g) := by
        rw [hpq, hqg, Reply.after, if_neg (by simp [hg])]
        rfl
      rw [runWith_either_of_free r hfg (Failure.committed_merge hf hg),
        runWith_either_of_free r hqg hg]
      exact Reply.alike_after_after (Failure.isFree_some_iff.2 hf) (Failure.isFree_some_iff.2 hg) _
    · have hnot : ¬Refuses call (.either p q) c := mt refuses_of_refuses_either hq
      rw [runWith_either_of_not_refuses r hnot, hpq, runWith_either_of_not_refuses r hq]
      exact .refl _
  · have hpq := runWith_either_of_not_refuses q hp
    have hnot : ¬Refuses call (.either p q) c := by rwa [Refuses, hpq]
    rw [runWith_either_of_not_refuses r hnot, hpq, runWith_either_of_not_refuses (.either q r) hp]
    exact .refl _

theorem alike_both_assoc (hcall : ∀ i c, (call i c).LeavesFree) (p : Parser σ τ α)
    (q : Parser σ τ β) (r : Parser σ τ γ) (c : Cursor σ) :
    (((Parser.both (.both p q) r).runWith call c).map (Equiv.prodAssoc α β γ)).Alike
      ((Parser.both p (.both q r)).runWith call c) := by
  have hfree := p.leavesFree_runWith hcall c
  cases hp : p.runWith call c with
  | failure f =>
    rw [runWith_both_of_failure r (runWith_both_of_failure q hp),
      runWith_both_of_failure (.both q r) hp]
    exact .refl _
  | exhausted =>
    rw [runWith_both_of_exhausted r (runWith_both_of_exhausted q hp),
      runWith_both_of_exhausted (.both q r) hp]
    exact .exhausted
  | success v mid hint =>
    have hfree' := q.leavesFree_runWith hcall mid
    have hpq := runWith_both_of_success q hp
    rw [runWith_both_of_success (.both q r) hp]
    cases hq : q.runWith call mid with
    | failure f =>
      rw [hq] at hpq
      rw [runWith_both_of_failure r hpq, runWith_both_of_failure r hq]
      exact .refl _
    | exhausted =>
      rw [hq] at hpq
      rw [runWith_both_of_exhausted r hpq, runWith_both_of_exhausted r hq]
      exact .exhausted
    | success w last hint' =>
      rw [hp] at hfree
      rw [hq] at hfree' hpq
      have hvalues : ((r.runWith call last).map ((v, w), ·)).map (Equiv.prodAssoc α β γ) =
          ((r.runWith call last).map (w, ·)).map (v, ·) := by cases r.runWith call last <;> rfl
      rw [runWith_both_of_success r hpq, runWith_both_of_success r hq, Reply.map_after, hvalues,
        Reply.map_after]
      exact Reply.alike_after_after hfree hfree' _

/-- Choice and sequence are associative up to the wording of failures. However three parsers are
bracketed, a run succeeds with the same value at the same place, or fails at the same place and as
committed. Its hints are about the same place, and a committed failure is the same. -/
theorem run_alike_assoc (rules : (i : Fin n) → Parser σ τ (τ i)) (input : List σ) (position : Nat) :
    (∀ p q r : Parser σ τ α, ((Parser.either (.either p q) r).run rules input position).Alike
      ((Parser.either p (.either q r)).run rules input position)) ∧
    ∀ (p : Parser σ τ α) (q : Parser σ τ β) (r : Parser σ τ γ),
      (((Parser.both (.both p q) r).run rules input position).map (Equiv.prodAssoc α β γ)).Alike
        ((Parser.both p (.both q r)).run rules input position) :=
  ⟨fun p q r => alike_either_assoc p q r _,
    fun p q r => alike_both_assoc (leavesFree_callRule rules _) p q r _⟩

end Parser

end GrammarOutline.Parsing
