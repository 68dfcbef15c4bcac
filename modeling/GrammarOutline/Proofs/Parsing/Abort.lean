import GrammarOutline.Proofs.Parsing.Recorded
import GrammarOutline.Proofs.Parsing.Replies

/-!
# Committed failures

A committed failure is the last thing that a run comes to. No parser is started after it, and all
parsers that are under way end with the very same failure. A failure about characters that belong to
no symbol is committed wherever it comes up, so the first one of a text is the fault that is
reported.
-/
namespace GrammarOutline.Parsing

variable {σ α β : Type} {n : Nat} {τ : Fin n → Type} {rules : (i : Fin n) → Parser σ τ (τ i)}

def Reply.failure? : Reply σ α → Option Failure
  | .failure f => some f
  | .success _ _ _ | .exhausted => none

theorem Reply.failure?_eq_some_iff {reply : Reply σ α} {f : Failure} :
    reply.failure? = some f ↔ reply = .failure f := by
  cases reply <;> simp [failure?]

namespace Event

/-- The failure with which a parser ends. -/
def failure? : Event σ τ → Option Failure
  | .start _ _ => none
  | .finish _ _ reply => reply.failure?

/-- The failure with which a parser ends, if it is about characters that belong to no symbol. -/
def malformed? (e : Event σ τ) : Option Failure := e.failure?.filter fun f => f.excerpt.isSome

theorem malformed?_eq_some_iff {e : Event σ τ} {f : Failure} :
    e.malformed? = some f ↔ e.failure? = some f ∧ f.excerpt.isSome := by
  rw [malformed?, Option.filter_eq_some_iff]

/-- What a parser ends with is what its run comes to where it was started. -/
def Holds (rules : (i : Fin n) → Parser σ τ (τ i)) : Event σ τ → Prop
  | .start _ _ => True
  | .finish p c reply => ∃ budget, p.runWith (callRule rules budget) c = reply

end Event

section Aborts

/-- All events of a record hold. A committed failure is followed only by parsers that end with it,
and it is the reply. -/
structure Recorded.Aborts (rules : (i : Fin n) → Parser σ τ (τ i)) (r : Recorded σ τ α) : Prop where
  holds : ∀ e ∈ r.events, e.Holds rules
  later : r.events.Pairwise fun e e' =>
    ∀ f, f.committed = true → e.failure? = some f → e'.failure? = some f
  reply_eq : ∀ e ∈ r.events, ∀ f, f.committed = true → e.failure? = some f → r.reply = .failure f

namespace Recorded

theorem aborts_done (reply : Reply σ α) : (done reply).Aborts rules where
  holds _ he := absurd he List.not_mem_nil
  later := .nil
  reply_eq _ he := absurd he List.not_mem_nil

/-- A run that goes on from a reply aborts if it does nothing after a committed failure. -/
theorem Aborts.andThen {r : Recorded σ τ α} {next : Reply σ α → Recorded σ τ β} (h : r.Aborts rules)
    (hnext : ∀ reply, (next reply).Aborts rules)
    (hfailure : ∀ f, f.committed = true → next (.failure f) = done (.failure f)) :
    (r.andThen next).Aborts rules where
  holds e he := by
    rcases List.mem_append.1 he with he | he
    · exact h.holds e he
    · exact (hnext r.reply).holds e he
  later := by
    refine List.pairwise_append.2 ⟨h.later, (hnext r.reply).later,
      fun e he e' he' f hf hfails => ?_⟩
    rw [h.reply_eq e he f hf hfails, hfailure f hf] at he'
    exact absurd he' List.not_mem_nil
  reply_eq e he f hf hfails := by
    rcases List.mem_append.1 he with he | he
    · rw [reply_andThen, h.reply_eq e he f hf hfails, hfailure f hf, reply_done]
    · exact (hnext r.reply).reply_eq e he f hf hfails

/-- The parser that is under way ends with a committed failure as well. -/
theorem Aborts.within {r : Recorded σ τ α} (h : r.Aborts rules) {p : Parser σ τ α} {c : Cursor σ}
    {budget : Nat} (hreply : r.reply = p.runWith (callRule rules budget) c) :
    (r.within p c).Aborts rules where
  holds e he := by
    rcases List.mem_cons.1 he with rfl | he
    · trivial
    rcases List.mem_append.1 he with he | he
    · exact h.holds e he
    · rw [List.mem_singleton.1 he]
      exact ⟨budget, hreply.symm⟩
  later := by
    have hstart : ∀ f : Failure, (Event.start p c).failure? ≠ some f := fun f => by
      simp [Event.failure?]
    refine List.pairwise_cons.2 ⟨fun _ _ f _ hfails => absurd hfails (hstart f), ?_⟩
    refine List.pairwise_append.2
      ⟨h.later, List.pairwise_singleton _ _, fun e he e' he' f hf hfails => ?_⟩
    rw [List.mem_singleton.1 he']
    exact Reply.failure?_eq_some_iff.2 (h.reply_eq e he f hf hfails)
  reply_eq e he f hf hfails := by
    rcases List.mem_cons.1 he with rfl | he
    · simp [Event.failure?] at hfails
    rcases List.mem_append.1 he with he | he
    · exact h.reply_eq e he f hf hfails
    · rw [List.mem_singleton.1 he] at hfails
      exact Reply.failure?_eq_some_iff.1 hfails

theorem aborts_repeatRecorded {step : Cursor σ → Recorded σ τ α}
    (hstep : ∀ c, (step c).Aborts rules) (c : Cursor σ) (values : List α) (hint : Option Failure) :
    (repeatRecorded step c values hint).Aborts rules := by
  induction hsize : c.size using Nat.strong_induction_on generalizing c values hint with
  | _ size ih =>
    rw [repeatRecorded]
    refine (hstep c).andThen (fun reply => ?_) fun f hf => by simp [hf]
    cases reply with
    | failure | exhausted => exact aborts_done _
    | success value next hint =>
      dsimp only
      split_ifs with hless
      · exact ih next.size (hsize ▸ hless) next _ _ rfl
      · exact aborts_done _

end Recorded

/-- Every combinator passes a committed failure on as it is. -/
theorem Parser.aborts_recordWith {budget : Nat}
    (hcall : ∀ i c, (recordRule rules budget i c).Aborts rules) (p : Parser σ τ α) (c : Cursor σ) :
    (p.recordWith (recordRule rules budget) c).Aborts rules := by
  have hreply : ∀ {γ : Type} (q : Parser σ τ γ) (c : Cursor σ),
      (q.recordWith (recordRule rules budget) c).reply = q.runWith (callRule rules budget) c :=
    fun q c => q.reply_recordWith (reply_recordRule rules budget) c
  induction p generalizing c with
  | scan s => exact (Recorded.aborts_done _).within (hreply (.scan s) c)
  | succeed value => exact (Recorded.aborts_done _).within (hreply (.succeed value) c)
  | rule i => exact (hcall i c).within (hreply (.rule i) c)
  | many p ih => exact (Recorded.aborts_repeatRecorded ih c [] none).within (hreply (.many p) c)
  | both p q ihp ihq =>
    refine Recorded.Aborts.within ?_ (hreply (.both p q) c)
    refine (ihp c).andThen (fun reply => ?_) fun f _ => rfl
    cases reply with
    | failure | exhausted => exact Recorded.aborts_done _
    | success v next hint =>
      refine (ihq next).andThen (fun reply => ?_) fun f hf => by simp [hf]
      cases reply <;> exact Recorded.aborts_done _
  | either p q ihp ihq =>
    refine Recorded.Aborts.within ?_ (hreply (.either p q) c)
    refine (ihp c).andThen (fun reply => ?_) fun f hf => by simp [hf]
    cases reply with
    | success | exhausted => exact Recorded.aborts_done _
    | failure f =>
      dsimp only
      split
      · exact Recorded.aborts_done _
      · refine (ihq c).andThen (fun reply => ?_) fun g hg => by simp [hg]
        cases reply <;> exact Recorded.aborts_done _
  | map f p ih =>
    refine Recorded.Aborts.within ?_ (hreply (.map f p) c)
    refine (ih c).andThen (fun reply => ?_) fun f _ => rfl
    cases reply <;> exact Recorded.aborts_done _
  | label p expected ih =>
    refine Recorded.Aborts.within ?_ (hreply (.label p expected) c)
    refine (ih c).andThen (fun reply => ?_) fun f hf => by simp [hf]
    cases reply <;> exact Recorded.aborts_done _
  | commit p ih =>
    refine Recorded.Aborts.within ?_ (hreply (.commit p) c)
    refine (ih c).andThen (fun reply => ?_) fun f hf => by simp [hf]
    cases reply <;> exact Recorded.aborts_done _

theorem aborts_recordRule (rules : (i : Fin n) → Parser σ τ (τ i)) (budget : Nat) (i : Fin n)
    (c : Cursor σ) : (recordRule rules budget i c).Aborts rules := by
  induction budget generalizing i c with
  | zero => exact Recorded.aborts_done _
  | succ budget ih => exact (rules i).aborts_recordWith ih c

theorem Parser.aborts_record (rules : (i : Fin n) → Parser σ τ (τ i)) (p : Parser σ τ α)
    (input : List σ) (position : Nat) : (p.record rules input position).Aborts rules :=
  p.aborts_recordWith (aborts_recordRule rules _) _

/-- The last event of a record tells its reply. -/
theorem Parser.finish_mem_record (rules : (i : Fin n) → Parser σ τ (τ i)) (p : Parser σ τ α)
    (input : List σ) (position : Nat) :
    .finish p (Cursor.ofPosition input position) (p.run rules input position) ∈
      (p.record rules input position).events := by
  have hwithin : ∀ (call : (i : Fin n) → Cursor σ → Recorded σ τ (τ i)) (c : Cursor σ),
      ∃ r, p.recordWith call c = Recorded.within p c r := by
    intro call c
    cases p <;> exact ⟨_, rfl⟩
  obtain ⟨r, hr⟩ := hwithin (recordRule rules (((Cursor.ofPosition input position).size + 1) * n))
    (Cursor.ofPosition input position)
  rw [← Parser.reply_record, Parser.record, hr]
  exact List.mem_cons_of_mem _ (List.mem_append_right _ List.mem_cons_self)

end Aborts

section Excerpts

/-- Only a committed failure has an excerpt. -/
def Failure.Proper (f : Failure) : Prop := f.excerpt.isSome → f.committed = true

theorem Failure.proper_of_none {f : Failure} (h : f.excerpt = none) : f.Proper := by
  simp [Proper, h]

theorem Scanner.keeps_proper (s : Scanner σ α) (c : Cursor σ) :
    (s.run c).Keeps (fun _ => True) Failure.Proper := by
  rw [Scanner.run]
  cases s.read c.rest with
  | taken => exact ⟨trivial, by simp⟩
  | refused => exact Failure.proper_of_none rfl
  | broken => exact fun _ => rfl

/-- Whatever fails with an excerpt fails committed. -/
theorem Parser.proper_runWith (rules : (i : Fin n) → Parser σ τ (τ i)) (budget : Nat)
    (p : Parser σ τ α) (c : Cursor σ) :
    (p.runWith (callRule rules budget) c).Keeps (fun _ => True) Failure.Proper := by
  have hlasting : Lasting (σ := σ) (fun _ => True) Failure.Proper :=
    .of_excerpt _ fun _ => Failure.proper_of_none
  have hscan : ∀ {β : Type} (q : Parser σ τ β), q.AllScanners fun s => ∀ c, True →
      (s.run c).Keeps (fun _ => True) Failure.Proper :=
    fun q => q.allScanners_of_forall fun s c _ => s.keeps_proper c
  exact p.keeps_runWith hlasting
    (fun i _ hc => keeps_callRule hlasting (fun j => hscan (rules j)) budget i hc) (hscan p) trivial

theorem Event.Holds.committed_of_malformed {e : Event σ τ} {f : Failure} (h : e.Holds rules)
    (hmalformed : e.malformed? = some f) : f.committed = true := by
  obtain ⟨hfailure, hexcerpt⟩ := malformed?_eq_some_iff.1 hmalformed
  cases e with
  | start => simp [failure?] at hfailure
  | finish p c reply =>
    obtain ⟨budget, hrun⟩ := h
    have hproper := p.proper_runWith rules budget c
    rw [hrun, Reply.failure?_eq_some_iff.1 hfailure] at hproper
    exact hproper hexcerpt

end Excerpts

/-- A run that ends with the first committed failure that comes up in it. -/
structure Parser.AbortsUnchanged (rules : (i : Fin n) → Parser σ τ (τ i)) (p : Parser σ τ α)
    (input : List σ) (position : Nat) : Prop where
  /-- The record has the reply of the run. -/
  reply_eq : (p.record rules input position).reply = p.run rules input position
  /-- Every parser in the record ends with what its run comes to. -/
  holds : ∀ e ∈ (p.record rules input position).events, e.Holds rules
  /-- Nothing is started after a committed failure, and all parsers end with it as it is. -/
  unchanged : ∀ before e after f, (p.record rules input position).events = before ++ e :: after →
    e.failure? = some f → f.committed = true →
    (∀ e' ∈ after, e'.failure? = some f) ∧ p.run rules input position = .failure f

theorem Parser.abortsUnchanged (rules : (i : Fin n) → Parser σ τ (τ i)) (p : Parser σ τ α)
    (input : List σ) (position : Nat) : p.AbortsUnchanged rules input position := by
  have haborts := p.aborts_record rules input position
  refine ⟨p.reply_record rules input position, haborts.holds, ?_⟩
  intro before e after f hevents hf hcommitted
  have hlater := haborts.later
  rw [hevents] at hlater
  have hafter := (List.pairwise_cons.1 (List.pairwise_append.1 hlater).2.1).1
  refine ⟨fun e' he' => hafter e' he' f hcommitted hf, ?_⟩
  rw [← p.reply_record rules input position]
  exact haborts.reply_eq e (by simp [hevents]) f hcommitted hf

end GrammarOutline.Parsing
