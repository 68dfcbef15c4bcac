import GrammarOutline.Proofs.Parsing.Outcome

/-!
# What parsers mean

A parser means an outcome at every position: a value with the position after it, a failure that
others may back out of, or a failure that cuts them off. Expectations, the positions of failures and
hints play no part in it. A run agrees with what its parser means, as long as it may follow the
rules.
-/
namespace GrammarOutline.Parsing

/-- What comes of a parser at a position. -/
inductive Outcome (α : Type) where
  /-- A value, and the position after what was read for it. -/
  | ok (value : α) (position : Nat)
  /-- A failure that a choice or a repetition backs out of. -/
  | fail
  /-- A failure that nothing backs out of. -/
  | cut
  deriving DecidableEq

def Outcome.map {α β : Type} (f : α → β) : Outcome α → Outcome β
  | .ok value position => .ok (f value) position
  | .fail => .fail
  | .cut => .cut

/-- Cuts off every failure. -/
def Outcome.commit {α : Type} : Outcome α → Outcome α
  | .ok value position => .ok value position
  | .fail | .cut => .cut

/-- What comes of a scan at a position. -/
def Scan.outcome {α : Type} (position : Nat) : Scan α → Outcome α
  | .taken value count => .ok value (position + count)
  | .refused _ => .fail
  | .broken _ _ _ => .cut

variable {σ : Type} {n : Nat} {τ : Fin n → Type}

/-- The outcomes of parsers at the positions of an input. -/
inductive Evaluates (rules : (i : Fin n) → Parser σ τ (τ i)) (input : List σ) :
    {α : Type} → Parser σ τ α → (position : Nat) → Outcome α → Prop where
  /-- A scanner reads what is left of the input. -/
  | scan {α : Type} (s : Scanner σ α) (position : Nat) :
      Evaluates rules input (.scan s) position ((s.read (input.drop position)).outcome position)
  | succeed {α : Type} (value : α) (position : Nat) :
      Evaluates rules input (.succeed value) position (.ok value position)
  /-- The second parser goes on where the first one has ended. -/
  | both {α β : Type} {p : Parser σ τ α} {q : Parser σ τ β} {position middle : Nat} {value : α}
      {o : Outcome β} (first : Evaluates rules input p position (.ok value middle))
      (second : Evaluates rules input q middle o) :
      Evaluates rules input (.both p q) position (o.map (value, ·))
  | bothFail {α β : Type} {p : Parser σ τ α} {q : Parser σ τ β} {position : Nat}
      (first : Evaluates rules input p position .fail) :
      Evaluates rules input (.both p q) position .fail
  | bothCut {α β : Type} {p : Parser σ τ α} {q : Parser σ τ β} {position : Nat}
      (first : Evaluates rules input p position .cut) :
      Evaluates rules input (.both p q) position .cut
  | eitherFirst {α : Type} {p q : Parser σ τ α} {position next : Nat} {value : α}
      (first : Evaluates rules input p position (.ok value next)) :
      Evaluates rules input (.either p q) position (.ok value next)
  /-- A choice backs out of what fails. -/
  | eitherSecond {α : Type} {p q : Parser σ τ α} {position : Nat} {o : Outcome α}
      (first : Evaluates rules input p position .fail)
      (second : Evaluates rules input q position o) : Evaluates rules input (.either p q) position o
  /-- A choice does not back out of what is cut off. -/
  | eitherCut {α : Type} {p q : Parser σ τ α} {position : Nat}
      (first : Evaluates rules input p position .cut) :
      Evaluates rules input (.either p q) position .cut
  | map {α β : Type} (f : α → β) {p : Parser σ τ α} {position : Nat} {o : Outcome α}
      (inner : Evaluates rules input p position o) :
      Evaluates rules input (.map f p) position (o.map f)
  | label {α : Type} (expected : String) {p : Parser σ τ α} {position : Nat} {o : Outcome α}
      (inner : Evaluates rules input p position o) :
      Evaluates rules input (.label p expected) position o
  | commit {α : Type} {p : Parser σ τ α} {position : Nat} {o : Outcome α}
      (inner : Evaluates rules input p position o) :
      Evaluates rules input (.commit p) position o.commit
  /-- A repetition stops where its parser fails. -/
  | manyStop {α : Type} {p : Parser σ τ α} {position : Nat}
      (inner : Evaluates rules input p position .fail) :
      Evaluates rules input (.many p) position (.ok [] position)
  | manyCut {α : Type} {p : Parser σ τ α} {position : Nat}
      (inner : Evaluates rules input p position .cut) :
      Evaluates rules input (.many p) position .cut
  /-- A repetition stops after a value that takes nothing. -/
  | manyLast {α : Type} {p : Parser σ τ α} {position : Nat} {value : α}
      (inner : Evaluates rules input p position (.ok value position)) :
      Evaluates rules input (.many p) position (.ok [value] position)
  /-- A repetition goes on after a value that takes something. -/
  | manyMore {α : Type} {p : Parser σ τ α} {position middle : Nat} {value : α}
      {o : Outcome (List α)} (inner : Evaluates rules input p position (.ok value middle))
      (advances : position < middle) (others : Evaluates rules input (.many p) middle o) :
      Evaluates rules input (.many p) position (o.map (value :: ·))
  | rule {i : Fin n} {position : Nat} {o : Outcome (τ i)}
      (inner : Evaluates rules input (rules i) position o) :
      Evaluates rules input (.rule i) position o

/-- A value lies between two positions. -/
def Outcome.Within {α : Type} (first last : Nat) : Outcome α → Prop
  | .ok _ position => first ≤ position ∧ position ≤ last
  | .fail | .cut => True

theorem Outcome.Within.map {α β : Type} {first middle last : Nat} {o : Outcome α} (f : α → β)
    (h : o.Within middle last) (hle : first ≤ middle) : (o.map f).Within first last := by
  cases o with
  | ok value position => exact ⟨Nat.le_trans hle h.1, h.2⟩
  | fail | cut => trivial

/-- No parser moves back, and none moves beyond the end. -/
theorem Evaluates.within {rules : (i : Fin n) → Parser σ τ (τ i)} {input : List σ} {α : Type}
    {p : Parser σ τ α} {position : Nat} {o : Outcome α} (h : Evaluates rules input p position o)
    (hposition : position ≤ input.length) : o.Within position input.length := by
  induction h with
  | scan s position =>
    have hreach := s.reach_le (input.drop position)
    cases hread : s.read (input.drop position) with
    | taken value count =>
      rw [hread, Scan.reach, List.length_drop] at hreach
      exact ⟨Nat.le_add_right _ _, by omega⟩
    | refused | broken => trivial
  | succeed => exact ⟨Nat.le_refl _, hposition⟩
  | both _ _ ihp ihq =>
    obtain ⟨hle, hlast⟩ := ihp hposition
    exact (ihq hlast).map _ hle
  | eitherFirst _ ih => exact ih hposition
  | eitherSecond _ _ _ ih => exact ih hposition
  | map f _ ih => exact (ih hposition).map f (Nat.le_refl _)
  | label _ _ ih => exact ih hposition
  | @commit α p position o _ ih =>
    cases o with
    | ok value next => exact ih hposition
    | fail | cut => trivial
  | manyStop => exact ⟨Nat.le_refl _, hposition⟩
  | manyLast => exact ⟨Nat.le_refl _, hposition⟩
  | manyMore _ advances _ ihp ihq =>
    obtain ⟨hle, hlast⟩ := ihp hposition
    exact (ihq hlast).map _ hle
  | rule _ ih => exact ih hposition
  | bothFail | bothCut | eitherCut | manyCut => trivial

namespace Cursor

variable {input : List σ} {position count : Nat}

theorem position_ofPosition (input : List σ) (position : Nat) :
    (ofPosition input position).position = position := by
  simp only [Cursor.position, ofPosition]
  omega

theorem size_ofPosition (h : position ≤ input.length) :
    (ofPosition input position).size = input.length - position := by
  simp only [size, ofPosition]
  omega

theorem beyond_ofPosition (h : position ≤ input.length) : (ofPosition input position).beyond = 0 :=
  Nat.sub_eq_zero_of_le h

theorem advance_ofPosition (h : position + count ≤ input.length) :
    (ofPosition input position).advance count = ofPosition input (position + count) := by
  ext
  · simp only [advance, ofPosition]
    omega
  · simp only [advance, ofPosition, List.drop_drop]
  · simp only [advance, ofPosition]
    omega

theorem size_lt_iff {position' : Nat} (h : position ≤ input.length)
    (h' : position' ≤ input.length) :
    (ofPosition input position').size < (ofPosition input position).size ↔
      position < position' := by
  rw [size_ofPosition h, size_ofPosition h']
  omega

end Cursor

namespace Failure

/-- A hint that is not committed, or no hint. -/
def IsFree (hint : Option Failure) : Prop := ∀ f ∈ hint, f.committed = false

variable {hint hint' : Option Failure} {f : Failure}

theorem isFree_none : IsFree none := by simp [IsFree]

theorem isFree_some_iff : IsFree (some f) ↔ f.committed = false := by simp [IsFree]

theorem IsFree.committed_mergeInto (h : IsFree hint) (hf : f.committed = false) :
    (mergeInto hint f).committed = false := by
  cases hint with
  | none => exact hf
  | some g => exact committed_merge (isFree_some_iff.1 h) hf

theorem IsFree.join (h : IsFree hint) (h' : IsFree hint') : IsFree (Failure.join hint hint') := by
  cases hint' with
  | none => rwa [join_none_right]
  | some f =>
    rw [join_some_right, isFree_some_iff]
    exact h.committed_mergeInto (isFree_some_iff.1 h')

end Failure

/-- A reply has an outcome, unless it is exhausted. The hint of a success is not committed. -/
inductive Reply.Agrees {α : Type} (input : List σ) : Reply σ α → Outcome α → Prop where
  | ok {value : α} {position : Nat} {hint : Option Failure} (within : position ≤ input.length)
      (free : Failure.IsFree hint) :
      Agrees input (.success value (Cursor.ofPosition input position) hint) (.ok value position)
  | fail {f : Failure} (free : f.committed = false) : Agrees input (.failure f) .fail
  | cut {f : Failure} (committed : f.committed = true) : Agrees input (.failure f) .cut
  | exhausted {o : Outcome α} : Agrees input .exhausted o

theorem Reply.Agrees.unique {α : Type} {input : List σ} {reply : Reply σ α} {o o' : Outcome α}
    (h : reply.Agrees input o) (h' : reply.Agrees input o')
    (hne : reply ≠ .exhausted) : o = o' := by
  have hsuccess : ∀ {value : α} {after : Cursor σ} {hint : Option Failure} {o : Outcome α},
      (Reply.success value after hint).Agrees input o → o = .ok value after.position := by
    intro value after hint o h
    cases h with
    | ok => rw [Cursor.position_ofPosition]
  cases reply with
  | success value after hint => rw [hsuccess h, hsuccess h']
  | exhausted => exact absurd rfl hne
  | failure f =>
    cases h with
    | fail free =>
      cases h' with
      | fail => rfl
      | cut committed => exact absurd committed (by simp [free])
    | cut committed =>
      cases h' with
      | cut => rfl
      | fail free => exact absurd committed (by simp [free])

def Reply.map {α β : Type} (f : α → β) : Reply σ α → Reply σ β
  | .success value next hint => .success (f value) next hint
  | .failure g => .failure g
  | .exhausted => .exhausted

theorem Reply.Agrees.map {α β : Type} {input : List σ} {reply : Reply σ α}
    {o : Outcome α} (f : α → β) (h : reply.Agrees input o) :
    (reply.map f).Agrees input (o.map f) := by
  cases h with
  | ok within free => exact .ok within free
  | fail free => exact .fail free
  | cut committed => exact .cut committed
  | exhausted => exact .exhausted

section Repetition

variable {α : Type} {step : Cursor σ → Reply σ α} {c : Cursor σ} {input : List σ}

/-- What a repetition has collected before comes first. -/
theorem repeatFrom_append (before values : List α) (hint : Option Failure) :
    repeatFrom step c (values ++ before) hint =
      (repeatFrom step c values hint).map (before.reverse ++ ·) := by
  fun_induction repeatFrom step c values hint with
  | case1 c values hint f hf hcommitted =>
    rw [repeatFrom, hf]
    simp [hcommitted, Reply.map]
  | case2 c values hint f hf hcommitted =>
    rw [repeatFrom, hf]
    simp [hcommitted, Reply.map]
  | case3 c values hint hstep =>
    rw [repeatFrom, hstep]
    rfl
  | case4 c values hint value next hint' hstep hsize ih =>
    rw [repeatFrom, hstep]
    dsimp only
    rw [if_pos hsize, ← ih, List.cons_append]
  | case5 c values hint value next hint' hstep hsize =>
    rw [repeatFrom, hstep]
    simp [hsize, Reply.map]

theorem repeatFrom_one (value : α) (hint : Option Failure) :
    repeatFrom step c [value] hint = (repeatFrom step c [] hint).map (value :: ·) :=
  repeatFrom_append [value] [] hint

/-- A hint from before changes no more than the hint of a repetition. -/
theorem Reply.Agrees.repeatFrom {hint : Option Failure} {o : Outcome (List α)}
    (h : (repeatFrom step c [] none).Agrees input o) (hfree : Failure.IsFree hint) :
    (repeatFrom step c [] hint).Agrees input o := by
  rw [Parsing.repeatFrom] at h ⊢
  cases hstep : step c with
  | success value next hint' => rwa [hstep] at h
  | exhausted => rwa [hstep] at h
  | failure f =>
    rw [hstep] at h
    dsimp only at h ⊢
    cases hcommitted : f.committed with
    | true => rwa [hcommitted, if_pos rfl] at h
    | false =>
      rw [hcommitted, if_neg Bool.false_ne_true] at h
      rw [if_neg Bool.false_ne_true]
      cases h with
      | ok within _ =>
        exact .ok within (Failure.isFree_some_iff.2 (hfree.committed_mergeInto hcommitted))

end Repetition

section Agreement

variable {α β : Type} {input : List σ} {position middle next : Nat}
  {call : (i : Fin n) → Cursor σ → Reply σ (τ i)} {p q : Parser σ τ α} {value : α} {o : Outcome α}

/-- What a parser does at a position agrees with an outcome. -/
def AgreesAt (call : (i : Fin n) → Cursor σ → Reply σ (τ i)) (input : List σ) (p : Parser σ τ α)
    (position : Nat) (o : Outcome α) : Prop :=
  (p.runWith call (Cursor.ofPosition input position)).Agrees input o

theorem agreesAt_scan (s : Scanner σ α) (h : position ≤ input.length) :
    AgreesAt call input (.scan s) position ((s.read (input.drop position)).outcome position) := by
  have hrest : (Cursor.ofPosition input position).rest = input.drop position := rfl
  have hreach := s.reach_le (input.drop position)
  rw [AgreesAt, Parser.runWith, Scanner.run, Cursor.settle_of_beyond (Cursor.beyond_ofPosition h),
    hrest]
  cases hread : s.read (input.drop position) with
  | taken value count =>
    rw [hread, Scan.reach, List.length_drop] at hreach
    have hwithin : position + count ≤ input.length := by omega
    dsimp only [Scan.outcome]
    rw [Cursor.advance_ofPosition hwithin]
    exact .ok hwithin Failure.isFree_none
  | refused expected => exact .fail rfl
  | broken expected after excerpt => exact .cut rfl

theorem AgreesAt.both {q : Parser σ τ β} {o : Outcome β}
    (hp : AgreesAt call input p position (.ok value middle)) (hq : AgreesAt call input q middle o) :
    AgreesAt call input (.both p q) position (o.map (value, ·)) := by
  unfold AgreesAt at hp hq ⊢
  rw [Parser.runWith]
  generalize p.runWith call (Cursor.ofPosition input position) = reply at hp
  cases hp with
  | exhausted => exact .exhausted
  | ok _ free =>
    dsimp only
    generalize q.runWith call (Cursor.ofPosition input middle) = reply at hq
    cases hq with
    | ok within free' => exact .ok within (free.join free')
    | fail uncommitted => exact .fail (by simp [uncommitted, free.committed_mergeInto])
    | cut committed => exact .cut (by simp [committed])
    | exhausted => exact .exhausted

theorem AgreesAt.bothFail {q : Parser σ τ β} (hp : AgreesAt call input p position .fail) :
    AgreesAt call input (.both p q) position .fail := by
  unfold AgreesAt at hp ⊢
  rw [Parser.runWith]
  generalize p.runWith call (Cursor.ofPosition input position) = reply at hp
  cases hp with
  | fail uncommitted => exact .fail uncommitted
  | exhausted => exact .exhausted

theorem AgreesAt.bothCut {q : Parser σ τ β} (hp : AgreesAt call input p position .cut) :
    AgreesAt call input (.both p q) position .cut := by
  unfold AgreesAt at hp ⊢
  rw [Parser.runWith]
  generalize p.runWith call (Cursor.ofPosition input position) = reply at hp
  cases hp with
  | cut committed => exact .cut committed
  | exhausted => exact .exhausted

theorem AgreesAt.eitherFirst (hp : AgreesAt call input p position (.ok value next)) :
    AgreesAt call input (.either p q) position (.ok value next) := by
  unfold AgreesAt at hp ⊢
  rw [Parser.runWith]
  generalize p.runWith call (Cursor.ofPosition input position) = reply at hp
  cases hp with
  | ok within free => exact .ok within free
  | exhausted => exact .exhausted

theorem AgreesAt.eitherCut (hp : AgreesAt call input p position .cut) :
    AgreesAt call input (.either p q) position .cut := by
  unfold AgreesAt at hp ⊢
  rw [Parser.runWith]
  generalize p.runWith call (Cursor.ofPosition input position) = reply at hp
  cases hp with
  | exhausted => exact .exhausted
  | cut committed =>
    dsimp only
    rw [if_pos committed]
    exact .cut committed

/-- The failure that a choice backs out of becomes a hint, and is not committed. -/
theorem AgreesAt.eitherSecond (hp : AgreesAt call input p position .fail)
    (hq : AgreesAt call input q position o) : AgreesAt call input (.either p q) position o := by
  unfold AgreesAt at hp hq ⊢
  rw [Parser.runWith]
  generalize p.runWith call (Cursor.ofPosition input position) = reply at hp
  cases hp with
  | exhausted => exact .exhausted
  | @fail f uncommitted =>
    dsimp only
    rw [if_neg (by simp [uncommitted])]
    have hfree : Failure.IsFree (some f) := Failure.isFree_some_iff.2 uncommitted
    generalize q.runWith call (Cursor.ofPosition input position) = reply at hq
    cases hq with
    | ok within free => exact .ok within (hfree.join free)
    | fail uncommitted' =>
      exact .fail (by simp [uncommitted', Failure.committed_merge uncommitted uncommitted'])
    | cut committed => exact .cut (by simp [committed])
    | exhausted => exact .exhausted

theorem AgreesAt.map (f : α → β) (hp : AgreesAt call input p position o) :
    AgreesAt call input (.map f p) position (o.map f) := by
  have hmap : (Parser.map f p).runWith call (Cursor.ofPosition input position) =
      (p.runWith call (Cursor.ofPosition input position)).map f := by
    rw [Parser.runWith]
    cases p.runWith call (Cursor.ofPosition input position) <;> rfl
  rw [AgreesAt, hmap]
  exact Reply.Agrees.map f hp

theorem AgreesAt.label (expected : String) (hp : AgreesAt call input p position o) :
    AgreesAt call input (.label p expected) position o := by
  unfold AgreesAt at hp ⊢
  rw [Parser.runWith]
  generalize p.runWith call (Cursor.ofPosition input position) = reply at hp
  cases hp with
  | ok within free => exact .ok within free
  | exhausted => exact .exhausted
  | fail uncommitted =>
    dsimp only
    split
    · exact .fail rfl
    · exact .fail uncommitted
  | cut committed =>
    dsimp only
    rw [if_neg (by simp [committed])]
    exact .cut committed

theorem AgreesAt.commit (hp : AgreesAt call input p position o) :
    AgreesAt call input (.commit p) position o.commit := by
  unfold AgreesAt at hp ⊢
  rw [Parser.runWith]
  generalize p.runWith call (Cursor.ofPosition input position) = reply at hp
  cases hp with
  | ok within free => exact .ok within free
  | exhausted => exact .exhausted
  | fail uncommitted =>
    dsimp only
    rw [if_neg (by simp [uncommitted])]
    exact .cut rfl
  | cut committed =>
    dsimp only
    rw [if_pos committed]
    exact .cut committed

theorem AgreesAt.manyStop (hposition : position ≤ input.length)
    (hp : AgreesAt call input p position .fail) :
    AgreesAt call input (.many p) position (.ok [] position) := by
  unfold AgreesAt at hp ⊢
  rw [Parser.runWith, repeatFrom]
  generalize p.runWith call (Cursor.ofPosition input position) = reply at hp
  cases hp with
  | exhausted => exact .exhausted
  | fail uncommitted =>
    dsimp only
    rw [if_neg (by simp [uncommitted])]
    exact .ok hposition (Failure.isFree_some_iff.2 uncommitted)

theorem AgreesAt.manyCut (hp : AgreesAt call input p position .cut) :
    AgreesAt call input (.many p) position .cut := by
  unfold AgreesAt at hp ⊢
  rw [Parser.runWith, repeatFrom]
  generalize p.runWith call (Cursor.ofPosition input position) = reply at hp
  cases hp with
  | exhausted => exact .exhausted
  | cut committed =>
    dsimp only
    rw [if_pos committed]
    exact .cut committed

theorem AgreesAt.manyLast (hp : AgreesAt call input p position (.ok value position)) :
    AgreesAt call input (.many p) position (.ok [value] position) := by
  unfold AgreesAt at hp ⊢
  rw [Parser.runWith, repeatFrom]
  generalize p.runWith call (Cursor.ofPosition input position) = reply at hp
  cases hp with
  | exhausted => exact .exhausted
  | ok within free =>
    dsimp only
    rw [if_neg (Nat.lt_irrefl _)]
    exact .ok within free

theorem AgreesAt.manyMore {o : Outcome (List α)}
    (hp : AgreesAt call input p position (.ok value middle)) (hmore : position < middle)
    (hothers : AgreesAt call input (.many p) middle o) :
    AgreesAt call input (.many p) position (o.map (value :: ·)) := by
  unfold AgreesAt at hp hothers ⊢
  rw [Parser.runWith] at hothers
  rw [Parser.runWith, repeatFrom]
  generalize p.runWith call (Cursor.ofPosition input position) = reply at hp
  cases hp with
  | exhausted => exact .exhausted
  | ok within free =>
    dsimp only
    have hposition : position ≤ input.length := Nat.le_trans (Nat.le_of_lt hmore) within
    rw [if_pos ((Cursor.size_lt_iff hposition within).2 hmore), repeatFrom_one]
    exact (hothers.repeatFrom free).map _

end Agreement

/-- A run agrees with what its parser means, however many rules it may follow. -/
theorem Evaluates.agreesAt {rules : (i : Fin n) → Parser σ τ (τ i)} {input : List σ} {α : Type}
    {p : Parser σ τ α} {position : Nat} {o : Outcome α} (h : Evaluates rules input p position o)
    (hposition : position ≤ input.length) (budget : Nat) :
    AgreesAt (callRule rules budget) input p position o := by
  induction h generalizing budget with
  | scan s position => exact agreesAt_scan s hposition
  | succeed => exact .ok hposition Failure.isFree_none
  | both first _ ihp ihq =>
    exact (ihp hposition budget).both (ihq (first.within hposition).2 budget)
  | bothFail _ ih => exact (ih hposition budget).bothFail
  | bothCut _ ih => exact (ih hposition budget).bothCut
  | eitherFirst _ ih => exact (ih hposition budget).eitherFirst
  | eitherSecond _ _ ihp ihq => exact (ihp hposition budget).eitherSecond (ihq hposition budget)
  | eitherCut _ ih => exact (ih hposition budget).eitherCut
  | map f _ ih => exact (ih hposition budget).map f
  | label expected _ ih => exact (ih hposition budget).label expected
  | commit _ ih => exact (ih hposition budget).commit
  | manyStop _ ih => exact (ih hposition budget).manyStop hposition
  | manyCut _ ih => exact (ih hposition budget).manyCut
  | manyLast _ ih => exact (ih hposition budget).manyLast
  | manyMore first advances _ ihp ihq =>
    exact (ihp hposition budget).manyMore advances (ihq (first.within hposition).2 budget)
  | rule _ ih =>
    cases budget with
    | zero => exact .exhausted
    | succ budget => exact ih hposition budget

end GrammarOutline.Parsing
