import GrammarOutline.Parsing.Run
import Mathlib.Tactic.Common

/-!
# What parsers accept and refuse

A parser accepts a value when it succeeds with it, whatever the hint, and it refuses when it fails
without being committed. The hints and positions of failures play no part in what is accepted.
-/
namespace GrammarOutline.Parsing

namespace Cursor

variable {σ : Type} {c : Cursor σ}

theorem advance_advance (c : Cursor σ) (i j : Nat) :
    (c.advance i).advance j = c.advance (i + j) := by
  ext
  · simp only [advance]
    omega
  · simp only [advance, List.drop_drop]
  · rfl

theorem size_advance_lt {count : Nat} (hcount : 0 < count) (hle : count ≤ c.rest.length) :
    (c.advance count).size < c.size := by
  have hleft := c.left_eq
  simp only [size, advance]
  omega

theorem rest_advance {front rest : List σ} (h : c.rest = front ++ rest) :
    (c.advance front.length).rest = rest := by
  simp [advance, h]

theorem rest_advance_one {s : σ} {rest : List σ} (h : c.rest = s :: rest) :
    (c.advance 1).rest = rest := by
  simp [advance, h]

/-- A cursor that does not lie beyond the end has no place to come back from. -/
theorem settle_of_beyond (h : c.beyond = 0) (settles : Bool) :
    (if settles then c.settle else c) = c := by
  split
  · ext
    · rfl
    · rfl
    · exact h.symm
  · rfl

end Cursor

theorem Failure.position_merge (f g : Failure) :
    (f.merge g).position = max f.position g.position := by
  rw [merge]
  split_ifs with hfurther hkept
  · omega
  · rw [Bool.or_eq_true, decide_eq_true_eq] at hkept
    omega
  · dsimp only
    omega

theorem Failure.committed_merge {f g : Failure} (hf : f.committed = false)
    (hg : g.committed = false) : (f.merge g).committed = false := by
  unfold merge
  split
  · exact hg
  · split
    · exact hf
    · simp [hf, hg]

variable {σ α β : Type} {n : Nat} {τ : Fin n → Type}

/-- The parser succeeds with a value. -/
def Accepts (call : (i : Fin n) → Cursor σ → Reply σ (τ i)) (p : Parser σ τ α) (c : Cursor σ)
    (value : α) (next : Cursor σ) : Prop :=
  ∃ hint, p.runWith call c = .success value next hint

/-- The parser fails without being committed. -/
def Refuses (call : (i : Fin n) → Cursor σ → Reply σ (τ i)) (p : Parser σ τ α)
    (c : Cursor σ) : Prop :=
  ∃ f, p.runWith call c = .failure f ∧ f.committed = false

section Combinators

variable {call : (i : Fin n) → Cursor σ → Reply σ (τ i)} {c mid next : Cursor σ}

/-- A scanner that takes symbols, where it has no place beyond the end to come back from. -/
theorem accepts_scan {s : Scanner σ α} {value : α} {count : Nat}
    (h : s.read c.rest = .taken value count) (hbeyond : c.beyond = 0) :
    Accepts call (.scan s) c value (c.advance count) := by
  refine ⟨none, ?_⟩
  rw [Parser.runWith, Scanner.run, h]
  dsimp only
  rw [Cursor.settle_of_beyond hbeyond]

theorem exists_of_accepts_scan {s : Scanner σ α} {value : α}
    (h : Accepts call (.scan s) c value next) :
    ∃ count, s.read c.rest = .taken value count ∧ next.rest = c.rest.drop count := by
  obtain ⟨hint, h⟩ := h
  rw [Parser.runWith, Scanner.run] at h
  cases hread : s.read c.rest with
  | taken v count =>
    rw [hread] at h
    obtain ⟨rfl, rfl, -⟩ := Reply.success.inj h
    refine ⟨count, rfl, ?_⟩
    split <;> rfl
  | refused expected =>
    rw [hread] at h
    exact absurd h (by simp)
  | broken expected after excerpt =>
    rw [hread] at h
    exact absurd h (by simp)

theorem refuses_scan {s : Scanner σ α} (expected : String) (h : s.read c.rest = .refused expected) :
    Refuses call (.scan s) c :=
  ⟨⟨expected, c.position, false, none⟩, by rw [Parser.runWith, Scanner.run, h], rfl⟩

theorem accepts_endOfInput (h : c.rest = []) (hbeyond : c.beyond = 0) :
    Accepts call .endOfInput c () c := by
  have hread : Scanner.endOfInput.read c.rest = .taken () 0 := by rw [h]; rfl
  have haccepts : Accepts call .endOfInput c () (c.advance 0) := accepts_scan hread hbeyond
  rwa [Cursor.advance_zero] at haccepts

theorem rest_of_accepts_endOfInput (h : Accepts call .endOfInput c () next) : c.rest = [] := by
  obtain ⟨count, hread, -⟩ := exists_of_accepts_scan h
  cases hrest : c.rest with
  | nil => rfl
  | cons s rest =>
    rw [hrest] at hread
    exact absurd hread (by simp [Scanner.endOfInput])

section Lexemes

variable {split : List σ → Option (List σ × List σ)}
  {split_append : ∀ input front rest, split input = some (front, rest) → front ++ rest = input}
  {front rest : List σ} {expected : String}

theorem accepts_lexeme (h : split c.rest = some (front, rest)) (hbeyond : c.beyond = 0) :
    Accepts call (.scan (.lexeme split split_append expected)) c front (c.advance front.length) :=
  accepts_scan (by simp [Scanner.lexeme, h]) hbeyond

theorem split_of_accepts_lexeme
    (h : Accepts call (.scan (.lexeme split split_append expected)) c front next) :
    split c.rest = some (front, next.rest) := by
  obtain ⟨count, hread, hnext⟩ := exists_of_accepts_scan h
  cases hsplit : split c.rest with
  | none => exact absurd hread (by simp [Scanner.lexeme, hsplit])
  | some taken =>
    simp only [Scanner.lexeme, hsplit] at hread
    obtain ⟨rfl, rfl⟩ := Scan.taken.inj hread
    rw [hnext, ← split_append _ _ _ hsplit, List.drop_left]

theorem refuses_lexeme (h : split c.rest = none) :
    Refuses call (.scan (.lexeme split split_append expected)) c :=
  refuses_scan expected (by simp [Scanner.lexeme, h])

variable [BEq σ] [LawfulBEq σ] {text : List σ}

theorem accepts_literal (h : text <+: c.rest) (hbeyond : c.beyond = 0) :
    Accepts call (.literal text expected) c text (c.advance text.length) :=
  accepts_scan (by simp [Scanner.literal, h]) hbeyond

theorem rest_of_accepts_literal {value : List σ}
    (h : Accepts call (.literal text expected) c value next) :
    value = text ∧ c.rest = text ++ next.rest := by
  obtain ⟨count, hread, hnext⟩ := exists_of_accepts_scan h
  simp only [Scanner.literal] at hread
  split_ifs at hread with hprefix
  obtain ⟨rfl, rfl⟩ := Scan.taken.inj hread
  obtain ⟨rest, hrest⟩ := List.isPrefixOf_iff_prefix.1 hprefix
  rw [hnext, ← hrest, List.drop_left]
  exact ⟨rfl, rfl⟩

theorem refuses_literal (h : ¬text <+: c.rest) : Refuses call (.literal text expected) c :=
  refuses_scan expected (by simp [Scanner.literal, h])

end Lexemes

theorem accepts_symbol {accepts : σ → Bool} {expected : String} {s : σ} {rest : List σ}
    (hrest : c.rest = s :: rest) (hs : accepts s = true) :
    Accepts call (.symbol accepts expected) c s (c.advance 1) := by
  refine ⟨none, ?_⟩
  simp [Parser.symbol, Parser.runWith, Scanner.run, Scanner.symbol, hrest, hs]

theorem rest_of_accepts_symbol {accepts : σ → Bool} {expected : String} {s : σ}
    (h : Accepts call (.symbol accepts expected) c s next) :
    c.rest = s :: next.rest ∧ accepts s = true := by
  obtain ⟨count, hread, hnext⟩ := exists_of_accepts_scan h
  cases hrest : c.rest with
  | nil =>
    rw [hrest] at hread
    exact absurd hread (by simp [Scanner.symbol])
  | cons t rest =>
    rw [hrest] at hread hnext
    simp only [Scanner.symbol] at hread
    split_ifs at hread with hs
    obtain ⟨rfl, rfl⟩ := Scan.taken.inj hread
    exact ⟨by rw [hnext]; rfl, hs⟩

theorem refuses_symbol {accepts : σ → Bool} {expected : String}
    (h : ∀ s ∈ c.rest.head?, accepts s = false) :
    Refuses call (.symbol accepts expected) c := by
  refine refuses_scan expected ?_
  cases hrest : c.rest with
  | nil => rfl
  | cons s rest =>
    have hs : accepts s = false := h s (by rw [hrest]; rfl)
    simp [Scanner.symbol, hs]

theorem accepts_map_iff {f : α → β} {p : Parser σ τ α} {value : β} :
    Accepts call (.map f p) c value next ↔ ∃ v, f v = value ∧ Accepts call p c v next := by
  simp only [Accepts, Parser.runWith]
  cases p.runWith call c with
  | success v next' hint => simp
  | failure g => simp
  | exhausted => simp

theorem refuses_map {f : α → β} {p : Parser σ τ α} (h : Refuses call p c) :
    Refuses call (.map f p) c := by
  obtain ⟨g, hg, hfree⟩ := h
  exact ⟨g, by rw [Parser.runWith, hg], hfree⟩

theorem accepts_both_iff {p : Parser σ τ α} {q : Parser σ τ β} {value : α × β} :
    Accepts call (.both p q) c value next ↔
      ∃ mid, Accepts call p c value.1 mid ∧ Accepts call q mid value.2 next := by
  constructor
  · rintro ⟨hint, h⟩
    rw [Parser.runWith] at h
    cases hp : p.runWith call c with
    | success v mid hint =>
      rw [hp] at h
      dsimp only at h
      cases hq : q.runWith call mid with
      | success w last hint' =>
        rw [hq] at h
        obtain ⟨rfl, rfl, -⟩ := Reply.success.inj h
        exact ⟨mid, ⟨hint, hp⟩, hint', hq⟩
      | failure f =>
        rw [hq] at h
        exact absurd h (by simp)
      | exhausted =>
        rw [hq] at h
        exact absurd h (by simp)
    | failure f =>
      rw [hp] at h
      exact absurd h (by simp)
    | exhausted =>
      rw [hp] at h
      exact absurd h (by simp)
  · rintro ⟨mid, ⟨hint, hp⟩, ⟨hint', hq⟩⟩
    refine ⟨Failure.join hint hint', ?_⟩
    rw [Parser.runWith, hp]
    dsimp only
    rw [hq]

theorem refuses_both {p : Parser σ τ α} {q : Parser σ τ β} (h : Refuses call p c) :
    Refuses call (.both p q) c := by
  obtain ⟨g, hg, hfree⟩ := h
  exact ⟨g, by rw [Parser.runWith, hg], hfree⟩

theorem accepts_either_iff {p q : Parser σ τ α} {value : α} :
    Accepts call (.either p q) c value next ↔
      Accepts call p c value next ∨ Refuses call p c ∧ Accepts call q c value next := by
  constructor
  · rintro ⟨hint, h⟩
    rw [Parser.runWith] at h
    cases hp : p.runWith call c with
    | success v next' hint' =>
      rw [hp] at h
      obtain ⟨rfl, rfl, -⟩ := Reply.success.inj h
      exact .inl ⟨hint', hp⟩
    | exhausted =>
      rw [hp] at h
      exact absurd h (by simp)
    | failure f =>
      rw [hp] at h
      cases hfree : f.committed with
      | true => simp [hfree] at h
      | false =>
        simp only [hfree, Bool.false_eq_true, if_false] at h
        refine .inr ⟨⟨f, hp, hfree⟩, ?_⟩
        cases hq : q.runWith call c with
        | success w next' hint' =>
          rw [hq] at h
          obtain ⟨rfl, rfl, -⟩ := Reply.success.inj h
          exact ⟨hint', hq⟩
        | failure g =>
          rw [hq] at h
          exact absurd h (by simp)
        | exhausted =>
          rw [hq] at h
          exact absurd h (by simp)
  · rintro (hp | ⟨hp, hq⟩)
    · obtain ⟨hint, hp⟩ := hp
      exact ⟨hint, by rw [Parser.runWith, hp]⟩
    · obtain ⟨f, hf, hfree⟩ := hp
      obtain ⟨hint, hq⟩ := hq
      refine ⟨Failure.join (some f) hint, ?_⟩
      rw [Parser.runWith, hf]
      dsimp only
      rw [if_neg (by simp [hfree]), hq]

theorem refuses_either {p q : Parser σ τ α} (hp : Refuses call p c) (hq : Refuses call q c) :
    Refuses call (.either p q) c := by
  obtain ⟨f, hf, hfree⟩ := hp
  obtain ⟨g, hg, hfree'⟩ := hq
  refine ⟨f.merge g, ?_, Failure.committed_merge hfree hfree'⟩
  rw [Parser.runWith, hf]
  dsimp only
  rw [if_neg (by simp [hfree]), hg]
  dsimp only
  rw [if_neg (by simp [hfree'])]

section Choice

variable {first p : Parser σ τ α} {others : List (Parser σ τ α)} {value : α}

theorem accepts_choice_first (h : Accepts call first c value next) :
    Accepts call (.choice first others) c value next := by
  induction others generalizing first with
  | nil => exact h
  | cons q others ih => exact ih (accepts_either_iff.2 (.inl h))

/-- A choice accepts with a later parser when those before it refuse. -/
theorem accepts_choice_later (before : List (Parser σ τ α)) {after : List (Parser σ τ α)}
    (hfirst : Refuses call first c) (hbefore : ∀ q ∈ before, Refuses call q c)
    (hp : Accepts call p c value next) :
    Accepts call (.choice first (before ++ p :: after)) c value next := by
  induction before generalizing first with
  | nil =>
    have hboth : Accepts call (.either first p) c value next :=
      accepts_either_iff.2 (.inr ⟨hfirst, hp⟩)
    exact (accepts_choice_first hboth : Accepts call (.choice (.either first p) after) c value next)
  | cons q before ih =>
    obtain ⟨hq, hbefore⟩ := List.forall_mem_cons.1 hbefore
    have hboth : Refuses call (.either first q) c := refuses_either hfirst hq
    exact ih hboth hbefore

theorem refuses_choice (hfirst : Refuses call first c) (hothers : ∀ q ∈ others, Refuses call q c) :
    Refuses call (.choice first others) c := by
  induction others generalizing first with
  | nil => exact hfirst
  | cons q others ih =>
    obtain ⟨hq, hothers⟩ := List.forall_mem_cons.1 hothers
    exact ih (refuses_either hfirst hq) hothers

theorem exists_of_accepts_choice (h : Accepts call (.choice first others) c value next) :
    ∃ p ∈ first :: others, Accepts call p c value next := by
  induction others generalizing first with
  | nil => exact ⟨first, List.mem_cons_self, h⟩
  | cons q others ih =>
    obtain ⟨p, hp, haccepts⟩ := ih h
    rcases List.mem_cons.1 hp with rfl | hp
    · rcases accepts_either_iff.1 haccepts with haccepts | ⟨-, haccepts⟩
      · exact ⟨first, List.mem_cons_self, haccepts⟩
      · exact ⟨q, List.mem_cons_of_mem _ List.mem_cons_self, haccepts⟩
    · exact ⟨p, List.mem_cons_of_mem _ (List.mem_cons_of_mem _ hp), haccepts⟩

end Choice

theorem accepts_label_iff {p : Parser σ τ α} {expected : String} {value : α} :
    Accepts call (.label p expected) c value next ↔ Accepts call p c value next := by
  simp only [Accepts, Parser.runWith]
  cases p.runWith call c with
  | success v next' hint => simp
  | failure f => simp; split <;> simp
  | exhausted => simp

theorem refuses_label {p : Parser σ τ α} {expected : String} (h : Refuses call p c) :
    Refuses call (.label p expected) c := by
  obtain ⟨f, hf, hfree⟩ := h
  unfold Refuses
  rw [Parser.runWith, hf]
  dsimp only
  split
  · exact ⟨_, rfl, rfl⟩
  · exact ⟨f, rfl, hfree⟩

/-- After symbols that a scanner has taken, the next parser may refuse. -/
theorem refuses_right_of_scan {s : Scanner σ α} {q : Parser σ τ β} {value : α} {count : Nat}
    (hs : s.read c.rest = .taken value count) (hbeyond : c.beyond = 0)
    (hq : Refuses call q (c.advance count)) : Refuses call ((Parser.scan s).right q) c := by
  have hsettle : (if s.settles then c.settle else c) = c :=
    Cursor.settle_of_beyond hbeyond s.settles
  obtain ⟨f, hf, hfree⟩ := hq
  refine refuses_map ⟨f, ?_, hfree⟩
  rw [Parser.runWith, Parser.runWith, Scanner.run, hs]
  dsimp only
  rw [hsettle, hf]
  simp [hfree, Failure.mergeInto]

theorem accepts_commit_iff {p : Parser σ τ α} {value : α} :
    Accepts call (.commit p) c value next ↔ Accepts call p c value next := by
  simp only [Accepts, Parser.runWith]
  cases p.runWith call c with
  | success v next' hint => simp
  | failure f => simp; split <;> simp
  | exhausted => simp

theorem accepts_left {p : Parser σ τ α} {q : Parser σ τ β} {v : α} {w : β}
    (hp : Accepts call p c v mid) (hq : Accepts call q mid w next) :
    Accepts call (p.left q) c v next :=
  accepts_map_iff.2 ⟨(v, w), rfl, accepts_both_iff.2 ⟨mid, hp, hq⟩⟩

theorem exists_of_accepts_left {p : Parser σ τ α} {q : Parser σ τ β} {v : α}
    (h : Accepts call (p.left q) c v next) :
    ∃ mid w, Accepts call p c v mid ∧ Accepts call q mid w next := by
  obtain ⟨⟨v, w⟩, rfl, hboth⟩ := accepts_map_iff.1 h
  obtain ⟨mid, hp, hq⟩ := accepts_both_iff.1 hboth
  exact ⟨mid, w, hp, hq⟩

theorem exists_of_accepts_right {p : Parser σ τ α} {q : Parser σ τ β} {w : β}
    (h : Accepts call (p.right q) c w next) :
    ∃ mid v, Accepts call p c v mid ∧ Accepts call q mid w next := by
  obtain ⟨⟨v, w⟩, rfl, hboth⟩ := accepts_map_iff.1 h
  obtain ⟨mid, hp, hq⟩ := accepts_both_iff.1 hboth
  exact ⟨mid, v, hp, hq⟩

theorem accepts_right {p : Parser σ τ α} {q : Parser σ τ β} {v : α} {w : β}
    (hp : Accepts call p c v mid) (hq : Accepts call q mid w next) :
    Accepts call (p.right q) c w next :=
  accepts_map_iff.2 ⟨(v, w), rfl, accepts_both_iff.2 ⟨mid, hp, hq⟩⟩

end Combinators

section Repetition

/-- What a repetition collects from a cursor does not depend on what it has collected before. -/
theorem exists_repeatFrom {step : Cursor σ → Reply σ α} {c next : Cursor σ}
    {values collected : List α} {hint hint' : Option Failure}
    (h : repeatFrom step c values hint = .success collected next hint') :
    ∃ more, collected = values.reverse ++ more ∧ ∀ values hint, ∃ hint',
      repeatFrom step c values hint = .success (values.reverse ++ more) next hint' := by
  fun_induction repeatFrom step c values hint with
  | case1 c values hint f hf hcommitted => exact absurd h (by simp)
  | case2 c values hint f hf hcommitted =>
    obtain ⟨rfl, rfl, -⟩ := Reply.success.inj h
    refine ⟨[], by simp, fun values hint => ⟨some (Failure.mergeInto hint f), ?_⟩⟩
    rw [repeatFrom, hf]
    simp [hcommitted]
  | case3 => exact absurd h (by simp)
  | case4 c values hint value mid hint₁ hstep hsize ih =>
    obtain ⟨more, rfl, hmore⟩ := ih h
    refine ⟨value :: more, by simp, fun values hint => ?_⟩
    obtain ⟨hint', hrun⟩ := hmore (value :: values) hint₁
    refine ⟨hint', ?_⟩
    rw [repeatFrom, hstep]
    simpa [hsize] using hrun
  | case5 c values hint value mid hint₁ hstep hsize =>
    obtain ⟨rfl, rfl, -⟩ := Reply.success.inj h
    refine ⟨[value], by simp, fun values hint => ⟨hint₁, ?_⟩⟩
    rw [repeatFrom, hstep]
    simp [hsize]

variable {call : (i : Fin n) → Cursor σ → Reply σ (τ i)} {c mid next : Cursor σ} {p : Parser σ τ α}

theorem accepts_many_nil (h : Refuses call p c) : Accepts call (.many p) c [] c := by
  obtain ⟨f, hf, hfree⟩ := h
  refine ⟨some (Failure.mergeInto none f), ?_⟩
  rw [Parser.runWith, repeatFrom, hf]
  simp [hfree]

/-- A repetition goes on after a value that takes something. -/
theorem accepts_many_cons {value : α} {values : List α} (hp : Accepts call p c value mid)
    (hsize : mid.size < c.size) (hmany : Accepts call (.many p) mid values next) :
    Accepts call (.many p) c (value :: values) next := by
  obtain ⟨hint, hp⟩ := hp
  obtain ⟨hint', hmany⟩ := hmany
  obtain ⟨more, rfl, hmore⟩ := exists_repeatFrom hmany
  obtain ⟨hint'', hrun⟩ := hmore [value] hint
  refine ⟨hint'', ?_⟩
  rw [Parser.runWith, repeatFrom, hp]
  simpa [hsize] using hrun

/-- A repetition collects nothing, or it accepts a first value. It goes on after that, or it stops
because the value has taken nothing. -/
theorem exists_of_accepts_many {values : List α} (h : Accepts call (.many p) c values next) :
    values = [] ∧ next = c ∨ ∃ first mid, Accepts call p c first mid ∧
      (values = [first] ∧ next = mid ∨
        ∃ more, values = first :: more ∧ Accepts call (.many p) mid more next) := by
  obtain ⟨hint, h⟩ := h
  rw [Parser.runWith, repeatFrom] at h
  cases hstep : p.runWith call c with
  | exhausted =>
    rw [hstep] at h
    exact absurd h (by simp)
  | failure f =>
    rw [hstep] at h
    dsimp only at h
    split_ifs at h
    obtain ⟨rfl, rfl, -⟩ := Reply.success.inj h
    exact .inl ⟨rfl, rfl⟩
  | success first mid hint₁ =>
    rw [hstep] at h
    dsimp only at h
    refine .inr ⟨first, mid, ⟨hint₁, hstep⟩, ?_⟩
    split_ifs at h with hless
    · obtain ⟨more, rfl, hmore⟩ := exists_repeatFrom h
      obtain ⟨hint₂, hrun⟩ := hmore [] none
      exact .inr ⟨more, rfl, hint₂, by simpa [Parser.runWith] using hrun⟩
    · obtain ⟨rfl, rfl, -⟩ := Reply.success.inj h
      exact .inl ⟨rfl, rfl⟩

theorem eq_of_accepts_many_nil (h : Accepts call (.many p) c [] next) : next = c := by
  obtain ⟨-, rfl⟩ | ⟨first, mid, -, ⟨hvalues, -⟩ | ⟨more, hvalues, -⟩⟩ := exists_of_accepts_many h
  · rfl
  · exact absurd hvalues (by simp)
  · exact absurd hvalues (by simp)

theorem exists_of_accepts_many_cons {value : α} {values : List α}
    (h : Accepts call (.many p) c (value :: values) next) :
    ∃ mid, Accepts call p c value mid ∧
      (Accepts call (.many p) mid values next ∨ values = [] ∧ next = mid) := by
  obtain ⟨hvalues, -⟩ | ⟨first, mid, hfirst, ⟨hvalues, rfl⟩ | ⟨more, hvalues, hmore⟩⟩ :=
    exists_of_accepts_many h
  · exact absurd hvalues (by simp)
  · obtain ⟨rfl, rfl⟩ := List.cons.inj hvalues
    exact ⟨_, hfirst, .inr ⟨rfl, rfl⟩⟩
  · obtain ⟨rfl, rfl⟩ := List.cons.inj hvalues
    exact ⟨mid, hfirst, .inl hmore⟩

/-- What holds at the end of a repetition and is carried back over each of its values holds of all
that it collects. -/
theorem accepts_many_induct {motive : Cursor σ → List α → Prop} {values : List α}
    (h : Accepts call (.many p) c values next) (nil : motive next [])
    (cons : ∀ c mid value values, Accepts call p c value mid → motive mid values →
      motive c (value :: values)) : motive c values := by
  induction values generalizing c with
  | nil => exact eq_of_accepts_many_nil h ▸ nil
  | cons value values ih =>
    obtain ⟨mid, hvalue, hothers⟩ := exists_of_accepts_many_cons h
    rcases hothers with hmany | ⟨rfl, rfl⟩
    · exact cons c mid value values hvalue (ih hmany)
    · exact cons c next value [] hvalue nil

end Repetition

section Lists

variable {call : (i : Fin n) → Cursor σ → Reply σ (τ i)} {c next : Cursor σ}

theorem accepts_sepBy1_iff {p : Parser σ τ α} {delimiter : Parser σ τ β} {values : List α} :
    Accepts call (p.sepBy1 delimiter) c values next ↔
      ∃ v vs mid, v :: vs = values ∧ Accepts call p c v mid ∧
        Accepts call (.many (delimiter.right p)) mid vs next := by
  simp only [Parser.sepBy1, accepts_map_iff, accepts_both_iff]
  constructor
  · rintro ⟨⟨v, vs⟩, hvalues, mid, hp, hmany⟩
    exact ⟨v, vs, mid, hvalues, hp, hmany⟩
  · rintro ⟨v, vs, mid, hvalues, hp, hmany⟩
    exact ⟨(v, vs), hvalues, mid, hp, hmany⟩

end Lists

section Sizes

theorem size_le_of_repeatFrom {step : Cursor σ → Reply σ α} {c next : Cursor σ}
    {values collected : List α} {hint hint' : Option Failure}
    (hstep : ∀ c value next hint, step c = .success value next hint → next.size ≤ c.size)
    (h : repeatFrom step c values hint = .success collected next hint') : next.size ≤ c.size := by
  fun_induction repeatFrom step c values hint with
  | case1 => exact absurd h (by simp)
  | case2 c values hint f hf hcommitted =>
    obtain ⟨-, rfl, -⟩ := Reply.success.inj h
    exact Nat.le_refl _
  | case3 => exact absurd h (by simp)
  | case4 c values hint value mid hint₁ hrun hsize ih =>
    exact Nat.le_trans (ih h) (Nat.le_of_lt hsize)
  | case5 c values hint value mid hint₁ hrun hsize =>
    obtain ⟨-, rfl, -⟩ := Reply.success.inj h
    exact hstep c value mid hint₁ hrun

theorem size_le_of_scanner {s : Scanner σ α} {c next : Cursor σ} {value : α}
    {hint : Option Failure} (h : s.run c = .success value next hint) : next.size ≤ c.size := by
  unfold Scanner.run at h
  split at h
  · obtain ⟨-, rfl, -⟩ := Reply.success.inj h
    split
    · exact Nat.le_trans (Cursor.size_advance_le _ _) (Cursor.size_settle_le _)
    · exact Cursor.size_advance_le _ _
  · exact absurd h (by simp)
  · exact absurd h (by simp)

/-- No parser moves a cursor back, if no rule does. -/
theorem size_le_of_accepts {call : (i : Fin n) → Cursor σ → Reply σ (τ i)}
    (hcall : ∀ i c value next hint, call i c = .success value next hint → next.size ≤ c.size)
    {p : Parser σ τ α} {c next : Cursor σ} {value : α} (h : Accepts call p c value next) :
    next.size ≤ c.size := by
  induction p generalizing c next with
  | scan s =>
    obtain ⟨hint, h⟩ := h
    exact size_le_of_scanner h
  | succeed v =>
    obtain ⟨hint, h⟩ := h
    obtain ⟨-, rfl, -⟩ := Reply.success.inj h
    exact Nat.le_refl _
  | both p q ihp ihq =>
    obtain ⟨mid, hp, hq⟩ := accepts_both_iff.1 h
    exact Nat.le_trans (ihq hq) (ihp hp)
  | either p q ihp ihq =>
    rcases accepts_either_iff.1 h with hp | ⟨-, hq⟩
    · exact ihp hp
    · exact ihq hq
  | map f p ih =>
    obtain ⟨v, -, hp⟩ := accepts_map_iff.1 h
    exact ih hp
  | label p expected ih => exact ih (accepts_label_iff.1 h)
  | commit p ih => exact ih (accepts_commit_iff.1 h)
  | many p ih =>
    obtain ⟨hint, h⟩ := h
    exact size_le_of_repeatFrom (fun c v next hint hrun => ih ⟨hint, hrun⟩) h
  | rule i =>
    obtain ⟨hint, h⟩ := h
    exact hcall i c value next hint h

theorem size_le_of_callRule {rules : (i : Fin n) → Parser σ τ (τ i)} {budget : Nat} :
    ∀ i c value next hint, callRule rules budget i c = .success value next hint →
      next.size ≤ c.size := by
  induction budget with
  | zero => exact fun i c value next hint h => absurd h (by simp [callRule])
  | succ budget ih => exact fun i c value next hint h => size_le_of_accepts ih ⟨hint, h⟩

end Sizes

end GrammarOutline.Parsing
