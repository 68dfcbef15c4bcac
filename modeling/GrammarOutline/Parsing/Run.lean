import GrammarOutline.Parsing.Parser

/-!
# Running parsers

A run ends in a reply: a value with the cursor after it, or a failure. A value may come with a hint,
the failure that ended a repetition or that a choice backed out of. A later failure at the same
place is merged with the hint, so that it mentions everything that could have stood there.
-/
namespace GrammarOutline.Parsing

variable {σ α β : Type} {n : Nat} {τ : Fin n → Type}

/-- How a run ends. It is `exhausted` when the rules refer to each other more often than the run may
follow, which only happens when a rule can come back to itself without taking anything. -/
inductive Reply (σ α : Type) where
  | success (value : α) (next : Cursor σ) (hint : Option Failure)
  | failure (f : Failure)
  | exhausted

def Scanner.run (s : Scanner σ α) (c : Cursor σ) : Reply σ α :=
  match s.read c.rest with
  | .taken value count => .success value ((if s.settles then c.settle else c).advance count) none
  | .refused expected => .failure ⟨expected, c.position, false, none⟩
  | .broken expected after excerpt => .failure ⟨expected, c.position + after, true, excerpt⟩

/-- Repeats `step` from a cursor. `values` holds what was read so far in reverse, and `hint` comes
from the last success. A success that takes nothing is the last one. -/
def repeatFrom (step : Cursor σ → Reply σ α) (c : Cursor σ) (values : List α)
    (hint : Option Failure) : Reply σ (List α) :=
  match step c with
  | .failure f =>
    if f.committed then .failure f else .success values.reverse c (some (Failure.mergeInto hint f))
  | .exhausted => .exhausted
  | .success value next hint =>
    if next.size < c.size then repeatFrom step next (value :: values) hint
    else .success (value :: values).reverse next hint
termination_by c.size

/-- Runs a parser at a cursor, where `call` runs the rules. -/
@[simp] def Parser.runWith (call : (i : Fin n) → Cursor σ → Reply σ (τ i)) {α : Type} :
    Parser σ τ α → Cursor σ → Reply σ α
  | .scan scanner, c => scanner.run c
  | .succeed value, c => .success value c none
  | .both p q, c =>
    match p.runWith call c with
    | .failure f => .failure f
    | .exhausted => .exhausted
    | .success v next hint =>
      match q.runWith call next with
      | .failure f => .failure (if f.committed then f else Failure.mergeInto hint f)
      | .exhausted => .exhausted
      | .success w last hint' => .success (v, w) last (Failure.join hint hint')
  | .either p q, c =>
    match p.runWith call c with
    | .success v next hint => .success v next hint
    | .exhausted => .exhausted
    | .failure f =>
      if f.committed then .failure f
      else
        match q.runWith call c with
        | .success w next hint => .success w next (Failure.join (some f) hint)
        | .exhausted => .exhausted
        | .failure g => .failure (if g.committed then g else f.merge g)
  | .map f p, c =>
    match p.runWith call c with
    | .success v next hint => .success (f v) next hint
    | .failure g => .failure g
    | .exhausted => .exhausted
  | .label p expected, c =>
    match p.runWith call c with
    | .failure f =>
      if f.position = c.position && !f.committed then .failure ⟨expected, c.position, false, none⟩
      else .failure f
    | reply => reply
  | .commit p, c =>
    match p.runWith call c with
    | .failure f =>
      if f.committed then .failure f else .failure ⟨f.expected, f.position, true, none⟩
    | reply => reply
  | .many p, c => repeatFrom (p.runWith call) c [] none
  | .rule i, c => call i c

/-- Runs a rule that may follow at most `budget` rules one inside the other. -/
def callRule (rules : (i : Fin n) → Parser σ τ (τ i)) :
    (budget : Nat) → (i : Fin n) → Cursor σ → Reply σ (τ i)
  | 0, _, _ => .exhausted
  | budget + 1, i, c => (rules i).runWith (callRule rules budget) c

/-- Runs a parser at a cursor. Each rule may be entered once for every place that the cursor can
still reach, which is enough unless a rule comes back to itself without taking anything. -/
def Parser.runAt (rules : (i : Fin n) → Parser σ τ (τ i)) (p : Parser σ τ α) (c : Cursor σ) :
    Reply σ α :=
  p.runWith (callRule rules ((c.size + 1) * n)) c

/-- Runs a parser at a position of the input. -/
def Parser.run (rules : (i : Fin n) → Parser σ τ (τ i)) (p : Parser σ τ α) (input : List σ)
    (position : Nat) : Reply σ α :=
  p.runAt rules (Cursor.ofPosition input position)

def noRules {σ : Type} {τ : Fin 0 → Type} (i : Fin 0) : Parser σ τ (τ i) := i.elim0

end GrammarOutline.Parsing
