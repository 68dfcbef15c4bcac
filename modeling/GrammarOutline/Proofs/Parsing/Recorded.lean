import GrammarOutline.Parsing.Run
import Mathlib.Tactic.Common

/-!
# Recorded runs

A recorded run also lists what happens in it: which parsers are started, and with what each of them
ends. It goes through the same replies as the run itself, so its list shows every parser that the
run makes use of.
-/
namespace GrammarOutline.Parsing

/-- What happens in a run: a parser is started at a cursor, or it ends with a reply. -/
inductive Event (σ : Type) {n : Nat} (τ : Fin n → Type) : Type 1 where
  | start {α : Type} (p : Parser σ τ α) (c : Cursor σ)
  | finish {α : Type} (p : Parser σ τ α) (c : Cursor σ) (reply : Reply σ α)

/-- A reply with what has happened before it. -/
structure Recorded (σ : Type) {n : Nat} (τ : Fin n → Type) (α : Type) : Type 1 where
  reply : Reply σ α
  events : List (Event σ τ)

variable {σ α β : Type} {n : Nat} {τ : Fin n → Type}

namespace Recorded

/-- A reply for which no parser is needed. -/
def done (reply : Reply σ α) : Recorded σ τ α := ⟨reply, []⟩

/-- Goes on from a reply. -/
def andThen (r : Recorded σ τ α) (next : Reply σ α → Recorded σ τ β) : Recorded σ τ β where
  reply := (next r.reply).reply
  events := r.events ++ (next r.reply).events

/-- What happens between the start and the end of a parser. -/
def within (p : Parser σ τ α) (c : Cursor σ) (r : Recorded σ τ α) : Recorded σ τ α where
  reply := r.reply
  events := .start p c :: (r.events ++ [.finish p c r.reply])

@[simp] theorem reply_done (reply : Reply σ α) : (done reply : Recorded σ τ α).reply = reply := rfl

@[simp] theorem reply_andThen (r : Recorded σ τ α) (next : Reply σ α → Recorded σ τ β) :
    (r.andThen next).reply = (next r.reply).reply := rfl

@[simp] theorem reply_within (p : Parser σ τ α) (c : Cursor σ) (r : Recorded σ τ α) :
    (r.within p c).reply = r.reply := rfl

end Recorded

/-- Repeats a recorded step as `repeatFrom` repeats a step. -/
def repeatRecorded (step : Cursor σ → Recorded σ τ α) (c : Cursor σ) (values : List α)
    (hint : Option Failure) : Recorded σ τ (List α) :=
  (step c).andThen fun
    | .failure f =>
      .done (if f.committed then .failure f
        else .success values.reverse c (some (Failure.mergeInto hint f)))
    | .exhausted => .done .exhausted
    | .success value next hint =>
      if next.size < c.size then repeatRecorded step next (value :: values) hint
      else .done (.success (value :: values).reverse next hint)
termination_by c.size

/-- Records the run of a parser at a cursor, where `call` records those of the rules. -/
def Parser.recordWith (call : (i : Fin n) → Cursor σ → Recorded σ τ (τ i)) {α : Type} :
    Parser σ τ α → Cursor σ → Recorded σ τ α
  | .scan scanner, c => (Recorded.done (scanner.run c)).within (.scan scanner) c
  | .succeed value, c => (Recorded.done (.success value c none)).within (.succeed value) c
  | .both p q, c =>
    ((p.recordWith call c).andThen fun
      | .failure f => .done (.failure f)
      | .exhausted => .done .exhausted
      | .success v next hint =>
        (q.recordWith call next).andThen fun
          | .failure f => .done (.failure (if f.committed then f else Failure.mergeInto hint f))
          | .exhausted => .done .exhausted
          | .success w last hint' => .done (.success (v, w) last (Failure.join hint hint'))).within
      (.both p q) c
  | .either p q, c =>
    ((p.recordWith call c).andThen fun
      | .success v next hint => .done (.success v next hint)
      | .exhausted => .done .exhausted
      | .failure f =>
        if f.committed then .done (.failure f)
        else
          (q.recordWith call c).andThen fun
            | .success w next hint => .done (.success w next (Failure.join (some f) hint))
            | .exhausted => .done .exhausted
            | .failure g => .done (.failure (if g.committed then g else f.merge g))).within
      (.either p q) c
  | .map f p, c =>
    ((p.recordWith call c).andThen fun
      | .success v next hint => .done (.success (f v) next hint)
      | .failure g => .done (.failure g)
      | .exhausted => .done .exhausted).within (.map f p) c
  | .label p expected, c =>
    ((p.recordWith call c).andThen fun
      | .failure f =>
        .done (if f.position = c.position && !f.committed
          then .failure ⟨expected, c.position, false, none⟩ else .failure f)
      | reply => .done reply).within (.label p expected) c
  | .commit p, c =>
    ((p.recordWith call c).andThen fun
      | .failure f =>
        .done (if f.committed then .failure f else .failure ⟨f.expected, f.position, true, none⟩)
      | reply => .done reply).within (.commit p) c
  | .many p, c => (repeatRecorded (p.recordWith call) c [] none).within (.many p) c
  | .rule i, c => (call i c).within (.rule i) c

/-- Records the run of a rule that may follow at most `budget` rules one inside the other. -/
def recordRule (rules : (i : Fin n) → Parser σ τ (τ i)) :
    (budget : Nat) → (i : Fin n) → Cursor σ → Recorded σ τ (τ i)
  | 0, _, _ => .done .exhausted
  | budget + 1, i, c => (rules i).recordWith (recordRule rules budget) c

/-- Records the run of a parser at a position of the input. -/
def Parser.record (rules : (i : Fin n) → Parser σ τ (τ i)) (p : Parser σ τ α) (input : List σ)
    (position : Nat) : Recorded σ τ α :=
  let c := Cursor.ofPosition input position
  p.recordWith (recordRule rules ((c.size + 1) * n)) c

section Reply

theorem reply_repeatRecorded {step : Cursor σ → Recorded σ τ α} {step' : Cursor σ → Reply σ α}
    (hstep : ∀ c, (step c).reply = step' c) (c : Cursor σ) (values : List α)
    (hint : Option Failure) :
    (repeatRecorded step c values hint).reply = repeatFrom step' c values hint := by
  fun_induction repeatFrom step' c values hint with
  | case1 c values hint f hf hcommitted =>
    rw [repeatRecorded, Recorded.reply_andThen, hstep, hf]
    simp [hcommitted]
  | case2 c values hint f hf hcommitted =>
    rw [repeatRecorded, Recorded.reply_andThen, hstep, hf]
    simp [hcommitted]
  | case3 c values hint hf =>
    rw [repeatRecorded, Recorded.reply_andThen, hstep, hf]
    rfl
  | case4 c values hint value next hint' hf hsize ih =>
    rw [repeatRecorded, Recorded.reply_andThen, hstep, hf]
    simpa [hsize] using ih
  | case5 c values hint value next hint' hf hsize =>
    rw [repeatRecorded, Recorded.reply_andThen, hstep, hf]
    simp [hsize]

/-- A recorded run has the reply of the run. -/
theorem Parser.reply_recordWith {call : (i : Fin n) → Cursor σ → Recorded σ τ (τ i)}
    {call' : (i : Fin n) → Cursor σ → Reply σ (τ i)} (hcall : ∀ i c, (call i c).reply = call' i c)
    (p : Parser σ τ α) (c : Cursor σ) : (p.recordWith call c).reply = p.runWith call' c := by
  induction p generalizing c with
  | scan | succeed => rfl
  | rule i => exact hcall i c
  | many p ih => exact reply_repeatRecorded ih c [] none
  | both p q ihp ihq =>
    rw [recordWith, Recorded.reply_within, Recorded.reply_andThen, ihp, runWith]
    cases p.runWith call' c with
    | failure | exhausted => rfl
    | success v next hint =>
      dsimp only
      rw [Recorded.reply_andThen, ihq]
      cases q.runWith call' next <;> rfl
  | either p q ihp ihq =>
    rw [recordWith, Recorded.reply_within, Recorded.reply_andThen, ihp, runWith]
    cases p.runWith call' c with
    | success | exhausted => rfl
    | failure f =>
      dsimp only
      split
      · rfl
      · rw [Recorded.reply_andThen, ihq]
        cases q.runWith call' c <;> rfl
  | map f p ih | label p expected ih | commit p ih =>
    rw [recordWith, Recorded.reply_within, Recorded.reply_andThen, ih, runWith]
    cases p.runWith call' c <;> rfl

theorem reply_recordRule (rules : (i : Fin n) → Parser σ τ (τ i)) (budget : Nat) (i : Fin n)
    (c : Cursor σ) : (recordRule rules budget i c).reply = callRule rules budget i c := by
  induction budget generalizing i c with
  | zero => rfl
  | succ budget ih => exact (rules i).reply_recordWith ih c

theorem Parser.reply_record (rules : (i : Fin n) → Parser σ τ (τ i)) (p : Parser σ τ α)
    (input : List σ) (position : Nat) :
    (p.record rules input position).reply = p.run rules input position :=
  p.reply_recordWith (reply_recordRule rules _) _

end Reply

end GrammarOutline.Parsing
