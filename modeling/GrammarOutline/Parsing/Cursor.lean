import GrammarOutline.Parsing.Failure

/-!
# Cursors and the primitives that read at them

A cursor is a place in a list of symbols together with the symbols that are left. It may also lie
beyond the end, where nothing is left. A scanner looks at the symbols that are left and says how
many of them it takes.
-/
namespace GrammarOutline.Parsing

variable {σ α : Type}

/-- A place in the input: the symbols before it are counted, those after it are at hand, and `left`
is their number. A cursor lies beyond the end by `beyond` places. -/
structure Cursor (σ : Type) where
  offset : Nat
  rest : List σ
  beyond : Nat
  left : Nat
  left_eq : left = rest.length
  deriving DecidableEq

namespace Cursor

@[ext] theorem ext {c d : Cursor σ} (hoffset : c.offset = d.offset) (hrest : c.rest = d.rest)
    (hbeyond : c.beyond = d.beyond) : c = d := by
  obtain ⟨_, _, _, _, hc⟩ := c
  obtain ⟨_, _, _, _, hd⟩ := d
  simp only at hoffset hrest hbeyond
  subst hoffset hrest hbeyond hc hd
  rfl

def ofPosition (input : List σ) (position : Nat) : Cursor σ where
  offset := min position input.length
  rest := input.drop position
  beyond := position - input.length
  left := input.length - position
  left_eq := List.length_drop.symm

def position (c : Cursor σ) : Nat := c.offset + c.beyond

/-- How far a cursor can still move. -/
def size (c : Cursor σ) : Nat := c.left + c.beyond

/-- The cursor after the next `count` symbols. -/
def advance (c : Cursor σ) (count : Nat) : Cursor σ where
  offset := c.offset + count
  rest := c.rest.drop count
  beyond := c.beyond
  left := c.left - count
  left_eq := by rw [c.left_eq, List.length_drop]

/-- Puts a cursor that lies beyond the end back to the end. -/
def settle (c : Cursor σ) : Cursor σ := { c with beyond := 0 }

@[simp] theorem advance_zero (c : Cursor σ) : c.advance 0 = c := by
  ext <;> simp [advance]

theorem size_advance_le (c : Cursor σ) (count : Nat) : (c.advance count).size ≤ c.size := by
  simp only [size, advance]
  omega

theorem size_settle_le (c : Cursor σ) : c.settle.size ≤ c.size := by
  simp only [size, settle]
  omega

end Cursor

/-- What a scanner makes of the symbols that are left. -/
inductive Scan (α : Type) where
  /-- The next `count` symbols are taken. -/
  | taken (value : α) (count : Nat)
  /-- Something else was expected. -/
  | refused (expected : String)
  /-- Something else was expected `after` symbols ahead, and there is no way back. -/
  | broken (expected : String) (after : Nat) (excerpt : Option String)

/-- How many symbols a scan has looked over. -/
def Scan.reach : Scan α → Nat
  | .taken _ count => count
  | .refused _ => 0
  | .broken _ after _ => after

/-- A primitive that reads symbols and never looks past the last one. One that `settles` puts a
cursor that lies beyond the end back to the end when it succeeds. -/
structure Scanner (σ α : Type) where
  name : String
  read : List σ → Scan α
  settles : Bool := false
  reach_le : ∀ input, (read input).reach ≤ input.length

namespace Scanner

/-- Takes one symbol for which `accepts` holds. -/
def symbol (accepts : σ → Bool) (expected : String) : Scanner σ σ where
  name := expected
  read
    | s :: _ => if accepts s then .taken s 1 else .refused expected
    | [] => .refused expected
  reach_le input := by
    cases input with
    | nil => simp [Scan.reach]
    | cons s rest => simp only; split <;> simp [Scan.reach]

def literal [BEq σ] (text : List σ) (expected : String) : Scanner σ (List σ) where
  name := expected
  read input := if text.isPrefixOf input then .taken text text.length else .refused expected
  reach_le input := by
    by_cases h : text.isPrefixOf input = true
    · rw [if_pos h]
      induction text generalizing input with
      | nil => simp [Scan.reach]
      | cons s text ih =>
        cases input with
        | nil => simp at h
        | cons t input =>
          simp only [List.isPrefixOf_cons_cons, Bool.and_eq_true] at h
          have := ih input h.2
          simp only [Scan.reach, List.length_cons] at *
          omega
    · rw [if_neg h]
      simp [Scan.reach]

/-- Takes what a reader splits off the front. -/
def lexeme (split : List σ → Option (List σ × List σ))
    (split_append : ∀ input front rest, split input = some (front, rest) → front ++ rest = input)
    (expected : String) : Scanner σ (List σ) where
  name := expected
  settles := true
  read input :=
    match split input with
    | some (front, _) => .taken front front.length
    | none => .refused expected
  reach_le input := by
    cases h : split input with
    | none => simp [Scan.reach]
    | some taken =>
      have := split_append input taken.1 taken.2 h
      simp only [Scan.reach, ← this, List.length_append]
      omega

/-- Splits off the symbols at the front for which `accepts` holds, of which there have to be some
when `needed` is set. -/
def spanOf (accepts : σ → Bool) (needed : Bool) (input : List σ) : Option (List σ × List σ) :=
  if needed && (input.takeWhile accepts).isEmpty then none
  else some (input.takeWhile accepts, input.dropWhile accepts)

theorem spanOf_append (accepts : σ → Bool) (needed : Bool) (input front rest : List σ)
    (h : spanOf accepts needed input = some (front, rest)) : front ++ rest = input := by
  simp only [spanOf] at h
  split at h
  · exact absurd h (by simp)
  · simp only [Option.some.injEq, Prod.mk.injEq] at h
    obtain ⟨rfl, rfl⟩ := h
    exact List.takeWhile_append_dropWhile

/-- Takes the symbols at the front for which `accepts` holds, as many as there are. -/
def span (accepts : σ → Bool) (needed : Bool) (expected : String) : Scanner σ (List σ) :=
  .lexeme (spanOf accepts needed) (spanOf_append accepts needed) expected

/-- Succeeds where nothing is left. -/
def endOfInput : Scanner σ Unit where
  name := "end of input"
  read
    | [] => .taken () 0
    | _ :: _ => .refused "end of input"
  reach_le input := by cases input <;> simp [Scan.reach]

end Scanner

end GrammarOutline.Parsing
