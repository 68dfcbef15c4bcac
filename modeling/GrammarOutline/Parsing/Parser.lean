import GrammarOutline.Parsing.Cursor

/-!
# Parsers

A parser is an expression: scanners joined by sequence, ordered choice and repetition, with labels,
commit points and references to rules. `Parsing/Run` says what such an expression does.
-/
namespace GrammarOutline.Parsing

/-- Parsers over symbols `σ` with rules that are numbered below `n`. Rule `i` reads a value of the
type `τ i`, so a grammar whose rules refer to each other is a finite expression for every rule. -/
inductive Parser (σ : Type) {n : Nat} (τ : Fin n → Type) : Type → Type 1 where
  /-- Reads with a scanner. -/
  | scan {α : Type} (scanner : Scanner σ α) : Parser σ τ α
  /-- Takes nothing. -/
  | succeed {α : Type} (value : α) : Parser σ τ α
  /-- One parser after the other. -/
  | both {α β : Type} (first : Parser σ τ α) (second : Parser σ τ β) : Parser σ τ (α × β)
  /-- The second parser where the first one fails without being committed. -/
  | either {α : Type} (first second : Parser σ τ α) : Parser σ τ α
  /-- Changes the value. -/
  | map {α β : Type} (f : α → β) (p : Parser σ τ α) : Parser σ τ β
  /-- Names what is expected when the parser fails where it started and is not committed. -/
  | label {α : Type} (p : Parser σ τ α) (expected : String) : Parser σ τ α
  /-- Makes every failure committed. -/
  | commit {α : Type} (p : Parser σ τ α) : Parser σ τ α
  /-- Repeats until the parser fails without being committed or takes nothing. -/
  | many {α : Type} (p : Parser σ τ α) : Parser σ τ (List α)
  /-- A rule. -/
  | rule (i : Fin n) : Parser σ τ (τ i)

namespace Parser

variable {σ α β : Type} {n : Nat} {τ : Fin n → Type}

/-- What a parser is called. -/
def name {α : Type} : Parser σ τ α → String
  | .scan scanner => scanner.name
  | .succeed _ => "succeed"
  | .both p q => p.name ++ " " ++ q.name
  | .either p q => p.name ++ " | " ++ q.name
  | .map _ p => p.name
  | .label _ expected => expected
  | .commit p => p.name
  | .many p => p.name ++ "*"
  | .rule _ => "lazy"

/-- How a parser is shown. -/
def description (p : Parser σ τ α) : String := "<Parser " ++ p.name ++ ">"

def left (p : Parser σ τ α) (q : Parser σ τ β) : Parser σ τ α := .map Prod.fst (.both p q)

def right (p : Parser σ τ α) (q : Parser σ τ β) : Parser σ τ β := .map Prod.snd (.both p q)

def many1 (p : Parser σ τ α) : Parser σ τ (List α) :=
  .map (fun values => values.1 :: values.2) (.both p (.many p))

/-- A parser, or `default` where it fails without being committed. -/
def optional (p : Parser σ τ α) (default : α) : Parser σ τ α := .either p (.succeed default)

def sepBy1 (p : Parser σ τ α) (delimiter : Parser σ τ β) : Parser σ τ (List α) :=
  .map (fun values => values.1 :: values.2) (.both p (.many (right delimiter p)))

/-- Ordered choice between a parser and further ones. -/
def choice (p : Parser σ τ α) (others : List (Parser σ τ α)) : Parser σ τ α :=
  others.foldl .either p

def symbol (accepts : σ → Bool) (expected : String) : Parser σ τ σ :=
  .scan (.symbol accepts expected)

def literal [BEq σ] (text : List σ) (expected : String) : Parser σ τ (List σ) :=
  .scan (.literal text expected)

/-- What a literal expects: what is given, or else the literal itself in quotes. -/
def literalExpectation (given quoted : String) : String := if given.isEmpty then quoted else given

def endOfInput : Parser σ τ Unit := .scan .endOfInput

end Parser

end GrammarOutline.Parsing
