import GrammarOutline.Definition.Token
import GrammarOutline.Parsing.Run
import GrammarOutline.Table

/-!
# Reading definitions

A text of definitions is a list of `name ::= body ;`. A body is a choice of sequences of atoms with
marks, and an atom is a name, a literal, a class or a group. Bodies are brought to normal form as
they are read.
-/
namespace GrammarOutline

open Parsing

abbrev Definitions := Table Expr

namespace Definition

/-- Parsers over tokens whose only rule reads a choice. -/
abbrev TokenParser (α : Type) := Parser Token (fun _ : Fin 1 => Expr) α

def sign (text : String) : TokenParser Token :=
  .symbol (fun t => t.kind = .punctuation && t.text = text) (Text.quote text)

def tokenOf (kind : Token.Kind) (expected : String) : TokenParser Token :=
  .symbol (fun t => t.kind = kind) expected

def identifier : TokenParser Token := tokenOf .identifier "identifier"

def terminal : TokenParser Expr :=
  .map (fun t => .term t.text) (Parser.choice (tokenOf .character "character literal")
    [tokenOf .string "string literal", tokenOf .charClass "character class"])

/-- A choice of sequences, as the rule that reads one. -/
def alternation : TokenParser Expr := .rule 0

/-- A choice in parentheses. After the opening one there is no way back. -/
def group : TokenParser Expr :=
  (sign "(").right (.commit (alternation.left (sign ")")))

/-- A name, a terminal or a group. -/
def atom : TokenParser Expr :=
  .label (Parser.choice (.map (fun t => .ref t.text) identifier) [terminal, group]) "atom"

/-- One of the marks. -/
def quantifier : TokenParser Token :=
  .label (Parser.choice (sign "?") [sign "*", sign "+"]) "quantifier"

/-- An atom and its marks, of which the first stands innermost. -/
def quantified : TokenParser Expr :=
  .map (fun (e, marks) => marks.foldl (fun e mark => .quant e mark.text) e)
    (.both atom (.many quantifier))

/-- Atoms with marks, or nothing. -/
def sequence : TokenParser Expr := .map .seq (.many quantified)

/-- The rules: sequences with bars between them. -/
def rules (_ : Fin 1) : TokenParser Expr := .map .alt (sequence.sepBy1 (sign "|"))

/-- A name with its body. After the sign there is no way back. -/
def definition : TokenParser (String × Expr) :=
  .map (fun (name, body) => (name.text, body))
    (.both (.label identifier "definition name")
      (.commit ((sign "::=").right
        (alternation.left (.label (sign ";") "';' after definition")))))

/-- Definitions up to the end of the text. -/
def definitions : TokenParser (List (String × Expr)) :=
  (Parser.many definition).left (tokenOf .finish "end of input")

/-- How deep groups may be nested. -/
def maxDepth : Nat := 32

/-- The first parenthesis that opens a group deeper than `maxDepth`, when `depth` groups are open. A
parenthesis that closes no group is passed over. -/
def tooDeep? (depth : Nat) : List Token → Option Token
  | [] => none
  | t :: tokens =>
    if t.kind = .punctuation && t.text = "(" then
      if maxDepth ≤ depth then some t else tooDeep? (depth + 1) tokens
    else if t.kind = .punctuation && t.text = ")" then tooDeep? (depth - 1) tokens
    else tooDeep? depth tokens

/-- The offset of a position in a list of tokens. Positions beyond the last token belong to it. -/
def offsetAt (tokens : List Token) (position : Int) : Nat :=
  match tokens[min position.toNat (tokens.length - 1)]? with
  | some t => t.offset
  | none => 0

/-- The names and bodies of a text as they are written. -/
def readRaw (source : List Char) : Except Fault (List (String × Expr)) :=
  let tokens := Token.scan source
  match Token.fault? source tokens with
  | some fault => .error fault
  | none =>
    match tooDeep? 0 tokens with
    | some t => .error (.unexpected ("at most " ++ toString maxDepth ++ " nested groups")
        (Place.inSource source t.offset))
    | none =>
      match definitions.run rules tokens 0 with
      | .success raw _ _ => .ok raw
      | .failure f =>
        .error (.unexpected f.expected (Place.inSource source (offsetAt tokens f.position)))
      | .exhausted => .error (.unexpected "a group that ends" (Place.inSource source 0))

/-- Adds definitions to a table, each in normal form. The first fault in order is reported: a name
that is there already, or a body without normal form. -/
def addAll (defs : Definitions) : List (String × Expr) → Except Fault Definitions
  | [] => .ok defs
  | (name, body) :: rest =>
    if defs.contains name then .error (.duplicate name)
    else
      match body.normalize with
      | .error marks => .error (.doubleQuantification marks)
      | .ok normal => addAll (defs.insert name normal) rest

end Definition

def Definitions.read (source : List Char) : Except Fault Definitions :=
  (Definition.readRaw source).bind (Definition.addAll Table.empty)

def Definitions.toList (defs : Definitions) : List Definition :=
  defs.entries.map fun entry => ⟨entry.1, entry.2⟩

end GrammarOutline
