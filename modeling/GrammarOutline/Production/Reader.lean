import GrammarOutline.Lexeme
import GrammarOutline.Parsing.Run
import GrammarOutline.Production.Grammar
import GrammarOutline.Production.Section

/-!
# Reading productions

A production is a name, a sign, rules with bars between them and a semicolon. Layout may stand
anywhere between lexemes. Action blocks and precedence marks may stand among the elements of a rule
and are dropped. Characters that belong to no lexeme break off the reading at once.
-/
namespace GrammarOutline

open Parsing

namespace Production

/-- Parsers over characters without rules. -/
abbrev TextParser (α : Type) := Parser Char (fun _ : Fin 0 => Unit) α

/-- The excerpt shown where reading breaks off. -/
def excerptOf (text : List Char) : Option String := some (String.ofList (Text.excerpt text))

/-- Layout. A block comment that is never closed breaks off the reading. -/
def skipLayout : Scanner Char (List Char) where
  name := "whitespace"
  read text :=
    let (front, rest) := Lexeme.layout text
    match rest with
    | '/' :: '*' :: _ => .broken "'*/' to close the comment" front.length (excerptOf rest)
    | _ => .taken front front.length
  reach_le text := by
    have h := congrArg List.length (Lexeme.layout_append text)
    simp only [List.length_append] at h
    simp only
    split <;> simp only [Scan.reach] <;> omega

/-- The text after an action block in which `depth` braces are open. Braces between quotes do not
count, and there a backslash takes away the meaning of the next character. -/
def afterAction (depth : Nat) (quote : Option Char) (escaped : Bool) :
    List Char → Option (List Char)
  | [] => none
  | c :: rest =>
    if escaped then afterAction depth quote false rest
    else
      match quote with
      | some q =>
        if c = '\\' then afterAction depth quote true rest
        else afterAction depth (if c = q then none else quote) false rest
      | none =>
        if c = '\'' || c = '"' then afterAction depth (some c) false rest
        else if c = '\x7b' then afterAction (depth + 1) none false rest
        else if c = '\x7d' then
          if depth = 1 then some rest else afterAction (depth - 1) none false rest
        else afterAction depth none false rest

/-- An action block from its opening brace to the one that closes it. -/
def actionBlock : Scanner Char Unit where
  name := "action block"
  read
    | [] => .refused "action block"
    | c :: rest =>
      if c = '\x7b' then
        match afterAction 1 none false rest with
        | some after => .taken () (rest.length + 1 - after.length)
        | none => .broken "'\x7d' to close the action block" 0 none
      else .refused "action block"
  reach_le text := by
    cases text with
    | nil => simp [Scan.reach]
    | cons c rest =>
      simp only
      split
      · split <;> simp only [Scan.reach, List.length_cons] <;> omega
      · simp [Scan.reach]

/-- A quote that starts no literal, which breaks off the reading. -/
def openLiteral : Scanner Char Unit where
  name := "literal"
  read
    | [] => .refused "quote"
    | c :: rest =>
      if c = '\'' || c = '"' then .broken "closing quote of literal" 0 (excerptOf (c :: rest))
      else .refused "quote"
  reach_le text := by
    cases text with
    | nil => simp [Scan.reach]
    | cons c rest => simp only; split <;> simp [Scan.reach]

/-- A character with which no element can start, which breaks off the reading. The signs between
rules and blanks are left to the rest of the notation. -/
def strayCharacter : Scanner Char Unit where
  name := "grammar symbol"
  read
    | [] => .refused "grammar symbol"
    | c :: rest =>
      if Text.isBlank c || "|;:=".toList.contains c then .refused "grammar symbol"
      else .broken "grammar symbol" 0 (excerptOf (c :: rest))
  reach_le text := by
    cases text with
    | nil => simp [Scan.reach]
    | cons c rest => simp only; split <;> simp [Scan.reach]

def afterLayout {α : Type} (p : TextParser α) : TextParser α := (Parser.scan skipLayout).right p

/-- A given text, which is named by itself in quotes. -/
def word (text : String) : TextParser (List Char) := .literal text.toList (Text.quote text)

def identifier : TextParser (List Char) :=
  .scan (.lexeme Lexeme.identifier
    (fun text front rest h => (Lexeme.identifier_proper text front rest h).2) "identifier")

/-- A literal. This notation does not join lines. -/
def quoted : TextParser (List Char) :=
  .scan (.lexeme (Lexeme.literal false)
    (fun text front rest h => (Lexeme.literal_proper false text front rest h).2) "quoted literal")

/-- A precedence mark with its identifier or literal. -/
def precedenceMark : TextParser (List Char) :=
  (word "%prec").right (afterLayout (.either identifier quoted))

/-- What may stand in a rule. An action block and a precedence mark leave no element. -/
def element : TextParser (Option Element) :=
  afterLayout (.label
    (Parser.choice (.map (fun text => some (.literal (String.ofList text))) quoted)
      [.map (fun _ => none) (.scan openLiteral),
       .map (fun _ => none) precedenceMark,
       .map (fun _ => none) (.scan actionBlock),
       .map (fun text => some (.name (String.ofList text))) identifier,
       .map (fun _ => none) (.scan strayCharacter)])
    "grammar symbol")

def rule : TextParser Rule := .map (fun elements => elements.filterMap id) (.many element)

def ruleList : TextParser (List Rule) := rule.sepBy1 (afterLayout (word "|"))

/-- The sign between a name and its rules. -/
def sign : TextParser (List Char) :=
  afterLayout (.label (.either (.either (word "::=") (word ":")) (word "=")) "':', '::=' or '='")

/-- A production. After its name there is no way back. -/
def production : TextParser Production :=
  .map (fun (name, rules) => ⟨String.ofList name, rules⟩)
    (.both (afterLayout (.label identifier "production name"))
      (.commit (sign.right
        (ruleList.left (afterLayout (.label (word ";") "';' after production"))))))

/-- Productions up to the end of the text. -/
def productions : TextParser (List Production) :=
  ((Parser.many production).left (.scan skipLayout)).left .endOfInput

def readRaw (source : List Char) : Except Fault (List Production) :=
  let rules := RulesSection.ofSource source
  let place (position : Int) : Place := ⟨rules.base + position, some source⟩
  match productions.run noRules rules.text 0 with
  | .success raw _ _ => .ok raw
  | .failure f =>
    match f.excerpt with
    | some excerpt => .error (.lexical excerpt (place f.position))
    | none => .error (.unexpected f.expected (place f.position))
  | .exhausted => .error (.unexpected "a rule that ends" (place 0))

end Production

/-- Reads a grammar text. The first production that breaks a rule of grammars is reported. -/
def Grammar.read (source : List Char) : Except Fault Grammar :=
  (Production.readRaw source).bind Grammar.empty.addAll

end GrammarOutline
