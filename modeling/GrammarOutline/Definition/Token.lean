import GrammarOutline.Fault
import GrammarOutline.Lexeme

/-!
# Tokens of the definition notation

A text is cut into punctuation, identifiers, literals and classes. Layout between them is dropped,
and the notation joins lines. The last token is the end of the text, or the first place where no
token starts.
-/
namespace GrammarOutline

inductive Token.Kind where
  | punctuation
  | identifier
  | character
  | string
  | charClass
  | finish
  | malformed
  deriving DecidableEq

/-- A lexeme as it is written, and the offset at which it stands. -/
structure Token where
  kind : Token.Kind
  text : String
  offset : Nat
  deriving DecidableEq

namespace Token

/-- The signs of the notation. -/
def punctuation : List Char → Lexeme.Split
  | ':' :: ':' :: '=' :: rest => some ([':', ':', '='], rest)
  | c :: rest => if "|()?*+;".toList.contains c then some ([c], rest) else none
  | [] => none

def ofKind (kind : Kind) (reader : List Char → Lexeme.Split) (text : List Char) :
    Option (Kind × List Char × List Char) :=
  (reader text).map (kind, ·)

/-- The lexeme at the front of a text, with its kind. -/
def lexeme? (text : List Char) : Option (Kind × List Char × List Char) :=
  (ofKind .punctuation punctuation text).or <|
  (ofKind .character (Lexeme.characterLiteral true) text).or <|
  (ofKind .string (Lexeme.stringLiteral true) text).or <|
  (ofKind .charClass (Lexeme.characterClass true) text).or <|
  ofKind .identifier Lexeme.identifier text

theorem punctuation_cons {c : Char} (hcolon : c ≠ ':') (text : List Char) :
    punctuation (c :: text) = if "|()?*+;".toList.contains c then some ([c], text) else none := by
  simp [punctuation, hcolon]

theorem punctuation_eq_some {text front rest : List Char}
    (h : punctuation text = some (front, rest)) :
    front ++ rest = text ∧ (front = [':', ':', '='] ∨ ∃ c ∈ "|()?*+;".toList, front = [c]) := by
  fun_cases punctuation text with
  | case1 text =>
    obtain ⟨⟩ := h
    exact ⟨rfl, .inl rfl⟩
  | case2 c text hcolon hsign =>
    rw [punctuation.eq_2 c text hcolon, if_pos hsign] at h
    obtain ⟨⟩ := h
    exact ⟨rfl, .inr ⟨c, by simpa using hsign, rfl⟩⟩
  | case3 c text hcolon hsign =>
    rw [punctuation.eq_2 c text hcolon, if_neg hsign] at h
    exact absurd h (by simp)
  | case4 => exact absurd h (by simp [punctuation])

theorem punctuation_proper : Lexeme.Proper punctuation := by
  intro text front rest h
  obtain ⟨rfl, rfl | ⟨c, -, rfl⟩⟩ := punctuation_eq_some h <;> exact ⟨by simp, rfl⟩

theorem ofKind_eq_some {kind k : Kind} {reader : List Char → Lexeme.Split}
    {text front rest : List Char} (h : ofKind kind reader text = some (k, front, rest)) :
    k = kind ∧ reader text = some (front, rest) := by
  simp only [ofKind, Option.map_eq_some_iff, Prod.mk.injEq] at h
  obtain ⟨_, hr, rfl, rfl⟩ := h
  exact ⟨rfl, hr⟩

theorem lexeme?_proper {text : List Char} {kind : Kind} {front rest : List Char}
    (h : lexeme? text = some (kind, front, rest)) : front ≠ [] ∧ front ++ rest = text := by
  simp only [lexeme?, Option.or_eq_some_iff] at h
  rcases h with h | ⟨_, h | ⟨_, h | ⟨_, h | ⟨_, h⟩⟩⟩⟩
  · exact punctuation_proper _ _ _ (ofKind_eq_some h).2
  · exact Lexeme.delimited1_proper _ _ _ _ _ _ (ofKind_eq_some h).2
  · exact Lexeme.delimited_proper _ _ _ _ _ _ (ofKind_eq_some h).2
  · exact Lexeme.delimited1_proper _ _ _ _ _ _ (ofKind_eq_some h).2
  · exact Lexeme.identifier_proper _ _ _ (ofKind_eq_some h).2

theorem length_lt_of_lexeme? {text : List Char} {kind : Kind} {front rest : List Char}
    (h : lexeme? text = some (kind, front, rest)) : rest.length < text.length := by
  obtain ⟨hne, rfl⟩ := lexeme?_proper h
  have := List.length_pos_iff.2 hne
  simp only [List.length_append]
  omega

/-- The tokens of a text that starts at an offset. -/
def scanFrom (offset : Nat) (text : List Char) : List Token :=
  if text.isEmpty then [⟨.finish, "", offset⟩]
  else
    match hl : Lexeme.layoutPiece text with
    | some (front, rest) =>
      have : rest.length < text.length := Lexeme.layoutPiece_proper.length_lt hl
      scanFrom (offset + front.length) rest
    | none =>
      match ht : lexeme? text with
      | some (kind, front, rest) =>
        have : rest.length < text.length := length_lt_of_lexeme? ht
        ⟨kind, String.ofList front, offset⟩ :: scanFrom (offset + front.length) rest
      | none => [⟨.malformed, String.ofList (Text.excerpt text), offset⟩]
termination_by text.length

def scan (source : List Char) : List Token := scanFrom 0 source

/-- The fault of a text whose last token is malformed. -/
def fault? (source : List Char) (tokens : List Token) : Option Fault :=
  match tokens.getLast? with
  | some ⟨.malformed, excerpt, offset⟩ => some (.lexical excerpt (Place.inSource source offset))
  | _ => none

/-- How a token is shown. -/
def description (t : Token) : String :=
  if t.kind = .finish then "end of input" else Text.quote t.text

end Token

end GrammarOutline
