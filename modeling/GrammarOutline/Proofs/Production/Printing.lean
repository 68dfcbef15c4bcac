import GrammarOutline.Production.Reader
import GrammarOutline.Proofs.Layout

/-!
# How productions are printed

Productions are printed as a row of lexemes, and a text prints them when it is laid out from such a
row. There are many rows for the same productions: each of three signs may stand after a name, and
action blocks and precedence marks may stand among the elements of a rule and leave no element. No
layout starts like one of these lexemes.
-/
namespace GrammarOutline.Production

open Lexeme

/-- What may stand between two quotes of an action block. A backslash takes the character after
it. -/
inductive InQuotes (quote : Char) : List Char → Prop where
  | nil : InQuotes quote []
  | escape {c : Char} {rest : List Char} (others : InQuotes quote rest) :
      InQuotes quote ('\\' :: c :: rest)
  | plain {c : Char} {rest : List Char} (ne_quote : c ≠ quote) (ne_backslash : c ≠ '\\')
      (others : InQuotes quote rest) : InQuotes quote (c :: rest)

/-- What may stand between the braces of an action block. Braces stand in pairs, apart from those
between quotes. -/
inductive IsActionBody : List Char → Prop where
  | nil : IsActionBody []
  | plain {c : Char} {rest : List Char} (ne_quote : c ≠ '\'' ∧ c ≠ '"')
      (ne_brace : c ≠ '\x7b' ∧ c ≠ '\x7d') (others : IsActionBody rest) : IsActionBody (c :: rest)
  | quoted {quote : Char} {inner rest : List Char} (isQuote : quote = '\'' ∨ quote = '"')
      (inQuotes : InQuotes quote inner) (others : IsActionBody rest) :
      IsActionBody (quote :: (inner ++ quote :: rest))
  | block {inner rest : List Char} (isBody : IsActionBody inner) (others : IsActionBody rest) :
      IsActionBody ('\x7b' :: (inner ++ '\x7d' :: rest))

def IsActionBlock (text : List Char) : Prop :=
  ∃ body, IsActionBody body ∧ text = '\x7b' :: (body ++ ['\x7d'])

def IsDefinitionSign (text : List Char) : Prop :=
  text = ":".toList ∨ text = "::=".toList ∨ text = "=".toList

/-- The lexemes stand for one element of a rule, or for what leaves none. -/
inductive DerivesElement : List (List Char) → Option Element → Prop where
  | name {text : List Char} (isIdentifier : IsIdentifier text) :
      DerivesElement [text] (some (.name (String.ofList text)))
  | literal {text : List Char} (isLiteral : IsLiteral false text) :
      DerivesElement [text] (some (.literal (String.ofList text)))
  | action {text : List Char} (isBlock : IsActionBlock text) : DerivesElement [text] none
  | precedence {text : List Char} (isSymbol : IsIdentifier text ∨ IsLiteral false text) :
      DerivesElement ["%prec".toList, text] none

inductive DerivesRule : List (List Char) → Rule → Prop where
  | nothing : DerivesRule [] []
  | element {lexemes more : List (List Char)} {e : Option Element} {rule : Rule}
      (isElement : DerivesElement lexemes e) (others : DerivesRule more rule) :
      DerivesRule (lexemes ++ more) (e.toList ++ rule)

inductive DerivesRules : List (List Char) → List Rule → Prop where
  | last {lexemes : List (List Char)} {rule : Rule} (isRule : DerivesRule lexemes rule) :
      DerivesRules lexemes [rule]
  | bar {lexemes more : List (List Char)} {rule : Rule} {rules : List Rule}
      (isRule : DerivesRule lexemes rule) (others : DerivesRules more rules) :
      DerivesRules (lexemes ++ "|".toList :: more) (rule :: rules)

/-- The lexemes stand for productions one after the other. -/
inductive DerivesAll : List (List Char) → List Production → Prop where
  | nil : DerivesAll [] []
  | cons {name sign : List Char} {lexemes more : List (List Char)} {rules : List Rule}
      {productions : List Production} (isIdentifier : IsIdentifier name)
      (isSign : IsDefinitionSign sign) (body : DerivesRules lexemes rules)
      (others : DerivesAll more productions) :
      DerivesAll (name :: sign :: (lexemes ++ ";".toList :: more))
        (⟨String.ofList name, rules⟩ :: productions)

section Solid

variable {lexeme : List Char} {lexemes : List (List Char)}

theorem IsActionBlock.isSolid (h : IsActionBlock lexeme) : IsSolid lexeme := by
  obtain ⟨body, -, rfl⟩ := h
  exact isSolid_cons (by decide) (by decide) (by decide) _

theorem IsDefinitionSign.isSolid (h : IsDefinitionSign lexeme) : IsSolid lexeme := by
  rcases h with rfl | rfl | rfl <;> exact isSolid_cons (by decide) (by decide) (by decide) _

/-- The lexemes that occur in rules and between them. -/
def IsRuleLexeme (text : List Char) : Prop :=
  IsIdentifier text ∨ IsLiteral false text ∨ IsActionBlock text ∨ text = "%prec".toList ∨
    text = "|".toList

theorem IsRuleLexeme.isSolid (h : IsRuleLexeme lexeme) : IsSolid lexeme := by
  rcases h with h | h | h | rfl | rfl
  · exact h.isSolid
  · exact h.isSolid
  · exact h.isSolid
  · exact isSolid_cons (by decide) (by decide) (by decide) _
  · exact isSolid_cons (by decide) (by decide) (by decide) _

theorem DerivesElement.isRuleLexeme {e : Option Element} (h : DerivesElement lexemes e) :
    ∀ lexeme ∈ lexemes, IsRuleLexeme lexeme := by
  cases h with
  | name isIdentifier => exact List.forall_mem_singleton.2 (.inl isIdentifier)
  | literal isLiteral => exact List.forall_mem_singleton.2 (.inr (.inl isLiteral))
  | action isBlock => exact List.forall_mem_singleton.2 (.inr (.inr (.inl isBlock)))
  | precedence isSymbol =>
    exact List.forall_mem_cons.2 ⟨.inr (.inr (.inr (.inl rfl))),
      List.forall_mem_singleton.2 (isSymbol.imp_right .inl)⟩

theorem DerivesRule.isRuleLexeme {rule : Rule} (h : DerivesRule lexemes rule) :
    ∀ lexeme ∈ lexemes, IsRuleLexeme lexeme := by
  induction h with
  | nothing => simp
  | element isElement _ ih => exact List.forall_mem_append.2 ⟨isElement.isRuleLexeme, ih⟩

theorem DerivesRules.isRuleLexeme {rules : List Rule} (h : DerivesRules lexemes rules) :
    ∀ lexeme ∈ lexemes, IsRuleLexeme lexeme := by
  induction h with
  | last isRule => exact isRule.isRuleLexeme
  | bar isRule _ ih =>
    exact List.forall_mem_append.2 ⟨isRule.isRuleLexeme,
      List.forall_mem_cons.2 ⟨.inr (.inr (.inr (.inr rfl))), ih⟩⟩

theorem isSolid_semicolon : IsSolid ";".toList :=
  isSolid_cons (by decide) (by decide) (by decide) _

theorem DerivesAll.isSolid {productions : List Production} (h : DerivesAll lexemes productions) :
    ∀ lexeme ∈ lexemes, IsSolid lexeme := by
  induction h with
  | nil => simp
  | cons isIdentifier isSign body _ ih =>
    have hbody : ∀ lexeme ∈ _, IsSolid lexeme := fun lexeme h =>
      (body.isRuleLexeme lexeme h).isSolid
    refine List.forall_mem_cons.2 ⟨isIdentifier.isSolid,
      List.forall_mem_cons.2 ⟨isSign.isSolid, ?_⟩⟩
    exact List.forall_mem_append.2 ⟨hbody, List.forall_mem_cons.2 ⟨isSolid_semicolon, ih⟩⟩

end Solid

end GrammarOutline.Production
