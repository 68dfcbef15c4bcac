import GrammarOutline.Text.Blank

/-!
# Lexemes of both notations

A reader splits a lexeme off the front of a text. Identifiers are words of ASCII letters, digits,
underscores and dots. Literals and classes stand between delimiters, where a backslash takes the
character after it and a line feed cannot stand by itself. A notation in which a backslash may also
take a line feed joins lines. Blanks and comments are layout.
-/
namespace GrammarOutline.Lexeme

/-- What a reader answers: the lexeme and the text after it. -/
abbrev Split := Option (List Char × List Char)

/-- The law of a reader: it takes something and loses nothing. -/
def Proper (reader : List Char → Split) : Prop :=
  ∀ text front rest, reader text = some (front, rest) → front ≠ [] ∧ front ++ rest = text

theorem Proper.length_lt {reader : List Char → Split} (h : Proper reader)
    {text front rest : List Char} (hr : reader text = some (front, rest)) :
    rest.length < text.length := by
  obtain ⟨hne, rfl⟩ := h text front rest hr
  have := List.length_pos_iff.2 hne
  simp only [List.length_append]
  omega

theorem Proper.or {first second : List Char → Split} (hf : Proper first) (hs : Proper second) :
    Proper fun text => (first text).or (second text) := by
  intro text front rest h
  cases hfirst : first text with
  | none =>
    simp only [hfirst, Option.none_or] at h
    exact hs text front rest h
  | some split =>
    simp only [hfirst, Option.some_or] at h
    exact hf text front rest (hfirst.trans h)

def startsIdentifier (c : Char) : Bool := c.isAlpha || c = '_'

def continuesIdentifier (c : Char) : Bool := c.isAlphanum || c = '_' || c = '.'

/-- An identifier, as long as it can be. -/
def identifier : List Char → Split
  | [] => none
  | c :: rest =>
    if startsIdentifier c then
      some (c :: rest.takeWhile continuesIdentifier, rest.dropWhile continuesIdentifier)
    else none

theorem identifier_proper : Proper identifier := by
  intro text front rest h
  cases text with
  | nil => simp [identifier] at h
  | cons c text =>
    rw [identifier, Option.ite_none_right_eq_some] at h
    obtain ⟨-, ⟨⟩⟩ := h
    simp

/-- The text up to and with `close`. A backslash takes the next character with it, which is a line
feed only if the notation joins lines. Neither a line feed nor a last backslash can stand by
itself. -/
def upTo (joinsLines : Bool) (close : Char) : List Char → Split
  | [] => none
  | '\\' :: c :: rest =>
    if c = '\n' && !joinsLines then none
    else (upTo joinsLines close rest).map fun (front, rest) => ('\\' :: c :: front, rest)
  | c :: rest =>
    if c = close then some ([c], rest)
    else if c = '\n' || c = '\\' then none
    else (upTo joinsLines close rest).map fun (front, rest) => (c :: front, rest)

theorem upTo_proper (joinsLines : Bool) (close : Char) : Proper (upTo joinsLines close) := by
  intro text front rest h
  fun_induction upTo joinsLines close text generalizing front rest with
  | case1 => simp at h
  | case2 => simp at h
  | case3 c text _ ih =>
    simp only [Option.map_eq_some_iff, Prod.mk.injEq] at h
    obtain ⟨⟨f, r⟩, hr, rfl, rfl⟩ := h
    simp [(ih f r hr).2]
  | case4 _ text =>
    simp only [Option.some.injEq, Prod.mk.injEq] at h
    obtain ⟨rfl, rfl⟩ := h
    simp
  | case5 => simp at h
  | case6 c text _ _ _ ih =>
    simp only [Option.map_eq_some_iff, Prod.mk.injEq] at h
    obtain ⟨⟨f, r⟩, hr, rfl, rfl⟩ := h
    simp [(ih f r hr).2]

/-- A lexeme between two delimiters. -/
def delimited (joinsLines : Bool) (opening close : Char) : List Char → Split
  | [] => none
  | c :: rest =>
    if c = opening then
      (upTo joinsLines close rest).map fun (front, rest) => (c :: front, rest)
    else none

theorem delimited_proper (joinsLines : Bool) (opening close : Char) :
    Proper (delimited joinsLines opening close) := by
  intro text front rest h
  cases text with
  | nil => simp [delimited] at h
  | cons c text =>
    simp only [delimited, Option.ite_none_right_eq_some, Option.map_eq_some_iff, Prod.mk.injEq] at h
    obtain ⟨-, ⟨f, r⟩, hr, rfl, rfl⟩ := h
    simp [(upTo_proper joinsLines close text f r hr).2]

/-- A lexeme between two delimiters with something between them. -/
def delimited1 (joinsLines : Bool) (opening close : Char) (text : List Char) : Split :=
  if (text.drop 1).head? = some close then none
  else delimited joinsLines opening close text

theorem delimited1_proper (joinsLines : Bool) (opening close : Char) :
    Proper (delimited1 joinsLines opening close) := by
  intro text front rest h
  rw [delimited1, Option.ite_none_left_eq_some] at h
  exact delimited_proper joinsLines opening close text front rest h.2

def characterLiteral (joinsLines : Bool) : List Char → Split := delimited1 joinsLines '\'' '\''

def stringLiteral (joinsLines : Bool) : List Char → Split := delimited joinsLines '"' '"'

def characterClass (joinsLines : Bool) : List Char → Split := delimited1 joinsLines '[' ']'

/-- A literal with either quote. -/
def literal (joinsLines : Bool) (text : List Char) : Split :=
  (characterLiteral joinsLines text).or (stringLiteral joinsLines text)

theorem literal_proper (joinsLines : Bool) : Proper (literal joinsLines) :=
  (delimited1_proper joinsLines '\'' '\'').or (delimited_proper joinsLines '"' '"')

def blanks (text : List Char) : Split :=
  let front := text.takeWhile Text.isBlank
  if front.isEmpty then none else some (front, text.dropWhile Text.isBlank)

theorem blanks_proper : Proper blanks := by
  intro text front rest h
  simp only [blanks, Option.ite_none_left_eq_some, Option.some.injEq, Prod.mk.injEq] at h
  obtain ⟨hne, rfl, rfl⟩ := h
  exact ⟨by simpa using hne, List.takeWhile_append_dropWhile⟩

/-- A comment from two slashes to the end of the line. -/
def lineComment : List Char → Split
  | '/' :: '/' :: rest =>
    some ('/' :: '/' :: rest.takeWhile (· != '\n'), rest.dropWhile (· != '\n'))
  | _ => none

theorem lineComment_eq_some {text front rest : List Char}
    (h : lineComment text = some (front, rest)) :
    ∃ line, text = '/' :: '/' :: line ∧ front = '/' :: '/' :: line.takeWhile (· != '\n') ∧
      rest = line.dropWhile (· != '\n') := by
  fun_cases lineComment text with
  | case1 line =>
    obtain ⟨⟩ := h
    exact ⟨line, rfl, rfl, rfl⟩
  | case2 text hother =>
    rw [lineComment.eq_2 text hother] at h
    exact absurd h (by simp)

theorem lineComment_proper : Proper lineComment := by
  intro text front rest h
  obtain ⟨line, rfl, rfl, rfl⟩ := lineComment_eq_some h
  simp

/-- The text up to and with the first end of a block comment. -/
def upToCommentEnd : List Char → Split
  | '*' :: '/' :: rest => some (['*', '/'], rest)
  | c :: rest => (upToCommentEnd rest).map fun (front, rest) => (c :: front, rest)
  | [] => none

theorem upToCommentEnd_proper : Proper upToCommentEnd := by
  intro text front rest h
  fun_induction upToCommentEnd text generalizing front rest with
  | case1 =>
    simp only [Option.some.injEq, Prod.mk.injEq] at h
    obtain ⟨rfl, rfl⟩ := h
    simp
  | case2 c text _ ih =>
    simp only [Option.map_eq_some_iff, Prod.mk.injEq] at h
    obtain ⟨⟨f, r⟩, hr, rfl, rfl⟩ := h
    simp [(ih f r hr).2]
  | case3 => simp at h

def blockComment : List Char → Split
  | '/' :: '*' :: rest =>
    (upToCommentEnd rest).map fun (front, rest) => ('/' :: '*' :: front, rest)
  | _ => none

theorem blockComment_eq_some {text front rest : List Char}
    (h : blockComment text = some (front, rest)) : ∃ inner body, text = '/' :: '*' :: inner ∧
      front = '/' :: '*' :: body ∧ upToCommentEnd inner = some (body, rest) := by
  fun_cases blockComment text with
  | case1 inner =>
    obtain ⟨⟨body, rest⟩, hbody, ⟨⟩⟩ := Option.map_eq_some_iff.1 h
    exact ⟨inner, body, rfl, rfl, hbody⟩
  | case2 text hother =>
    rw [blockComment.eq_2 text hother] at h
    exact absurd h (by simp)

theorem blockComment_proper : Proper blockComment := by
  intro text front rest h
  obtain ⟨inner, body, rfl, rfl, hbody⟩ := blockComment_eq_some h
  simp [(upToCommentEnd_proper _ _ _ hbody).2]

def layoutPiece (text : List Char) : Split :=
  ((blanks text).or (blockComment text)).or (lineComment text)

theorem layoutPiece_proper : Proper layoutPiece :=
  (blanks_proper.or blockComment_proper).or lineComment_proper

/-- All the layout at the front of a text, and the text after it. -/
def layout (text : List Char) : List Char × List Char :=
  match h : layoutPiece text with
  | none => ([], text)
  | some (front, rest) =>
    have : rest.length < text.length := layoutPiece_proper.length_lt h
    let (more, rest) := layout rest
    (front ++ more, rest)
termination_by text.length

theorem layout_append (text : List Char) : (layout text).1 ++ (layout text).2 = text := by
  fun_induction layout text with
  | case1 => simp
  | case2 text front rest h _ more rest' hmore ih =>
    rw [hmore] at ih
    have := (layoutPiece_proper text front rest h).2
    simp_all

end GrammarOutline.Lexeme
