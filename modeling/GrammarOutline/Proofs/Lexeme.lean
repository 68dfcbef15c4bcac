import GrammarOutline.Lexeme
import Mathlib.Data.List.TakeWhile
import Mathlib.Tactic.Common

/-!
# Texts that are lexemes

A text is an identifier, a literal or a class as a whole, whatever stands after it. Its reader
splits it off the front of a longer text, and never splits off anything else. Only an identifier is
read as far as possible, so the text after it must not go on with it.
-/
namespace GrammarOutline.Lexeme

def IsIdentifier : List Char → Prop
  | [] => False
  | c :: rest => startsIdentifier c = true ∧ ∀ d ∈ rest, continuesIdentifier d = true

instance : (text : List Char) → Decidable (IsIdentifier text)
  | [] => .isFalse id
  | c :: rest => decidable_of_iff (startsIdentifier c = true ∧ rest.all continuesIdentifier = true)
      (and_congr_right' List.all_eq_true)

/-- What may stand between delimiters: characters that are neither the closing one nor a backslash
nor a line feed, and pairs of a backslash with a character, which is a line feed only if the
notation joins lines. -/
inductive Inside (joinsLines : Bool) (close : Char) : List Char → Prop where
  | nil : Inside joinsLines close []
  | escape {c : Char} {rest : List Char} (joins : c = '\n' → joinsLines = true)
      (inside : Inside joinsLines close rest) : Inside joinsLines close ('\\' :: c :: rest)
  | plain {c : Char} {rest : List Char} (ne_close : c ≠ close) (ne_feed : c ≠ '\n')
      (ne_backslash : c ≠ '\\') (inside : Inside joinsLines close rest) :
      Inside joinsLines close (c :: rest)

/-- A text between two delimiters as a whole. -/
def IsDelimited (joinsLines : Bool) (opening close : Char) (text : List Char) : Prop :=
  ∃ body, Inside joinsLines close body ∧ text = opening :: (body ++ [close])

def IsDelimited1 (joinsLines : Bool) (opening close : Char) (text : List Char) : Prop :=
  ∃ body, body ≠ [] ∧ Inside joinsLines close body ∧ text = opening :: (body ++ [close])

def IsCharacterLiteral (joinsLines : Bool) : List Char → Prop := IsDelimited1 joinsLines '\'' '\''

def IsStringLiteral (joinsLines : Bool) : List Char → Prop := IsDelimited joinsLines '"' '"'

def IsLiteral (joinsLines : Bool) (text : List Char) : Prop :=
  IsCharacterLiteral joinsLines text ∨ IsStringLiteral joinsLines text

def IsCharacterClass (joinsLines : Bool) : List Char → Prop := IsDelimited1 joinsLines '[' ']'

def EndsIdentifier (text : List Char) : Prop := ∀ c ∈ text.head?, continuesIdentifier c = false

section Reading

variable {joinsLines : Bool} {opening close : Char} {text rest : List Char}

theorem identifier_append (htext : IsIdentifier text) (hrest : EndsIdentifier rest) :
    identifier (text ++ rest) = some (text, rest) := by
  match text with
  | c :: text =>
    obtain ⟨hc, htext⟩ := htext
    have hstop : rest.takeWhile continuesIdentifier = [] ∧
        rest.dropWhile continuesIdentifier = rest := by
      cases rest with
      | nil => exact ⟨rfl, rfl⟩
      | cons d rest =>
        have hd : continuesIdentifier d = false := hrest d rfl
        simp [hd]
    rw [List.cons_append, identifier, if_pos hc, List.takeWhile_append_of_pos htext, hstop.1,
      List.dropWhile_append_of_pos htext, hstop.2, List.append_nil]

theorem upTo_escape (c : Char) (text : List Char) : upTo joinsLines close ('\\' :: c :: text) =
    if c = '\n' && !joinsLines then none
    else (upTo joinsLines close text).map fun (front, rest) => ('\\' :: c :: front, rest) := by
  rw [upTo]

theorem upTo_cons {c : Char} (hc : c ≠ '\\') (text : List Char) :
    upTo joinsLines close (c :: text) = if c = close then some ([c], text)
    else if c = '\n' || c = '\\' then none
    else (upTo joinsLines close text).map fun (front, rest) => (c :: front, rest) := by
  rw [upTo]
  rintro _ _ rfl _
  exact hc rfl

theorem upTo_append (hclose : close ≠ '\\') {body : List Char} (h : Inside joinsLines close body) :
    upTo joinsLines close (body ++ close :: rest) = some (body ++ [close], rest) := by
  induction h with
  | nil => rw [List.nil_append, upTo_cons hclose, if_pos rfl, List.nil_append]
  | @escape c body joins _ ih =>
    have hc : ¬(c = '\n' && !joinsLines) = true := by
      simp only [Bool.and_eq_true, decide_eq_true_eq, Bool.not_eq_true', not_and,
        Bool.not_eq_false]
      exact joins
    rw [List.cons_append, List.cons_append, upTo_escape, if_neg hc, ih]
    rfl
  | plain ne_close ne_feed ne_backslash _ ih =>
    rw [List.cons_append, upTo_cons ne_backslash, if_neg ne_close,
      if_neg (by simp [ne_feed, ne_backslash]), ih]
    rfl

theorem delimited_append (hclose : close ≠ '\\')
    (htext : IsDelimited joinsLines opening close text) :
    delimited joinsLines opening close (text ++ rest) = some (text, rest) := by
  obtain ⟨body, hbody, rfl⟩ := htext
  have happend : opening :: (body ++ [close]) ++ rest = opening :: (body ++ close :: rest) := by
    simp
  rw [happend, delimited, if_pos rfl, upTo_append hclose hbody]
  rfl

theorem Inside.head_ne (hclose : close ≠ '\\') {c : Char} {body : List Char}
    (h : Inside joinsLines close (c :: body)) : c ≠ close := by
  cases h with
  | escape => exact hclose.symm
  | plain ne_close => exact ne_close

theorem delimited1_append (hclose : close ≠ '\\')
    (htext : IsDelimited1 joinsLines opening close text) :
    delimited1 joinsLines opening close (text ++ rest) = some (text, rest) := by
  obtain ⟨body, hne, hbody, rfl⟩ := htext
  rw [delimited1, if_neg, delimited_append hclose ⟨body, hbody, rfl⟩]
  cases body with
  | nil => exact absurd rfl hne
  | cons c body => simpa using hbody.head_ne hclose

theorem delimited_eq_none {c : Char} (h : c ≠ opening) (text : List Char) :
    delimited joinsLines opening close (c :: text) = none := by
  rw [delimited, if_neg h]

theorem delimited1_eq_none {c : Char} (h : c ≠ opening) (text : List Char) :
    delimited1 joinsLines opening close (c :: text) = none := by
  rw [delimited1]
  split
  · rfl
  · exact delimited_eq_none h text

theorem characterLiteral_append (h : IsCharacterLiteral joinsLines text)
    (rest : List Char) :
    characterLiteral joinsLines (text ++ rest) = some (text, rest) :=
  delimited1_append (by decide) h

theorem stringLiteral_append (h : IsStringLiteral joinsLines text)
    (rest : List Char) :
    stringLiteral joinsLines (text ++ rest) = some (text, rest) := delimited_append (by decide) h

theorem characterClass_append (h : IsCharacterClass joinsLines text)
    (rest : List Char) :
    characterClass joinsLines (text ++ rest) = some (text, rest) := delimited1_append (by decide) h

/-- A notation that joins lines has all the texts between delimiters of one that does not. -/
theorem Inside.joins (h : Inside false close text) : Inside true close text := by
  induction h with
  | nil => exact .nil
  | escape _ _ ih => exact .escape (fun _ => rfl) ih
  | plain ne_close ne_feed ne_backslash _ ih => exact .plain ne_close ne_feed ne_backslash ih

/-- Without a line feed there is nothing to join. -/
theorem Inside.oneLine (h : Inside joinsLines close text) (hfeed : '\n' ∉ text) :
    Inside false close text := by
  induction h with
  | nil => exact .nil
  | escape _ _ ih =>
    simp only [List.mem_cons, not_or] at hfeed
    exact .escape (fun e => absurd e.symm hfeed.2.1) (ih hfeed.2.2)
  | plain ne_close ne_feed ne_backslash _ ih =>
    exact .plain ne_close ne_feed ne_backslash (ih fun h => hfeed (List.mem_cons_of_mem _ h))

theorem IsLiteral.joins (h : IsLiteral false text) : IsLiteral true text := by
  rcases h with ⟨body, hne, hbody, htext⟩ | ⟨body, hbody, htext⟩
  · exact .inl ⟨body, hne, hbody.joins, htext⟩
  · exact .inr ⟨body, hbody.joins, htext⟩

theorem IsLiteral.oneLine (h : IsLiteral joinsLines text) (hfeed : '\n' ∉ text) :
    IsLiteral false text := by
  rcases h with ⟨body, hne, hbody, rfl⟩ | ⟨body, hbody, rfl⟩
  · exact .inl ⟨body, hne, hbody.oneLine fun h => hfeed (by simp [h]), rfl⟩
  · exact .inr ⟨body, hbody.oneLine fun h => hfeed (by simp [h]), rfl⟩

theorem IsLiteral.exists_head (h : IsLiteral joinsLines text) :
    ∃ c body, text = c :: body ∧ (c = '\'' ∨ c = '"') := by
  rcases h with ⟨body, -, -, rfl⟩ | ⟨body, -, rfl⟩
  · exact ⟨_, _, rfl, .inl rfl⟩
  · exact ⟨_, _, rfl, .inr rfl⟩

theorem characterLiteral_eq_none {c : Char} (h : c ≠ '\'') (text : List Char) :
    characterLiteral joinsLines (c :: text) = none := delimited1_eq_none h text

theorem stringLiteral_eq_none {c : Char} (h : c ≠ '"') (text : List Char) :
    stringLiteral joinsLines (c :: text) = none := delimited_eq_none h text

theorem characterClass_eq_none {c : Char} (h : c ≠ '[') (text : List Char) :
    characterClass joinsLines (c :: text) = none := delimited1_eq_none h text

theorem literal_append (h : IsLiteral joinsLines text) (rest : List Char) :
    literal joinsLines (text ++ rest) = some (text, rest) := by
  rcases h with h | h
  · rw [literal, characterLiteral_append h, Option.some_or]
  · have hread := stringLiteral_append h rest
    obtain ⟨body, -, rfl⟩ := h
    rw [List.cons_append] at hread ⊢
    rw [literal, characterLiteral_eq_none (by decide), Option.none_or, hread]

theorem literal_eq_none {c : Char} (hcharacter : c ≠ '\'') (hstring : c ≠ '"') (text : List Char) :
    literal joinsLines (c :: text) = none := by
  rw [literal, characterLiteral_eq_none hcharacter, stringLiteral_eq_none hstring]
  rfl

end Reading

section Read

variable {joinsLines : Bool} {opening close : Char} {text front rest : List Char}

theorem isIdentifier_of_identifier (h : identifier text = some (front, rest)) :
    IsIdentifier front := by
  cases text with
  | nil => simp [identifier] at h
  | cons c text =>
    rw [identifier, Option.ite_none_right_eq_some] at h
    obtain ⟨hc, ⟨⟩⟩ := h
    exact ⟨hc, fun d hd => List.mem_takeWhile_imp hd⟩

theorem endsIdentifier_of_identifier (h : identifier text = some (front, rest)) :
    EndsIdentifier rest := by
  cases text with
  | nil => simp [identifier] at h
  | cons c text =>
    rw [identifier, Option.ite_none_right_eq_some] at h
    obtain ⟨-, ⟨⟩⟩ := h
    intro d hd
    have hhead := List.head?_dropWhile_not continuesIdentifier text
    rw [Option.mem_def.1 hd] at hhead
    simpa using hhead

theorem exists_inside_of_upTo (h : upTo joinsLines close text = some (front, rest)) :
    ∃ body, Inside joinsLines close body ∧ front = body ++ [close] := by
  fun_induction upTo joinsLines close text generalizing front rest with
  | case1 => simp at h
  | case2 => simp at h
  | case3 c text hfeed ih =>
    simp only [Option.map_eq_some_iff, Prod.mk.injEq] at h
    obtain ⟨⟨f, r⟩, hr, rfl, rfl⟩ := h
    obtain ⟨body, hbody, rfl⟩ := ih hr
    have hjoins : c = '\n' → joinsLines = true := by simpa using hfeed
    exact ⟨'\\' :: c :: body, .escape hjoins hbody, rfl⟩
  | case4 _ text =>
    simp only [Option.some.injEq, Prod.mk.injEq] at h
    obtain ⟨rfl, -⟩ := h
    exact ⟨[], .nil, rfl⟩
  | case5 => simp at h
  | case6 c text _ hclose hplain ih =>
    simp only [Option.map_eq_some_iff, Prod.mk.injEq] at h
    obtain ⟨⟨f, r⟩, hr, rfl, rfl⟩ := h
    obtain ⟨body, hbody, rfl⟩ := ih hr
    simp only [Bool.or_eq_true, decide_eq_true_eq, not_or] at hplain
    exact ⟨c :: body, .plain hclose hplain.1 hplain.2 hbody, rfl⟩

theorem isDelimited_of_delimited
    (h : delimited joinsLines opening close text = some (front, rest)) :
    IsDelimited joinsLines opening close front := by
  cases text with
  | nil => simp [delimited] at h
  | cons c text =>
    simp only [delimited, Option.ite_none_right_eq_some, Option.map_eq_some_iff, Prod.mk.injEq] at h
    obtain ⟨hc, ⟨f, r⟩, hr, rfl, -⟩ := h
    obtain ⟨body, hbody, rfl⟩ := exists_inside_of_upTo hr
    exact ⟨body, hbody, by rw [hc]⟩

theorem isDelimited1_of_delimited1
    (h : delimited1 joinsLines opening close text = some (front, rest)) :
    IsDelimited1 joinsLines opening close front := by
  rw [delimited1, Option.ite_none_left_eq_some] at h
  obtain ⟨hfirst, h⟩ := h
  obtain ⟨body, hbody, rfl⟩ := isDelimited_of_delimited h
  refine ⟨body, ?_, hbody, rfl⟩
  rintro rfl
  obtain ⟨-, rfl⟩ := delimited_proper _ _ _ _ _ _ h
  exact hfirst rfl

theorem isLiteral_of_literal (h : literal joinsLines text = some (front, rest)) :
    IsLiteral joinsLines front := by
  rw [literal, Option.or_eq_some_iff] at h
  rcases h with h | ⟨-, h⟩
  · exact .inl (isDelimited1_of_delimited1 h)
  · exact .inr (isDelimited_of_delimited h)

end Read

section Heads

theorem continuesIdentifier_of_starts {c : Char} (h : startsIdentifier c = true) :
    continuesIdentifier c = true := by
  simp only [startsIdentifier, continuesIdentifier, Char.isAlphanum, Bool.or_eq_true] at h ⊢
  tauto

theorem not_isIdentifier_cons {c : Char} (h : continuesIdentifier c = false) (rest : List Char) :
    ¬IsIdentifier (c :: rest) := fun hname => by
  rw [continuesIdentifier_of_starts hname.1] at h
  exact absurd h (by decide)

theorem IsLiteral.not_isIdentifier {joinsLines : Bool} {text : List Char}
    (h : IsLiteral joinsLines text) : ¬IsIdentifier text := by
  obtain ⟨c, body, rfl, rfl | rfl⟩ := h.exists_head <;> exact not_isIdentifier_cons (by decide) _

/-- What goes on with an identifier is an ASCII letter or digit, the underscore or the dot. -/
theorem toNat_of_continuesIdentifier {c : Char} (h : continuesIdentifier c = true) :
    46 ≤ c.toNat ∧ c.toNat ≠ 47 ∧ c.toNat ≤ 122 := by
  change (decide (c.val ≥ 'A'.val ∧ c.val ≤ 'Z'.val) ||
    decide (c.val ≥ 'a'.val) && decide (c.val ≤ 'z'.val) ||
    decide (c.val ≥ '0'.val) && decide (c.val ≤ '9'.val) || decide (c = '_') ||
    decide (c = '.')) = true at h
  simp only [Bool.or_eq_true, Bool.and_eq_true, decide_eq_true_eq, UInt32.le_iff_toNat_le,
    ge_iff_le] at h
  have hval : c.toNat = c.val.toNat := rfl
  rcases h with (((h | h) | h) | rfl) | rfl
  · have hlow : 'A'.val.toNat = 65 := rfl
    have hhigh : 'Z'.val.toNat = 90 := rfl
    omega
  · have hlow : 'a'.val.toNat = 97 := rfl
    have hhigh : 'z'.val.toNat = 122 := rfl
    omega
  · have hlow : '0'.val.toNat = 48 := rfl
    have hhigh : '9'.val.toNat = 57 := rfl
    omega
  · decide
  · decide

theorem isBlank_of_continuesIdentifier {c : Char} (h : continuesIdentifier c = true) :
    Text.isBlank c = false ∧ c ≠ '/' := by
  have hrange := toNat_of_continuesIdentifier h
  constructor
  · rw [Text.isBlank, List.any_eq_false]
    intro range hmem
    simp only [Text.blankRanges, List.mem_cons, List.not_mem_nil, or_false] at hmem
    simp only [Bool.and_eq_true, decide_eq_true_eq]
    rcases hmem with rfl | rfl | rfl | rfl | rfl | rfl | rfl | rfl | rfl | rfl <;>
      dsimp only <;> omega
  · rintro rfl
    exact hrange.2.1 rfl

theorem layoutPiece_eq_none {c : Char} (hblank : Text.isBlank c = false) (hslash : c ≠ '/')
    (text : List Char) : layoutPiece (c :: text) = none := by
  have hblanks : blanks (c :: text) = none := by simp [blanks, hblank]
  have hblock : blockComment (c :: text) = none := by simp [blockComment, hslash]
  have hline : lineComment (c :: text) = none := by simp [lineComment, hslash]
  rw [layoutPiece, hblanks, hblock, hline]
  rfl

end Heads

end GrammarOutline.Lexeme
