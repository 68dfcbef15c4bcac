import GrammarOutline.Definition.Token
import GrammarOutline.Proofs.Layout

/-!
# Scanning lexemes

A lexeme at the front of a text becomes its token, provided that the text after an identifier does
not go on with it. A blank at the front is dropped. Every token but the last is a lexeme, and the
last one is the end of the text or the place where no token starts.
-/
namespace GrammarOutline.Token

open Lexeme

/-- A text that is a lexeme of a kind as a whole. -/
def IsLexeme (text : List Char) : Kind → Prop
  | .punctuation => text = [':', ':', '='] ∨ ∃ c ∈ "|()?*+;".toList, text = [c]
  | .identifier => IsIdentifier text
  | .character => IsCharacterLiteral true text
  | .string => IsStringLiteral true text
  | .charClass => IsCharacterClass true text
  | .finish | .malformed => False

/-- The text after a lexeme. It must not go on with an identifier. -/
def Follows (kind : Kind) (rest : List Char) : Prop := kind = .identifier → EndsIdentifier rest

section Heads

variable {c : Char} {text : List Char}

theorem punctuation_eq_none (hcolon : c ≠ ':') (hsign : c ∉ "|()?*+;".toList) :
    punctuation (c :: text) = none := by
  rw [punctuation_cons hcolon, if_neg (by simpa using hsign)]

theorem punctuation_append (h : IsLexeme text .punctuation) (rest : List Char) :
    punctuation (text ++ rest) = some (text, rest) := by
  rcases h with rfl | ⟨c, hc, rfl⟩
  · rfl
  · have hcolon : c ≠ ':' := by
      rintro rfl
      exact absurd hc (by decide)
    rw [List.singleton_append, punctuation_cons hcolon, if_pos (by simpa using hc)]

/-- What starts an identifier starts no other lexeme and no layout. -/
theorem ne_of_startsIdentifier (h : startsIdentifier c = true) :
    ∀ d ∈ ":|()?*+;'\"[/".toList, c ≠ d := by
  have hothers : (":|()?*+;'\"[/".toList.any startsIdentifier) = false := by decide
  rintro d hd rfl
  exact List.any_eq_false.1 hothers c hd h

theorem isSolid_of_isLexeme {kind : Kind} (h : IsLexeme text kind) : IsSolid text := by
  cases kind with
  | punctuation =>
    rcases h with rfl | ⟨c, hc, rfl⟩
    · exact isSolid_cons (by decide) (by decide) (by decide) _
    · have hblank : ("|()?*+;".toList.any Text.isBlank) = false := by decide
      have hslash : ("|()?*+;".toList.any (· = '/')) = false := by decide
      have hends : ("|()?*+;".toList.any continuesIdentifier) = false := by decide
      exact isSolid_cons (by simpa using List.any_eq_false.1 hblank c hc)
        (by simpa using List.any_eq_false.1 hslash c hc)
        (by simpa using List.any_eq_false.1 hends c hc) _
  | identifier => exact IsIdentifier.isSolid h
  | character => exact IsLiteral.isSolid (.inl h)
  | string => exact IsLiteral.isSolid (.inr h)
  | charClass =>
    obtain ⟨body, -, -, rfl⟩ := h
    exact isSolid_cons (by decide) (by decide) (by decide) _
  | finish => exact h.elim
  | malformed => exact h.elim

theorem layoutPiece_append {kind : Kind} (h : IsLexeme text kind) (rest : List Char) :
    layoutPiece (text ++ rest) = none := (isSolid_of_isLexeme h).layoutPiece_append rest

end Heads

section Scanning

variable {kind : Kind} {text rest : List Char}

theorem ofKind_some {reader : List Char → Split} {split : List Char × List Char}
    (h : reader text = some split) : ofKind kind reader text = some (kind, split) := by
  rw [ofKind, h, Option.map_some]

theorem ofKind_none {reader : List Char → Split} (h : reader text = none) :
    ofKind kind reader text = none := by
  rw [ofKind, h, Option.map_none]

theorem lexeme?_append (h : IsLexeme text kind) (hrest : Follows kind rest) :
    lexeme? (text ++ rest) = some (kind, text, rest) := by
  cases kind with
  | punctuation => rw [lexeme?, ofKind_some (punctuation_append h rest), Option.some_or]
  | character =>
    have hread := characterLiteral_append h rest
    obtain ⟨body, -, -, rfl⟩ := h
    rw [List.cons_append] at hread ⊢
    rw [lexeme?, ofKind_none (punctuation_eq_none (by decide) (by decide)), Option.none_or,
      ofKind_some hread, Option.some_or]
  | string =>
    have hread := stringLiteral_append h rest
    obtain ⟨body, -, rfl⟩ := h
    rw [List.cons_append] at hread ⊢
    rw [lexeme?, ofKind_none (punctuation_eq_none (by decide) (by decide)), Option.none_or,
      ofKind_none (characterLiteral_eq_none (by decide) _), Option.none_or, ofKind_some hread,
      Option.some_or]
  | charClass =>
    have hread := characterClass_append h rest
    obtain ⟨body, -, -, rfl⟩ := h
    rw [List.cons_append] at hread ⊢
    rw [lexeme?, ofKind_none (punctuation_eq_none (by decide) (by decide)), Option.none_or,
      ofKind_none (characterLiteral_eq_none (by decide) _), Option.none_or,
      ofKind_none (stringLiteral_eq_none (by decide) _), Option.none_or, ofKind_some hread,
      Option.some_or]
  | identifier =>
    have hread := identifier_append h (hrest rfl)
    cases text with
    | nil => exact h.elim
    | cons c text =>
      have hne := ne_of_startsIdentifier h.1
      have hsign : c ∉ "|()?*+;".toList := by
        intro hc
        have hothers : "|()?*+;".toList ⊆ ":|()?*+;'\"[/".toList := by decide
        exact hne c (hothers hc) rfl
      rw [List.cons_append] at hread ⊢
      rw [lexeme?, ofKind_none (punctuation_eq_none (hne ':' (by decide)) hsign), Option.none_or,
        ofKind_none (characterLiteral_eq_none (hne '\'' (by decide)) _), Option.none_or,
        ofKind_none (stringLiteral_eq_none (hne '"' (by decide)) _), Option.none_or,
        ofKind_none (characterClass_eq_none (hne '[' (by decide)) _), Option.none_or,
        ofKind_some hread]
  | finish => exact h.elim
  | malformed => exact h.elim

theorem ne_nil_of_isLexeme (h : IsLexeme text kind) : text ≠ [] := by
  have := @lexeme?_append _ _ [] h fun _ _ hc => by simp at hc
  exact (lexeme?_proper this).1

/-- A scan ends, drops a piece of layout, takes a lexeme or finds nothing to take. -/
theorem scanFrom_eq (offset : Nat) (text : List Char) : scanFrom offset text =
    if text.isEmpty then [⟨.finish, "", offset⟩]
    else
      match layoutPiece text with
      | some (front, rest) => scanFrom (offset + front.length) rest
      | none =>
        match lexeme? text with
        | some (kind, front, rest) =>
          ⟨kind, String.ofList front, offset⟩ :: scanFrom (offset + front.length) rest
        | none => [⟨.malformed, String.ofList (Text.excerpt text), offset⟩] := by
  fun_cases scanFrom offset text with
  | case1 hend => rw [if_pos hend]
  | case2 hmore front rest hlayout => simp only [if_neg hmore, hlayout]
  | case3 hmore hlayout kind front rest hlexeme => simp only [if_neg hmore, hlayout, hlexeme]
  | case4 hmore hlayout hlexeme => simp only [if_neg hmore, hlayout, hlexeme]

/-- A lexeme at the front becomes a token. -/
theorem scanFrom_append (h : IsLexeme text kind) (hrest : Follows kind rest) (offset : Nat) :
    scanFrom offset (text ++ rest) =
      ⟨kind, String.ofList text, offset⟩ :: scanFrom (offset + text.length) rest := by
  have hne : ¬(text ++ rest).isEmpty = true := by simp [ne_nil_of_isLexeme h]
  rw [scanFrom_eq, if_neg hne, layoutPiece_append h rest, lexeme?_append h hrest]

/-- A piece of layout at the front is dropped. -/
theorem scanFrom_layoutPiece {front : List Char} (h : layoutPiece text = some (front, rest))
    (offset : Nat) : scanFrom offset text = scanFrom (offset + front.length) rest := by
  have hne : ¬text.isEmpty = true := by
    obtain ⟨hfront, rfl⟩ := layoutPiece_proper _ _ _ h
    simp [hfront]
  rw [scanFrom_eq, if_neg hne, h]

theorem scanFrom_layout (offset : Nat) (text : List Char) :
    scanFrom offset text = scanFrom (offset + (layout text).1.length) (layout text).2 := by
  fun_induction layout text generalizing offset with
  | case1 => rfl
  | case2 text front rest h _ more rest' hmore ih =>
    rw [hmore] at ih
    rw [scanFrom_layoutPiece h, ih, List.length_append, Nat.add_assoc]

theorem scanFrom_blank {c : Char} (h : Text.isBlank c = true) (offset : Nat) :
    scanFrom offset (c :: rest) = scanFrom (offset + 1) rest := by
  rw [scanFrom_layout offset, scanFrom_layout (offset + 1), layout_blank h, List.length_cons,
    Nat.add_right_comm, Nat.add_assoc]

theorem scanFrom_blanks {front : List Char} (h : ∀ c ∈ front, Text.isBlank c = true) (offset : Nat)
    (rest : List Char) :
    scanFrom offset (front ++ rest) = scanFrom (offset + front.length) rest := by
  induction front generalizing offset with
  | nil => rfl
  | cons c front ih =>
    simp only [List.mem_cons, forall_eq_or_imp] at h
    have hlength : offset + (c :: front).length = offset + 1 + front.length := by
      simp only [List.length_cons]
      omega
    rw [List.cons_append, scanFrom_blank h.1, ih h.2, hlength]

theorem scanFrom_nil (offset : Nat) : scanFrom offset [] = [⟨.finish, "", offset⟩] := by
  rw [scanFrom]
  rfl

end Scanning

section Scanned

variable {kind : Kind} {text front rest : List Char}

theorem isLexeme_of_punctuation (h : punctuation text = some (front, rest)) :
    IsLexeme front .punctuation := (punctuation_eq_some h).2

/-- What is read from the front of a text is a lexeme. -/
theorem isLexeme_of_lexeme? (h : lexeme? text = some (kind, front, rest)) :
    IsLexeme front kind := by
  simp only [lexeme?, Option.or_eq_some_iff] at h
  rcases h with h | ⟨_, h | ⟨_, h | ⟨_, h | ⟨_, h⟩⟩⟩⟩
  · obtain ⟨rfl, hread⟩ := ofKind_eq_some h
    exact isLexeme_of_punctuation hread
  · obtain ⟨rfl, hread⟩ := ofKind_eq_some h
    exact isDelimited1_of_delimited1 hread
  · obtain ⟨rfl, hread⟩ := ofKind_eq_some h
    exact isDelimited_of_delimited hread
  · obtain ⟨rfl, hread⟩ := ofKind_eq_some h
    exact isDelimited1_of_delimited1 hread
  · obtain ⟨rfl, hread⟩ := ofKind_eq_some h
    exact isIdentifier_of_identifier hread

/-- A scan gives lexemes and a last token that is none. -/
theorem exists_scanFrom (offset : Nat) (text : List Char) : ∃ ts last,
    scanFrom offset text = ts ++ [last] ∧ (∀ t ∈ ts, IsLexeme t.text.toList t.kind) ∧
      (last.kind = .finish ∨ last.kind = .malformed) := by
  fun_induction scanFrom offset text with
  | case1 offset text => exact ⟨[], ⟨.finish, "", offset⟩, rfl, by simp, .inl rfl⟩
  | case2 offset text _ front rest _ _ ih => exact ih
  | case3 offset text _ _ kind front rest hlexeme _ ih =>
    obtain ⟨ts, last, hts, hlexemes, hlast⟩ := ih
    have hfirst : IsLexeme (String.ofList front).toList kind := by
      rw [String.toList_ofList]
      exact isLexeme_of_lexeme? hlexeme
    exact ⟨⟨kind, String.ofList front, offset⟩ :: ts, last, by rw [hts, List.cons_append],
      List.forall_mem_cons.2 ⟨hfirst, hlexemes⟩, hlast⟩
  | case4 offset text => exact ⟨[], _, rfl, by simp, .inr rfl⟩

/-- A scan has no fault exactly when none of its tokens is malformed. -/
theorem fault?_scan_eq_none_iff (source : List Char) :
    fault? source (scan source) = none ↔ ∀ t ∈ scan source, t.kind ≠ .malformed := by
  obtain ⟨ts, last, hscan, hlexemes, -⟩ := exists_scanFrom 0 source
  rw [scan, hscan, fault?, List.getLast?_concat]
  have hproper : ∀ t ∈ ts, t.kind ≠ .malformed := by
    intro t ht hkind
    have hlexeme := hlexemes t ht
    rw [hkind] at hlexeme
    exact hlexeme
  have hlast : (∀ t ∈ ts ++ [last], t.kind ≠ .malformed) ↔ last.kind ≠ .malformed := by
    simp only [List.mem_append, List.mem_singleton]
    exact ⟨fun h => h last (.inr rfl), fun h t ht => ht.elim (hproper t) fun e => e ▸ h⟩
  rw [hlast]
  obtain ⟨kind, text, offset⟩ := last
  cases kind <;> simp

end Scanned

end GrammarOutline.Token
