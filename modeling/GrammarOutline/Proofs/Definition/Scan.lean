import GrammarOutline.Proofs.Definition.Token

/-!
# Scanning laid out texts

The tokens of a text are its lexemes in order, wherever the layout between them is. Where a laid out
text comes to something that is no token, the scan ends with a malformed one. The other way round, a
text that is scanned up to its end is laid out from the texts of its tokens.
-/
namespace GrammarOutline.Token

open Lexeme

variable {kind : Kind} {lexeme text rest : List Char} {more : List (List Char)}

section Taken

/-- A lexeme that is laid out before others becomes the next token. -/
theorem scanFrom_laidOut (hlaid : LaidOut False (lexeme :: more) text)
    (hlexeme : IsLexeme lexeme kind) (hmore : ∀ l ∈ more, IsSolid l) (offset : Nat) :
    ∃ start stop rest,
      scanFrom offset text = ⟨kind, String.ofList lexeme, start⟩ :: scanFrom stop rest ∧
      LaidOut False more rest := by
  obtain ⟨front, mid, rest, hfront, rfl, hstands, hrest⟩ := hlaid.exists_cons hmore
  obtain ⟨rfl, hends⟩ := hstands
  have hlayout := (isSolid_of_isLexeme hlexeme).layout_append hfront rest
  have hfollows : Follows kind rest := by
    rintro rfl
    exact hends hlexeme
  rw [scanFrom_layout, hlayout, scanFrom_append hlexeme hfollows]
  exact ⟨_, _, rest, rfl, hrest⟩

/-- Where only layout is left, the scan is at its end. -/
theorem scanFrom_laidOut_nil (hlaid : LaidOut False [] text) (offset : Nat) :
    ∃ stop, scanFrom offset text = [⟨.finish, "", stop⟩] := by
  cases hlaid with
  | last isLayout =>
    have hlayout : layout (text ++ []) = _ := isLayout.layout_append fun _ => rfl
    rw [List.append_nil, layout_nil] at hlayout
    rw [scanFrom_layout, hlayout]
    exact ⟨_, scanFrom_nil _⟩

theorem exists_malformed (hlaid : LaidOut False (lexeme :: more) text) (hsolid : IsSolid lexeme)
    (hmore : ∀ l ∈ more, IsSolid l)
    (hnone : ∀ rest, LaidOut False more rest → lexeme? (lexeme ++ rest) = none) (offset : Nat) :
    ∃ t ∈ scanFrom offset text, t.kind = .malformed := by
  obtain ⟨front, mid, rest, hfront, rfl, hstands, hrest⟩ := hlaid.exists_cons hmore
  obtain ⟨rfl, -⟩ := hstands
  rw [scanFrom_layout, hsolid.layout_append hfront rest, scanFrom_eq,
    if_neg (by simp [hsolid.ne_nil]), hsolid.layoutPiece_append rest, hnone rest hrest]
  exact ⟨_, List.mem_singleton_self _, rfl⟩

end Taken

section Refused

variable {c : Char}

theorem lexeme?_eq_none (hsign : punctuation (c :: text) = none)
    (hstarts : startsIdentifier c = false) (hquote : c ∉ ['\'', '"', '[']) :
    lexeme? (c :: text) = none := by
  have hname : identifier (c :: text) = none := by rw [identifier, if_neg (by simp [hstarts])]
  rw [lexeme?, ofKind_none hsign,
    ofKind_none (characterLiteral_eq_none (by rintro rfl; simp at hquote) _),
    ofKind_none (stringLiteral_eq_none (by rintro rfl; simp at hquote) _),
    ofKind_none (characterClass_eq_none (by rintro rfl; simp at hquote) _), ofKind_none hname]
  rfl

theorem lexeme?_colon (h : ∀ d ∈ text.head?, d ≠ ':') : lexeme? (':' :: text) = none := by
  refine lexeme?_eq_none ?_ (by decide) (by decide)
  cases text with
  | nil => rfl
  | cons d text =>
    have hd : d ≠ ':' := h d rfl
    simp [punctuation, hd]

end Refused

section Scanned

/-- An identifier is read as far as it goes. -/
theorem endsIdentifier_of_lexeme? (h : lexeme? text = some (kind, lexeme, rest))
    (hname : IsIdentifier lexeme) : EndsIdentifier rest := by
  simp only [lexeme?, Option.or_eq_some_iff] at h
  rcases h with h | ⟨_, h | ⟨_, h | ⟨_, h | ⟨_, h⟩⟩⟩⟩
  · rcases isLexeme_of_punctuation (ofKind_eq_some h).2 with rfl | ⟨c, hc, rfl⟩
    · exact absurd hname (by decide)
    · have hends : ("|()?*+;".toList.any continuesIdentifier) = false := by decide
      exact absurd hname (not_isIdentifier_cons (by simpa using List.any_eq_false.1 hends c hc) _)
  · have hliteral : IsLiteral true lexeme := .inl (isDelimited1_of_delimited1 (ofKind_eq_some h).2)
    exact absurd hname hliteral.not_isIdentifier
  · have hliteral : IsLiteral true lexeme := .inr (isDelimited_of_delimited (ofKind_eq_some h).2)
    exact absurd hname hliteral.not_isIdentifier
  · obtain ⟨body, -, -, rfl⟩ := isDelimited1_of_delimited1 (ofKind_eq_some h).2
    exact absurd hname (not_isIdentifier_cons (by decide) _)
  · exact endsIdentifier_of_identifier (ofKind_eq_some h).2

/-- No front of the text is layout or a lexeme. -/
def StartsNothing (text : List Char) : Prop :=
  ∀ front rest, text = front ++ rest → front ≠ [] →
    ¬IsLayout (rest = []) front ∧ ∀ kind, ¬IsLexeme front kind

/-- Where a lexeme starts, one is read. An identifier may be longer than its front. -/
theorem isSome_lexeme?_append (h : IsLexeme lexeme kind) (rest : List Char) :
    (lexeme? (lexeme ++ rest)).isSome = true := by
  by_cases hkind : kind = .identifier
  · subst hkind
    cases lexeme with
    | nil => exact h.elim
    | cons c name =>
      have hstarts : startsIdentifier c = true := h.1
      simp [lexeme?, ofKind, identifier, hstarts]
  · rw [lexeme?_append h fun hname => absurd hname hkind]
    rfl

theorem startsNothing_of_none (hlayout : layoutPiece text = none) (hlexeme : lexeme? text = none) :
    StartsNothing text := by
  rintro front rest rfl hne
  constructor
  · intro hfront
    have htaken : layout (front ++ rest) = _ := hfront.layout_append id
    rw [layout_of_layoutPiece_none hlayout] at htaken
    have hnil : [] = front ++ (layout rest).1 := (Prod.mk.inj htaken).1
    exact hne (List.append_eq_nil_iff.1 hnil.symm).1
  · intro kind hfront
    have hread := isSome_lexeme?_append hfront rest
    rw [hlexeme] at hread
    exact absurd hread (by simp)

/-- After the layout at the front a scan finds the end, a lexeme or nothing. -/
theorem scanFrom_cases (offset : Nat) (text : List Char) : ∃ gap mid, IsLayout (mid = []) gap ∧
    text = gap ++ mid ∧
    (mid = [] ∧ scanFrom offset text = [⟨.finish, "", offset + gap.length⟩] ∨
    (∃ kind lexeme rest, mid = lexeme ++ rest ∧ lexeme ≠ [] ∧ IsLexeme lexeme kind ∧
      (IsIdentifier lexeme → EndsIdentifier rest) ∧
      scanFrom offset text = ⟨kind, String.ofList lexeme, offset + gap.length⟩ ::
        scanFrom (offset + gap.length + lexeme.length) rest) ∨
    mid ≠ [] ∧ StartsNothing mid ∧
      scanFrom offset text = [⟨.malformed, String.ofList (Text.excerpt mid),
        offset + gap.length⟩]) := by
  refine ⟨(layout text).1, (layout text).2, isLayout_layout text, (layout_append text).symm, ?_⟩
  have hnone := layoutPiece_layout text
  rw [scanFrom_layout]
  generalize (layout text).2 = mid at *
  by_cases hend : mid = []
  · subst hend
    exact .inl ⟨rfl, scanFrom_nil _⟩
  rw [scanFrom_eq, if_neg (by simpa using hend), hnone]
  cases hread : lexeme? mid with
  | none => exact .inr (.inr ⟨hend, startsNothing_of_none hnone hread, rfl⟩)
  | some taken =>
    obtain ⟨kind, lexeme, rest⟩ := taken
    obtain ⟨hne, rfl⟩ := lexeme?_proper hread
    exact .inr (.inl ⟨kind, lexeme, rest, rfl, hne, isLexeme_of_lexeme? hread,
      endsIdentifier_of_lexeme? hread, rfl⟩)

/-- A text that is scanned up to its end is laid out from the texts of its tokens. -/
theorem laidOut_of_scanFrom {offset : Nat} {ts : List Token} {last : Token}
    (h : scanFrom offset text = ts ++ [last]) (hlast : last.kind = .finish) :
    LaidOut False (ts.map fun t => t.text.toList) text := by
  induction hlength : text.length using Nat.strong_induction_on generalizing offset text ts with
  | _ length ih =>
  subst hlength
  obtain ⟨gap, mid, hgap, rfl, ⟨rfl, hscan⟩ |
    ⟨kind, lexeme, rest, rfl, hne, hlexeme, hends, hscan⟩ |
    ⟨-, -, hscan⟩⟩ := scanFrom_cases offset text
  · rw [hscan] at h
    obtain rfl : ts = [] := by
      cases ts with
      | nil => rfl
      | cons t ts => simp at h
    rw [List.append_nil]
    exact .last (by simpa using hgap)
  · rw [hscan] at h
    cases ts with
    | nil =>
      obtain ⟨rfl, -⟩ := List.cons.inj h
      obtain rfl : kind = .finish := hlast
      exact hlexeme.elim
    | cons t ts =>
      obtain ⟨rfl, hmore⟩ := List.cons.inj h
      have hless : rest.length < (gap ++ (lexeme ++ rest)).length := by
        have hpos := List.length_pos_iff.2 hne
        simp only [List.length_append]
        omega
      have hrest : LaidOut False (ts.map fun t => t.text.toList) rest := ih _ hless hmore rfl
      rw [List.map_cons, String.toList_ofList]
      exact StandsBefore.laidOutBefore ⟨rfl, hends⟩ hne hgap (laidOutBefore_nil _) _ hrest
  · rw [hscan] at h
    obtain ⟨rfl, rfl⟩ : ts = [] ∧ _ = last := by
      cases ts with
      | nil => exact ⟨rfl, (List.cons.inj h).1⟩
      | cons t ts => simp at h
    exact absurd hlast (by simp)

end Scanned

end GrammarOutline.Token
