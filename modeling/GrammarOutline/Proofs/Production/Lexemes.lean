import GrammarOutline.Proofs.Production.ActionBlocks

/-!
# Reading the lexemes of productions

Each primitive of productions takes the lexemes of its kind wherever they stand, and nothing else.
The first character decides what it refuses. Layout before a lexeme is skipped as a whole.
-/
namespace GrammarOutline.Production

open Parsing Lexeme

theorem not_isIdentifier_of_isActionBlock {text : List Char} (h : IsActionBlock text) :
    ¬IsIdentifier text := by
  obtain ⟨body, -, rfl⟩ := h
  exact not_isIdentifier_cons (by decide) _

/-- The notation has no rules that could be called. -/
def noCall (i : Fin 0) (_ : Cursor Char) : Reply Char Unit := i.elim0

variable {α : Type} {c next : Cursor Char} {text rest : List Char}

section Taken

theorem accepts_identifier (h : StandsBefore text c.rest rest) (hname : IsIdentifier text)
    (hbeyond : c.beyond = 0) : Accepts noCall identifier c text (c.advance text.length) := by
  have hread : Lexeme.identifier c.rest = some (text, rest) := by
    rw [h.text_eq, identifier_append hname (h.ends hname)]
  exact accepts_lexeme hread hbeyond

theorem accepts_quoted (h : StandsBefore text c.rest rest) (hliteral : IsLiteral false text)
    (hbeyond : c.beyond = 0) : Accepts noCall quoted c text (c.advance text.length) := by
  have hread : literal false c.rest = some (text, rest) := by
    rw [h.text_eq, literal_append hliteral]
  exact accepts_lexeme hread hbeyond

theorem accepts_word {sign : String} (h : StandsBefore sign.toList c.rest rest)
    (hbeyond : c.beyond = 0) :
    Accepts noCall (word sign) c sign.toList (c.advance sign.toList.length) :=
  accepts_literal ⟨rest, h.text_eq.symm⟩ hbeyond

theorem accepts_actionBlock (h : StandsBefore text c.rest rest) (hblock : IsActionBlock text)
    (hbeyond : c.beyond = 0) :
    Accepts noCall (.scan actionBlock) c () (c.advance text.length) := by
  refine accepts_scan ?_ hbeyond
  rw [h.text_eq, read_actionBlock_append hblock]

end Taken

section Read

theorem standsBefore_of_accepts_identifier (h : Accepts noCall identifier c text next) :
    IsIdentifier text ∧ StandsBefore text c.rest next.rest := by
  have hread : Lexeme.identifier c.rest = some (text, next.rest) := split_of_accepts_lexeme h
  exact ⟨isIdentifier_of_identifier hread, (identifier_proper _ _ _ hread).2.symm,
    fun _ => endsIdentifier_of_identifier hread⟩

theorem standsBefore_of_accepts_quoted (h : Accepts noCall quoted c text next) :
    IsLiteral false text ∧ StandsBefore text c.rest next.rest := by
  have hread : literal false c.rest = some (text, next.rest) := split_of_accepts_lexeme h
  have hliteral := isLiteral_of_literal hread
  exact ⟨hliteral, (literal_proper _ _ _ _ hread).2.symm,
    fun hname => absurd hname hliteral.not_isIdentifier⟩

theorem standsBefore_of_accepts_word {sign : String} (hsign : ¬IsIdentifier sign.toList)
    (h : Accepts noCall (word sign) c text next) :
    text = sign.toList ∧ StandsBefore sign.toList c.rest next.rest := by
  obtain ⟨rfl, hrest⟩ := rest_of_accepts_literal h
  exact ⟨rfl, hrest, fun hname => absurd hname hsign⟩

theorem standsBefore_of_accepts_actionBlock (h : Accepts noCall (.scan actionBlock) c () next) :
    ∃ block, IsActionBlock block ∧ StandsBefore block c.rest next.rest := by
  obtain ⟨count, hread, hnext⟩ := exists_of_accepts_scan h
  by_cases hstands : ∃ block, IsActionBlock block ∧ block <+: c.rest
  · obtain ⟨block, hblock, rest, hrest⟩ := hstands
    rw [← hrest, read_actionBlock_append hblock] at hread
    obtain ⟨-, rfl⟩ := Scan.taken.inj hread
    refine ⟨block, hblock, ?_, fun hname => absurd hname (not_isIdentifier_of_isActionBlock hblock)⟩
    rw [hnext, ← hrest, List.drop_left]
  · by_cases hhead : c.rest.head? = some '\x7b'
    · rw [read_actionBlock_of_forall_not hhead
        fun block hblock h => hstands ⟨block, hblock, h⟩] at hread
      exact absurd hread (by simp)
    · rw [read_actionBlock_of_head hhead] at hread
      exact absurd hread (by simp)

theorem not_accepts_openLiteral : ¬Accepts noCall (.scan openLiteral) c () next := by
  intro h
  obtain ⟨count, hread, -⟩ := exists_of_accepts_scan h
  rw [openLiteral] at hread
  dsimp only at hread
  split at hread
  · exact absurd hread (by simp)
  · split at hread <;> exact absurd hread (by simp)

theorem not_accepts_strayCharacter : ¬Accepts noCall (.scan strayCharacter) c () next := by
  intro h
  obtain ⟨count, hread, -⟩ := exists_of_accepts_scan h
  rw [strayCharacter] at hread
  dsimp only at hread
  split at hread
  · exact absurd hread (by simp)
  · split at hread <;> exact absurd hread (by simp)

end Read

section Refused

theorem refuses_identifier (h : ∀ d ∈ c.rest.head?, startsIdentifier d = false) :
    Refuses noCall identifier c := by
  refine refuses_lexeme ?_
  cases hrest : c.rest with
  | nil => rfl
  | cons d rest =>
    have hd : startsIdentifier d = false := h d (by rw [hrest]; rfl)
    rw [Lexeme.identifier, if_neg (by simp [hd])]

theorem refuses_quoted (h : ∀ d ∈ c.rest.head?, d ≠ '\'' ∧ d ≠ '"') : Refuses noCall quoted c := by
  refine refuses_lexeme ?_
  cases hrest : c.rest with
  | nil => rfl
  | cons d rest =>
    obtain ⟨hcharacter, hstring⟩ := h d (by rw [hrest]; rfl)
    exact literal_eq_none hcharacter hstring rest

theorem refuses_openLiteral (h : ∀ d ∈ c.rest.head?, d ≠ '\'' ∧ d ≠ '"') :
    Refuses noCall (.scan openLiteral) c := by
  refine refuses_scan "quote" ?_
  cases hrest : c.rest with
  | nil => rfl
  | cons d rest => simp [openLiteral, h d (by rw [hrest]; rfl)]

/-- A word is refused where another character stands first. -/
theorem refuses_word {sign : String} {first : Char} {more : List Char}
    (hsign : sign.toList = first :: more) (h : ∀ d ∈ c.rest.head?, d ≠ first) :
    Refuses noCall (word sign) c := by
  refine refuses_literal fun hprefix => ?_
  obtain ⟨rest, hrest⟩ := hprefix
  rw [hsign, List.cons_append] at hrest
  exact h first (by rw [← hrest]; rfl) rfl

theorem refuses_precedenceMark (h : ∀ d ∈ c.rest.head?, d ≠ '%') :
    Refuses noCall precedenceMark c :=
  refuses_map (refuses_both (refuses_word rfl h))

theorem refuses_actionBlock (h : ∀ d ∈ c.rest.head?, d ≠ '\x7b') :
    Refuses noCall (.scan actionBlock) c :=
  refuses_scan "action block" (read_actionBlock_of_head fun hhead => h _ hhead rfl)

theorem refuses_strayCharacter (h : ∀ d ∈ c.rest.head?, d ∈ "|;:=".toList) :
    Refuses noCall (.scan strayCharacter) c := by
  refine refuses_scan "grammar symbol" ?_
  cases hrest : c.rest with
  | nil => rfl
  | cons d rest =>
    have hd : "|;:=".toList.contains d = true :=
      List.contains_iff_mem.2 (h d (by rw [hrest]; rfl))
    rw [strayCharacter]
    dsimp only
    rw [hd, Bool.or_true, if_pos rfl]

end Refused

section Skipped

variable {p : TextParser α} {v : α} {front : List Char}

theorem skipLayout_read (h : layout text = (front, rest)) (hslash : ∀ d ∈ rest.head?, d ≠ '/') :
    skipLayout.read text = .taken front front.length := by
  cases rest with
  | nil => simp [skipLayout, h]
  | cons d rest =>
    have hd : d ≠ '/' := hslash d rfl
    simp [skipLayout, h, hd]

theorem accepts_afterLayout (h : layout c.rest = (front, rest)) (hslash : ∀ d ∈ rest.head?, d ≠ '/')
    (hbeyond : c.beyond = 0) (hp : Accepts noCall p (c.advance front.length) v next) :
    Accepts noCall (afterLayout p) c v next :=
  accepts_right (accepts_scan (skipLayout_read h hslash) hbeyond) hp

theorem refuses_afterLayout (h : layout c.rest = (front, rest)) (hslash : ∀ d ∈ rest.head?, d ≠ '/')
    (hbeyond : c.beyond = 0) (hp : Refuses noCall p (c.advance front.length)) :
    Refuses noCall (afterLayout p) c :=
  refuses_right_of_scan (skipLayout_read h hslash) hbeyond hp

theorem isLayout_of_accepts_skipLayout (h : Accepts noCall (.scan skipLayout) c front next) :
    c.rest = front ++ next.rest ∧ IsLayout (next.rest = []) front := by
  obtain ⟨count, hread, hnext⟩ := exists_of_accepts_scan h
  rw [skipLayout] at hread
  dsimp only at hread
  split at hread
  · exact absurd hread (by simp)
  · obtain ⟨rfl, rfl⟩ := Scan.taken.inj hread
    have hrest : next.rest = (layout c.rest).2 := by
      have hdrop := congrArg (List.drop (layout c.rest).1.length) (layout_append c.rest)
      rw [hnext, ← hdrop, List.drop_left]
    rw [hrest]
    exact ⟨(layout_append c.rest).symm, isLayout_layout c.rest⟩

theorem exists_of_accepts_afterLayout (h : Accepts noCall (afterLayout p) c v next) :
    ∃ front mid, c.rest = front ++ mid.rest ∧ IsLayout (mid.rest = []) front ∧
      Accepts noCall p mid v next := by
  obtain ⟨mid, front, hskip, hp⟩ := exists_of_accepts_right h
  obtain ⟨hrest, hfront⟩ := isLayout_of_accepts_skipLayout hskip
  exact ⟨front, mid, hrest, hfront, hp⟩

end Skipped

end GrammarOutline.Production
