import GrammarOutline.Proofs.Production.Lexemes

/-!
# Reading printed productions

Wherever the lexemes of an element, a rule or a production are laid out before others, its parser
accepts what they stand for and leaves the others laid out. A rule ends before the layout that a bar
or a semicolon follows.
-/
namespace GrammarOutline.Production

open Parsing Lexeme

/-- The layout at a cursor is skipped as a whole, and no comment follows it. -/
structure SkipsTo (c mid : Cursor Char) : Prop where
  beyond : c.beyond = 0
  noSlash : ∀ d ∈ mid.rest.head?, d ≠ '/'
  skipped : ∃ front, layout c.rest = (front, mid.rest) ∧ mid = c.advance front.length

variable {α : Type} {c mid next : Cursor Char} {p : TextParser α} {v : α} {lexeme rest : List Char}
  {lexemes more : List (List Char)}

section Skipping

theorem SkipsTo.accepts (h : SkipsTo c mid) (hp : Accepts noCall p mid v next) :
    Accepts noCall (afterLayout p) c v next := by
  obtain ⟨hbeyond, hslash, front, hlayout, rfl⟩ := h
  exact accepts_afterLayout hlayout hslash hbeyond hp

theorem SkipsTo.refuses (h : SkipsTo c mid) (hp : Refuses noCall p mid) :
    Refuses noCall (afterLayout p) c := by
  obtain ⟨hbeyond, hslash, front, hlayout, rfl⟩ := h
  exact refuses_afterLayout hlayout hslash hbeyond hp

theorem SkipsTo.beyond_eq (h : SkipsTo c mid) : mid.beyond = 0 := by
  obtain ⟨hbeyond, -, front, -, rfl⟩ := h
  exact hbeyond

theorem SkipsTo.size_le (h : SkipsTo c mid) : mid.size ≤ c.size := by
  obtain ⟨-, -, front, -, rfl⟩ := h
  exact Cursor.size_advance_le c _

/-- Before a lexeme the layout is skipped up to it. -/
theorem exists_skipsTo (hlaid : LaidOut False (lexeme :: more) c.rest)
    (hsolid : ∀ l ∈ lexeme :: more, IsSolid l) (hbeyond : c.beyond = 0) :
    ∃ mid rest, SkipsTo c mid ∧ StandsBefore lexeme mid.rest rest ∧ LaidOut False more rest := by
  obtain ⟨hlexeme, hmore⟩ := List.forall_mem_cons.1 hsolid
  obtain ⟨front, text, rest, hfront, htext, hstands, hrest⟩ := hlaid.exists_cons hmore
  have hmid : (c.advance front.length).rest = text := Cursor.rest_advance htext
  refine ⟨c.advance front.length, rest, ⟨hbeyond, ?_, front, ?_, rfl⟩, ?_, hrest⟩
  · rw [hmid, hstands.text_eq]
    obtain ⟨d, body, rfl, -, hslash, -⟩ := hlexeme
    rintro _ ⟨⟩
    exact hslash
  · rw [hmid, htext, hstands.text_eq]
    exact hlexeme.layout_append hfront rest
  · rw [hmid]
    exact hstands

theorem exists_skipsTo_end (hlaid : LaidOut False [] c.rest) (hbeyond : c.beyond = 0) :
    ∃ mid, SkipsTo c mid ∧ mid.rest = [] := by
  have hlayout : layout c.rest = (c.rest, []) := by
    cases hlaid with
    | last isLayout =>
      have hend : layout (c.rest ++ []) = _ := isLayout.layout_append fun _ => rfl
      simpa [layout_nil] using hend
  have hend : (c.advance c.rest.length).rest = [] := Cursor.rest_advance (List.append_nil _).symm
  refine ⟨c.advance c.rest.length, ⟨hbeyond, ?_, c.rest, ?_, rfl⟩, hend⟩
  · rw [hend]
    simp
  · rw [hend, hlayout]

/-- What holds of the first character of a lexeme holds of the first one of its text. -/
theorem forall_head_of_standsBefore {P : Char → Prop} {d : Char} {body : List Char}
    (h : StandsBefore (d :: body) c.rest rest) (hd : P d) : ∀ d ∈ c.rest.head?, P d := by
  rw [h.text_eq]
  rintro _ ⟨⟩
  exact hd

theorem size_le_of_accepts_text (h : Accepts noCall p c v next) : next.size ≤ c.size :=
  size_le_of_accepts (fun i => i.elim0) h

/-- A parser that accepts a lexeme where it stands accepts it after layout as well, and the lexemes
after it stay laid out. -/
theorem exists_accepts_afterLayout (hlaid : LaidOut False (lexeme :: more) c.rest)
    (hsolid : ∀ l ∈ lexeme :: more, IsSolid l) (hbeyond : c.beyond = 0)
    (hp : ∀ mid rest, mid.beyond = 0 → StandsBefore lexeme mid.rest rest → LaidOut False more rest →
      Accepts noCall p mid v (mid.advance lexeme.length)) :
    ∃ next, Accepts noCall (afterLayout p) c v next ∧ next.beyond = 0 ∧ next.size < c.size ∧
      LaidOut False more next.rest := by
  obtain ⟨mid, rest, hskip, hstands, hrest⟩ := exists_skipsTo hlaid hsolid hbeyond
  have hnext : (mid.advance lexeme.length).rest = rest := Cursor.rest_advance hstands.text_eq
  have hless : (mid.advance lexeme.length).size < mid.size :=
    Cursor.size_advance_lt (List.length_pos_iff.2 (hsolid lexeme List.mem_cons_self).ne_nil)
      (by simp [hstands.text_eq])
  refine ⟨_, hskip.accepts (hp mid rest hskip.beyond_eq hstands hrest), hskip.beyond_eq, ?_, ?_⟩
  · exact Nat.lt_of_lt_of_le hless hskip.size_le
  · rwa [hnext]

/-- A parser that refuses a lexeme where it stands refuses it after layout as well. -/
theorem refuses_afterLayout_of_laidOut (hlaid : LaidOut False (lexeme :: more) c.rest)
    (hsolid : ∀ l ∈ lexeme :: more, IsSolid l) (hbeyond : c.beyond = 0)
    (hp : ∀ mid rest, StandsBefore lexeme mid.rest rest → Refuses noCall p mid) :
    Refuses noCall (afterLayout p) c := by
  obtain ⟨mid, rest, hskip, hstands, -⟩ := exists_skipsTo hlaid hsolid hbeyond
  exact hskip.refuses (hp mid rest hstands)

end Skipping

section Elements

variable {e : Option Element} {text : List Char}

theorem accepts_precedenceMark (hmark : StandsBefore "%prec".toList c.rest rest)
    (hlaid : LaidOut False (text :: more) rest) (hsymbol : IsIdentifier text ∨ IsLiteral false text)
    (hmore : ∀ l ∈ more, IsSolid l) (hbeyond : c.beyond = 0) :
    ∃ next, Accepts noCall precedenceMark c text next ∧ next.beyond = 0 ∧ next.size < c.size ∧
      LaidOut False more next.rest := by
  have hsolid : IsSolid text := hsymbol.elim IsIdentifier.isSolid IsLiteral.isSolid
  have hnext : (c.advance "%prec".toList.length).rest = rest := Cursor.rest_advance hmark.text_eq
  rw [← hnext] at hlaid
  obtain ⟨next, hread, hbeyond', hless, hlaid'⟩ := exists_accepts_afterLayout hlaid
    (List.forall_mem_cons.2 ⟨hsolid, hmore⟩) hbeyond fun mid rest hbeyond hstands _ => by
      show Accepts noCall (.either identifier quoted) mid text _
      rcases hsymbol with hname | hliteral
      · exact accepts_either_iff.2 (.inl (accepts_identifier hstands hname hbeyond))
      · refine accepts_either_iff.2 (.inr ⟨?_, accepts_quoted hstands hliteral hbeyond⟩)
        obtain ⟨d, body, rfl, hd⟩ := hliteral.exists_head
        refine refuses_identifier (forall_head_of_standsBefore hstands ?_)
        rcases hd with rfl | rfl <;> decide
  refine ⟨next, accepts_right (accepts_word hmark hbeyond) hread, hbeyond', ?_, hlaid'⟩
  exact Nat.lt_of_lt_of_le hless (Cursor.size_advance_le c _)

theorem DerivesElement.accepts (h : DerivesElement lexemes e) (hmore : ∀ l ∈ more, IsSolid l)
    (hlaid : LaidOut False (lexemes ++ more) c.rest) (hbeyond : c.beyond = 0) :
    ∃ next, Accepts noCall element c e next ∧ next.beyond = 0 ∧ next.size < c.size ∧
      LaidOut False more next.rest := by
  have hsolid : ∀ l ∈ lexemes ++ more, IsSolid l :=
    List.forall_mem_append.2 ⟨fun l hl => (h.isRuleLexeme l hl).isSolid, hmore⟩
  cases h with
  | @name text isIdentifier =>
    refine exists_accepts_afterLayout hlaid hsolid hbeyond fun mid rest hbeyond hstands _ => ?_
    have hhead : ∀ d ∈ mid.rest.head?, d ∉ ['\'', '"', '%', '\x7b'] := by
      match text, isIdentifier with
      | d :: body, isIdentifier =>
        refine forall_head_of_standsBefore hstands fun hd => ?_
        have hothers : (['\'', '"', '%', '\x7b'].any startsIdentifier) = false := by decide
        exact List.any_eq_false.1 hothers d hd isIdentifier.1
    have hquote : ∀ d ∈ mid.rest.head?, d ≠ '\'' ∧ d ≠ '"' :=
      fun d hd => ⟨fun e => hhead d hd (by simp [e]), fun e => hhead d hd (by simp [e])⟩
    have hpercent : ∀ d ∈ mid.rest.head?, d ≠ '%' := fun d hd e => hhead d hd (by simp [e])
    have hbrace : ∀ d ∈ mid.rest.head?, d ≠ '\x7b' := fun d hd e => hhead d hd (by simp [e])
    refine accepts_label_iff.2
      (accepts_choice_later [_, _, _] (refuses_map (refuses_quoted hquote)) ?_
        (accepts_map_iff.2 ⟨text, rfl, accepts_identifier hstands isIdentifier hbeyond⟩))
    exact List.forall_mem_cons.2 ⟨refuses_map (refuses_openLiteral hquote), List.forall_mem_cons.2
      ⟨refuses_map (refuses_precedenceMark hpercent),
        List.forall_mem_singleton.2 (refuses_map (refuses_actionBlock hbrace))⟩⟩
  | @literal text isLiteral =>
    refine exists_accepts_afterLayout hlaid hsolid hbeyond fun mid rest hbeyond hstands _ => ?_
    exact accepts_label_iff.2 (accepts_choice_first
      (accepts_map_iff.2 ⟨text, rfl, accepts_quoted hstands isLiteral hbeyond⟩))
  | @action text isBlock =>
    refine exists_accepts_afterLayout hlaid hsolid hbeyond fun mid rest hbeyond hstands _ => ?_
    have hhead : ∀ d ∈ mid.rest.head?, d = '\x7b' := by
      obtain ⟨body, -, rfl⟩ := isBlock
      exact forall_head_of_standsBefore hstands rfl
    have hquote : ∀ d ∈ mid.rest.head?, d ≠ '\'' ∧ d ≠ '"' := fun d hd => by
      rw [hhead d hd]
      decide
    have hpercent : ∀ d ∈ mid.rest.head?, d ≠ '%' := fun d hd => by
      rw [hhead d hd]
      decide
    refine accepts_label_iff.2 (accepts_choice_later [_, _] (refuses_map (refuses_quoted hquote)) ?_
      (accepts_map_iff.2 ⟨(), rfl, accepts_actionBlock hstands isBlock hbeyond⟩))
    exact List.forall_mem_cons.2 ⟨refuses_map (refuses_openLiteral hquote),
      List.forall_mem_singleton.2 (refuses_map (refuses_precedenceMark hpercent))⟩
  | @precedence text isSymbol =>
    obtain ⟨mid, rest, hskip, hstands, hrest⟩ := exists_skipsTo hlaid hsolid hbeyond
    have hquote : ∀ d ∈ mid.rest.head?, d ≠ '\'' ∧ d ≠ '"' :=
      forall_head_of_standsBefore hstands (by decide)
    obtain ⟨next, hread, hbeyond', hless, hlaid'⟩ :=
      accepts_precedenceMark hstands hrest isSymbol hmore hskip.beyond_eq
    exact ⟨next, hskip.accepts (accepts_label_iff.2 (accepts_choice_later [_]
      (refuses_map (refuses_quoted hquote))
      (List.forall_mem_singleton.2 (refuses_map (refuses_openLiteral hquote)))
      (accepts_map_iff.2 ⟨text, rfl, hread⟩))),
      hbeyond', Nat.lt_of_lt_of_le hless hskip.size_le, hlaid'⟩

/-- The lexemes after which a rule is at its end. -/
def EndsRule (lexeme : List Char) : Prop := lexeme = "|".toList ∨ lexeme = ";".toList

theorem EndsRule.isSolid (h : EndsRule lexeme) : IsSolid lexeme := by
  rcases h with rfl | rfl <;> exact isSolid_cons (by decide) (by decide) (by decide) _

theorem EndsRule.refuses_element (h : EndsRule lexeme) (hmore : ∀ l ∈ more, IsSolid l)
    (hlaid : LaidOut False (lexeme :: more) c.rest) (hbeyond : c.beyond = 0) :
    Refuses noCall Production.element c := by
  refine refuses_afterLayout_of_laidOut hlaid (List.forall_mem_cons.2 ⟨h.isSolid, hmore⟩) hbeyond
    fun mid rest hstands => ?_
  have hfirst : ∀ {P : Char → Prop}, P '|' → P ';' → ∀ d ∈ mid.rest.head?, P d := by
    intro P hbar hsemicolon
    rcases h with rfl | rfl
    · exact forall_head_of_standsBefore hstands hbar
    · exact forall_head_of_standsBefore hstands hsemicolon
  refine refuses_label (refuses_choice
    (refuses_map (refuses_quoted (hfirst (by decide) (by decide)))) ?_)
  simp only [List.forall_mem_cons]
  exact ⟨refuses_map (refuses_openLiteral (hfirst (by decide) (by decide))),
    refuses_map (refuses_precedenceMark (hfirst (by decide) (by decide))),
    refuses_map (refuses_actionBlock (hfirst (by decide) (by decide))),
    refuses_map (refuses_identifier (hfirst (by decide) (by decide))),
    refuses_map (refuses_strayCharacter (hfirst (by decide) (by decide))), by simp⟩

end Elements

section Rules

variable {row : Rule} {rows : List Rule}

/-- What stands for a rule is read up to the lexeme that ends it. -/
theorem DerivesRule.accepts (h : DerivesRule lexemes row) (hends : EndsRule lexeme)
    (hmore : ∀ l ∈ more, IsSolid l) (hlaid : LaidOut False (lexemes ++ lexeme :: more) c.rest)
    (hbeyond : c.beyond = 0) : ∃ next, Accepts noCall rule c row next ∧ next.beyond = 0 ∧
      LaidOut False (lexeme :: more) next.rest := by
  have hmany : ∃ elements next, elements.filterMap id = row ∧
      Accepts noCall (.many Production.element) c elements next ∧ next.beyond = 0 ∧
      LaidOut False (lexeme :: more) next.rest := by
    induction h generalizing c with
    | nothing =>
      exact ⟨[], c, rfl, accepts_many_nil (hends.refuses_element hmore hlaid hbeyond),
        hbeyond, hlaid⟩
    | @element lexemes others e row isElement derived ih =>
      have hsolid : ∀ l ∈ others ++ lexeme :: more, IsSolid l :=
        List.forall_mem_append.2 ⟨fun l hl => (derived.isRuleLexeme l hl).isSolid,
          List.forall_mem_cons.2 ⟨hends.isSolid, hmore⟩⟩
      rw [List.append_assoc] at hlaid
      obtain ⟨mid, hread, hmid, hless, hlaid'⟩ := isElement.accepts hsolid hlaid hbeyond
      obtain ⟨elements, next, rfl, hothers, hnext, hrest⟩ := ih hlaid' hmid
      refine ⟨e :: elements, next, ?_, accepts_many_cons hread hless hothers, hnext, hrest⟩
      cases e <;> rfl
  obtain ⟨elements, next, hrow, haccepts, hnext, hrest⟩ := hmany
  exact ⟨next, accepts_map_iff.2 ⟨elements, hrow, haccepts⟩, hnext, hrest⟩

/-- What stands for rules with bars between them is read up to the semicolon. -/
theorem DerivesRules.accepts (h : DerivesRules lexemes rows) (hmore : ∀ l ∈ more, IsSolid l)
    (hlaid : LaidOut False (lexemes ++ ";".toList :: more) c.rest) (hbeyond : c.beyond = 0) :
    ∃ next, Accepts noCall ruleList c rows next ∧ next.beyond = 0 ∧
      LaidOut False (";".toList :: more) next.rest := by
  have hstop : ∀ l ∈ ";".toList :: more, IsSolid l :=
    List.forall_mem_cons.2 ⟨isSolid_semicolon, hmore⟩
  induction h generalizing c with
  | last isRule =>
    obtain ⟨next, hread, hnext, hrest⟩ := isRule.accepts (.inr rfl) hmore hlaid hbeyond
    have hbar : Refuses noCall (afterLayout (word "|")) next :=
      refuses_afterLayout_of_laidOut hrest hstop hnext fun mid rest hstands =>
        refuses_word rfl (forall_head_of_standsBefore hstands (by decide))
    exact ⟨next, accepts_sepBy1_iff.2 ⟨_, [], next, rfl, hread,
      accepts_many_nil (refuses_map (refuses_both hbar))⟩, hnext, hrest⟩
  | @bar lexemes others row rows isRule derived ih =>
    have hsolid : ∀ l ∈ others ++ ";".toList :: more, IsSolid l :=
      List.forall_mem_append.2 ⟨fun l hl => (derived.isRuleLexeme l hl).isSolid, hstop⟩
    have hends : EndsRule "|".toList := .inl rfl
    rw [List.append_assoc, List.cons_append] at hlaid
    obtain ⟨mid, hread, hmid, hlaidBar⟩ := isRule.accepts hends hsolid hlaid hbeyond
    obtain ⟨after, hbar, hafter, hless, hlaid'⟩ := exists_accepts_afterLayout hlaidBar
      (List.forall_mem_cons.2 ⟨hends.isSolid, hsolid⟩) hmid fun mid rest hbeyond hstands _ =>
        accepts_word hstands hbeyond
    obtain ⟨next, hothers, hnext, hrest⟩ := ih hlaid' hafter
    obtain ⟨v, vs, last, rfl, hv, hmany⟩ := accepts_sepBy1_iff.1 hothers
    have hlast : last.size < mid.size := Nat.lt_of_le_of_lt (size_le_of_accepts_text hv) hless
    exact ⟨next, accepts_sepBy1_iff.2 ⟨row, v :: vs, mid, rfl, hread,
      accepts_many_cons (accepts_right hbar hv) hlast hmany⟩, hnext, hrest⟩

end Rules

section Productions

variable {ps : List Production} {rows : List Rule}

theorem IsRuleLexeme.head_ne_colon (h : IsRuleLexeme lexeme) : ∀ d ∈ lexeme.head?, d ≠ ':' := by
  rcases h with h | h | h | rfl | rfl
  · cases lexeme with
    | nil => exact h.elim
    | cons d body =>
      rintro _ ⟨⟩ rfl
      exact absurd h.1 (by decide)
  · obtain ⟨d, body, rfl, hd⟩ := h.exists_head
    rintro _ ⟨⟩ rfl
    exact absurd hd (by decide)
  · obtain ⟨body, -, rfl⟩ := h
    rintro _ ⟨⟩
    decide
  · rintro _ ⟨⟩
    decide
  · rintro _ ⟨⟩
    decide

theorem DerivesRules.head_ne_colon (h : DerivesRules lexemes rows)
    (hlaid : LaidOut False (lexemes ++ ";".toList :: more) rest) : ∀ d ∈ rest.head?, d ≠ ':' := by
  refine hlaid.forall_head ?_ ?_
  · rintro d hd rfl
    exact absurd hd (by decide)
  · cases lexemes with
    | nil =>
      rintro _ ⟨⟩
      refine ⟨isSolid_semicolon.ne_nil, ?_⟩
      rintro _ ⟨⟩
      decide
    | cons first lexemes =>
      rintro _ ⟨⟩
      have hfirst : IsRuleLexeme first := h.isRuleLexeme first List.mem_cons_self
      exact ⟨hfirst.isSolid.ne_nil, hfirst.head_ne_colon⟩

/-- The sign after a name is read. A colon is read by itself where no other colon follows. -/
theorem accepts_sign {text : List Char} (hsign : IsDefinitionSign text)
    (hmore : ∀ l ∈ more, IsSolid l)
    (hcolon : ∀ rest, LaidOut False more rest → ∀ d ∈ rest.head?, d ≠ ':')
    (hlaid : LaidOut False (text :: more) c.rest) (hbeyond : c.beyond = 0) :
    ∃ next, Accepts noCall sign c text next ∧ next.beyond = 0 ∧ next.size < c.size ∧
      LaidOut False more next.rest := by
  refine exists_accepts_afterLayout hlaid (List.forall_mem_cons.2 ⟨hsign.isSolid, hmore⟩) hbeyond
    fun mid rest hbeyond hstands hrest => accepts_label_iff.2 ?_
  rcases hsign with rfl | rfl | rfl
  · have hlong : Refuses noCall (word "::=") mid := by
      refine refuses_literal ?_
      rw [hstands.text_eq]
      rintro ⟨others, hothers⟩
      have hfirst : rest = ':' :: '=' :: others := (List.cons.inj hothers).2.symm
      exact hcolon rest hrest ':' (by rw [hfirst]; rfl) rfl
    exact accepts_either_iff.2 (.inl (accepts_either_iff.2
      (.inr ⟨hlong, accepts_word hstands hbeyond⟩)))
  · exact accepts_either_iff.2 (.inl (accepts_either_iff.2 (.inl (accepts_word hstands hbeyond))))
  · have hfirst : ∀ d ∈ mid.rest.head?, d ≠ ':' := forall_head_of_standsBefore hstands (by decide)
    exact accepts_either_iff.2 (.inr ⟨refuses_either (refuses_word rfl hfirst)
      (refuses_word rfl hfirst), accepts_word hstands hbeyond⟩)

theorem accepts_production {name text : List Char} (hname : IsIdentifier name)
    (hsign : IsDefinitionSign text) (hbody : DerivesRules lexemes rows)
    (hmore : ∀ l ∈ more, IsSolid l)
    (hlaid : LaidOut False (name :: text :: (lexemes ++ ";".toList :: more)) c.rest)
    (hbeyond : c.beyond = 0) : ∃ next, Accepts noCall production c ⟨String.ofList name, rows⟩ next ∧
      next.beyond = 0 ∧ next.size < c.size ∧ LaidOut False more next.rest := by
  have hstop : ∀ l ∈ ";".toList :: more, IsSolid l :=
    List.forall_mem_cons.2 ⟨isSolid_semicolon, hmore⟩
  have hrules : ∀ l ∈ lexemes ++ ";".toList :: more, IsSolid l :=
    List.forall_mem_append.2 ⟨fun l hl => (hbody.isRuleLexeme l hl).isSolid, hstop⟩
  obtain ⟨c₁, hread₁, hbeyond₁, hless₁, hlaid₁⟩ := exists_accepts_afterLayout hlaid
    (List.forall_mem_cons.2 ⟨hname.isSolid, List.forall_mem_cons.2 ⟨hsign.isSolid, hrules⟩⟩) hbeyond
    fun mid rest hbeyond hstands _ =>
      (accepts_label_iff.2 (accepts_identifier hstands hname hbeyond) :
        Accepts noCall (.label identifier "production name") mid name _)
  obtain ⟨c₂, hread₂, hbeyond₂, -, hlaid₂⟩ := accepts_sign hsign hrules
    (fun _ hlaid => hbody.head_ne_colon hlaid) hlaid₁ hbeyond₁
  obtain ⟨c₃, hread₃, hbeyond₃, hlaid₃⟩ := hbody.accepts hmore hlaid₂ hbeyond₂
  obtain ⟨next, hread₄, hbeyond₄, -, hlaid₄⟩ := exists_accepts_afterLayout hlaid₃ hstop hbeyond₃
    fun mid rest hbeyond hstands _ =>
      (accepts_label_iff.2 (accepts_word hstands hbeyond) :
        Accepts noCall (.label (word ";") "';' after production") mid ";".toList _)
  have hbody := accepts_right hread₂ (accepts_left hread₃ hread₄)
  refine ⟨next, accepts_map_iff.2 ⟨(name, rows), rfl, accepts_both_iff.2
    ⟨c₁, hread₁, accepts_commit_iff.2 hbody⟩⟩, hbeyond₄, ?_, hlaid₄⟩
  exact Nat.lt_of_le_of_lt (size_le_of_accepts_text hbody) hless₁

theorem DerivesAll.accepts (h : DerivesAll lexemes ps) (hlaid : LaidOut False lexemes c.rest)
    (hbeyond : c.beyond = 0) : ∃ next, Accepts noCall productions c ps next := by
  have hmany : ∃ mid, Accepts noCall (.many production) c ps mid ∧ mid.beyond = 0 ∧
      LaidOut False [] mid.rest := by
    induction h generalizing c with
    | nil =>
      obtain ⟨mid, hskip, hend⟩ := exists_skipsTo_end hlaid hbeyond
      have hname : Refuses noCall (afterLayout (.label identifier "production name")) c :=
        hskip.refuses (refuses_label (refuses_identifier (by simp [hend])))
      exact ⟨c, accepts_many_nil (refuses_map (refuses_both hname)), hbeyond, hlaid⟩
    | cons isIdentifier isSign body others ih =>
      obtain ⟨mid, hread, hmid, hless, hlaid'⟩ :=
        accepts_production isIdentifier isSign body others.isSolid hlaid hbeyond
      obtain ⟨next, hmany, hnext, hlast⟩ := ih hlaid' hmid
      exact ⟨next, accepts_many_cons hread hless hmany, hnext, hlast⟩
  obtain ⟨mid, hread, hmid, hlast⟩ := hmany
  obtain ⟨last, hskip, hend⟩ := exists_skipsTo_end hlast hmid
  have hlayout : Accepts noCall (afterLayout .endOfInput) mid () last :=
    hskip.accepts (accepts_endOfInput hend hskip.beyond_eq)
  obtain ⟨after, front, hfront, hend⟩ := exists_of_accepts_right hlayout
  exact ⟨last, accepts_left (accepts_left hread hfront) hend⟩

end Productions

end GrammarOutline.Production
