import GrammarOutline.Proofs.Lexeme
import GrammarOutline.Proofs.Text.Lines

/-!
# Layout between lexemes

Layout is made of blanks, closed block comments and line comments. A line comment runs to a line
feed, or to the end of the text. A text is laid out when its lexemes stand in order with layout
around them, and two identifiers in a row do not touch. The reader of layout takes all of it, and
nothing else.
-/
namespace GrammarOutline.Lexeme

/-- Blanks and comments. A line comment ends with its line feed, unless it is the last one at the
end of the text. -/
inductive IsLayout (atEnd : Prop) : List Char → Prop where
  | nil : IsLayout atEnd []
  | blank {c : Char} {rest : List Char} (isBlank : Text.isBlank c = true)
      (others : IsLayout atEnd rest) : IsLayout atEnd (c :: rest)
  | blockComment {body rest : List Char} (isOpen : ¬['*', '/'] <:+: body)
      (others : IsLayout atEnd rest) : IsLayout atEnd ('/' :: '*' :: (body ++ '*' :: '/' :: rest))
  | lineComment {body rest : List Char} (oneLine : '\n' ∉ body) (others : IsLayout atEnd rest) :
      IsLayout atEnd ('/' :: '/' :: (body ++ '\n' :: rest))
  | lastComment {body : List Char} (isEnd : atEnd) (oneLine : '\n' ∉ body) :
      IsLayout atEnd ('/' :: '/' :: body)

/-- The lexemes stand in the text in their order, with layout before each of them and after the
last. Between two identifiers there has to be some. `afterIdentifier` says whether the text comes
after one. -/
inductive LaidOut : (afterIdentifier : Prop) → List (List Char) → List Char → Prop where
  | last {afterIdentifier : Prop} {layout : List Char} (isLayout : IsLayout True layout) :
      LaidOut afterIdentifier [] layout
  | next {afterIdentifier : Prop} {layout lexeme rest : List Char} {lexemes : List (List Char)}
      (isLayout : IsLayout False layout)
      (apart : afterIdentifier → IsIdentifier lexeme → layout ≠ [])
      (others : LaidOut (IsIdentifier lexeme) lexemes rest) :
      LaidOut afterIdentifier (lexeme :: lexemes) (layout ++ (lexeme ++ rest))

/-- The lexeme stands at the front of the text, before `rest`. If it is an identifier, it ends
there. -/
structure StandsBefore (lexeme text rest : List Char) : Prop where
  text_eq : text = lexeme ++ rest
  ends : IsIdentifier lexeme → EndsIdentifier rest

section Pieces

variable {body rest : List Char}

theorem upToCommentEnd_append (h : ¬['*', '/'] <:+: body) (rest : List Char) :
    upToCommentEnd (body ++ '*' :: '/' :: rest) = some (body ++ ['*', '/'], rest) := by
  induction body with
  | nil => rfl
  | cons c body ih =>
    rw [List.infix_cons_iff, not_or] at h
    rw [List.cons_append, upToCommentEnd, ih h.2]
    · rfl
    · rintro more rfl hmore
      cases body with
      | nil => simp at hmore
      | cons d body =>
        obtain ⟨rfl, -⟩ := List.cons.inj hmore
        exact h.1 (by simp)

theorem exists_body_of_upToCommentEnd {text front : List Char}
    (h : upToCommentEnd text = some (front, rest)) :
    ∃ body, ¬['*', '/'] <:+: body ∧ front = body ++ ['*', '/'] := by
  fun_induction upToCommentEnd text generalizing front rest with
  | case1 =>
    simp only [Option.some.injEq, Prod.mk.injEq] at h
    exact ⟨[], by simp, h.1.symm⟩
  | case2 c text hend ih =>
    simp only [Option.map_eq_some_iff, Prod.mk.injEq] at h
    obtain ⟨⟨f, r⟩, hr, rfl, rfl⟩ := h
    obtain ⟨body, hbody, rfl⟩ := ih hr
    refine ⟨c :: body, ?_, rfl⟩
    rw [List.infix_cons_iff, not_or]
    refine ⟨?_, hbody⟩
    rintro ⟨more, hmore⟩
    obtain ⟨rfl, rfl⟩ := List.cons.inj hmore
    obtain ⟨-, rfl⟩ := upToCommentEnd_proper _ _ _ hr
    exact hend _ rfl rfl
  | case3 => simp at h

theorem layoutPiece_blank {c : Char} (h : Text.isBlank c = true) (rest : List Char) :
    layoutPiece (c :: rest) =
      some (c :: rest.takeWhile Text.isBlank, rest.dropWhile Text.isBlank) := by
  simp [layoutPiece, blanks, h]

theorem layoutPiece_blockComment (h : ¬['*', '/'] <:+: body) (rest : List Char) :
    layoutPiece ('/' :: '*' :: (body ++ '*' :: '/' :: rest)) =
      some ('/' :: '*' :: (body ++ ['*', '/']), rest) := by
  have hblanks : blanks ('/' :: '*' :: (body ++ '*' :: '/' :: rest)) = none := by
    simp [blanks, (by decide : Text.isBlank '/' = false)]
  rw [layoutPiece, hblanks, blockComment, upToCommentEnd_append h]
  rfl

theorem layoutPiece_lineComment (rest : List Char) : layoutPiece ('/' :: '/' :: rest) =
    some ('/' :: '/' :: rest.takeWhile (· != '\n'), rest.dropWhile (· != '\n')) := by
  have hblanks : blanks ('/' :: '/' :: rest) = none := by
    simp [blanks, (by decide : Text.isBlank '/' = false)]
  rw [layoutPiece, hblanks]
  rfl

end Pieces

section Taken

variable {atEnd : Prop} {text front rest : List Char}

theorem layout_eq (text : List Char) : layout text =
    match layoutPiece text with
    | none => ([], text)
    | some (front, rest) => (front ++ (layout rest).1, (layout rest).2) := by
  fun_cases layout text with
  | case1 hnone => rw [hnone]
  | case2 front rest hpiece _ more rest' hmore => simp only [hpiece, hmore]

theorem layout_of_layoutPiece (h : layoutPiece text = some (front, rest)) :
    layout text = (front ++ (layout rest).1, (layout rest).2) := by
  rw [layout_eq, h]

theorem layout_of_layoutPiece_none (h : layoutPiece text = none) : layout text = ([], text) := by
  rw [layout_eq, h]

theorem layout_nil : layout [] = ([], []) := layout_of_layoutPiece_none rfl

theorem layout_blank {c : Char} (h : Text.isBlank c = true) (rest : List Char) :
    layout (c :: rest) = (c :: (layout rest).1, (layout rest).2) := by
  rw [layout_of_layoutPiece (layoutPiece_blank h rest)]
  cases rest with
  | nil => rfl
  | cons d rest =>
    by_cases hd : Text.isBlank d = true
    · rw [layout_of_layoutPiece (layoutPiece_blank hd rest)]
      simp [hd]
    · simp [hd]

/-- Layout at the front is taken with the layout after it. -/
theorem IsLayout.layout_append (h : IsLayout atEnd front) (hend : atEnd → rest = []) :
    layout (front ++ rest) = (front ++ (layout rest).1, (layout rest).2) := by
  induction h with
  | nil => rfl
  | blank isBlank _ ih => rw [List.cons_append, layout_blank isBlank, ih, List.cons_append]
  | blockComment isOpen _ ih =>
    simp only [List.cons_append, List.append_assoc]
    rw [layout_of_layoutPiece (layoutPiece_blockComment isOpen _), ih]
    simp
  | lineComment oneLine _ ih =>
    simp only [List.cons_append, List.append_assoc]
    rw [layout_of_layoutPiece (layoutPiece_lineComment _), (Text.takeWhile_of_oneLine oneLine _).1,
      (Text.takeWhile_of_oneLine oneLine _).2]
    simp [layout_blank (by decide : Text.isBlank '\n' = true), ih]
  | lastComment isEnd oneLine =>
    rw [hend isEnd, List.cons_append, List.cons_append,
      layout_of_layoutPiece (layoutPiece_lineComment _), (Text.takeWhile_of_oneLine oneLine _).1,
      (Text.takeWhile_of_oneLine oneLine _).2]
    simp [layout_nil]

/-- No layout is left. -/
theorem layoutPiece_layout (text : List Char) : layoutPiece (layout text).2 = none := by
  fun_induction layout text with
  | case1 text h => exact h
  | case2 text front rest _ _ more rest' hmore ih =>
    rw [hmore] at ih
    exact ih

theorem isLayout_append (hfront : ∀ c ∈ front, Text.isBlank c = true) (h : IsLayout atEnd rest) :
    IsLayout atEnd (front ++ rest) := by
  induction front with
  | nil => exact h
  | cons c front ih =>
    simp only [List.mem_cons, forall_eq_or_imp] at hfront
    exact .blank hfront.1 (ih hfront.2)

theorem IsLayout.of_blank {c : Char} (hc : Text.isBlank c = true) (h : IsLayout atEnd (c :: rest)) :
    IsLayout atEnd rest := by
  cases h with
  | blank _ others => exact others
  | blockComment => exact absurd hc (by decide)
  | lineComment => exact absurd hc (by decide)
  | lastComment => exact absurd hc (by decide)

theorem isLayout_layoutPiece (h : layoutPiece text = some (front, rest))
    (hrest : IsLayout ((layout rest).2 = []) (layout rest).1) :
    IsLayout ((layout rest).2 = []) (front ++ (layout rest).1) := by
  rw [layoutPiece, Option.or_eq_some_iff, Option.or_eq_some_iff] at h
  rcases h with (h | ⟨-, h⟩) | ⟨-, h⟩
  · simp only [blanks, Option.ite_none_left_eq_some, Option.some.injEq, Prod.mk.injEq] at h
    rw [← h.2.1]
    exact isLayout_append (fun c hc => List.mem_takeWhile_imp hc) hrest
  · obtain ⟨inner, taken, rfl, rfl, htaken⟩ := blockComment_eq_some h
    obtain ⟨body, hbody, rfl⟩ := exists_body_of_upToCommentEnd htaken
    have hcomment := IsLayout.blockComment hbody hrest
    simpa using hcomment
  · obtain ⟨line, rfl, rfl, rfl⟩ := lineComment_eq_some h
    have hline : '\n' ∉ line.takeWhile (· != '\n') := fun hc => by
      simpa using List.mem_takeWhile_imp hc
    cases hafter : line.dropWhile (· != '\n') with
    | nil =>
      rw [layout_nil, List.append_nil]
      exact .lastComment rfl hline
    | cons c more =>
      have hc : c = '\n' := by
        have hhead := List.head?_dropWhile_not (· != '\n') line
        simpa [hafter] using hhead
      rw [hafter, hc, layout_blank (by decide)] at hrest
      rw [hc, layout_blank (by decide)]
      exact .lineComment hline (hrest.of_blank (by decide))

theorem isLayout_layout (text : List Char) : IsLayout ((layout text).2 = []) (layout text).1 := by
  fun_induction layout text with
  | case1 => exact .nil
  | case2 text front rest hpiece _ more rest' hmore ih =>
    have hlayout := isLayout_layoutPiece hpiece (hmore ▸ ih)
    rwa [hmore] at hlayout

end Taken

section Solid

/-- No layout starts like the lexeme, and only an identifier starts with a character that would go
on with another one. -/
def IsSolid (lexeme : List Char) : Prop :=
  ∃ c rest, lexeme = c :: rest ∧ Text.isBlank c = false ∧ c ≠ '/' ∧
    (continuesIdentifier c = true → IsIdentifier lexeme)

variable {atEnd afterIdentifier : Prop} {text lexeme rest : List Char} {lexemes : List (List Char)}

theorem isSolid_cons {c : Char} (hblank : Text.isBlank c = false) (hslash : c ≠ '/')
    (hends : continuesIdentifier c = false) (rest : List Char) : IsSolid (c :: rest) :=
  ⟨c, rest, rfl, hblank, hslash, fun hc => absurd (hends.symm.trans hc) (by decide)⟩

theorem IsIdentifier.isSolid (h : IsIdentifier lexeme) : IsSolid lexeme := by
  cases lexeme with
  | nil => exact h.elim
  | cons c rest =>
    obtain ⟨hblank, hslash⟩ := isBlank_of_continuesIdentifier (continuesIdentifier_of_starts h.1)
    exact ⟨c, rest, rfl, hblank, hslash, fun _ => h⟩

theorem IsLiteral.isSolid {joinsLines : Bool} (h : IsLiteral joinsLines lexeme) :
    IsSolid lexeme := by
  obtain ⟨c, rest, rfl, rfl | rfl⟩ := h.exists_head <;>
    exact isSolid_cons (by decide) (by decide) (by decide) _

theorem IsSolid.ne_nil (h : IsSolid lexeme) : lexeme ≠ [] := by
  obtain ⟨c, rest, rfl, -⟩ := h
  simp

/-- No layout is taken before a lexeme. -/
theorem IsSolid.layoutPiece_append (h : IsSolid lexeme) (rest : List Char) :
    layoutPiece (lexeme ++ rest) = none := by
  obtain ⟨c, front, rfl, hblank, hslash, -⟩ := h
  exact layoutPiece_eq_none hblank hslash (front ++ rest)

/-- The layout before a lexeme is taken as a whole. -/
theorem IsSolid.layout_append (h : IsSolid lexeme) {front : List Char}
    (hfront : IsLayout False front) (rest : List Char) :
    layout (front ++ (lexeme ++ rest)) = (front, lexeme ++ rest) := by
  rw [hfront.layout_append False.elim, layout_of_layoutPiece_none (h.layoutPiece_append rest)]
  simp

theorem IsLayout.exists_head (h : IsLayout atEnd text) (hne : text ≠ []) :
    ∃ c rest, text = c :: rest ∧ (Text.isBlank c = true ∨ c = '/') := by
  cases h with
  | nil => exact absurd rfl hne
  | blank isBlank _ => exact ⟨_, _, rfl, .inl isBlank⟩
  | blockComment => exact ⟨'/', _, rfl, .inr rfl⟩
  | lineComment => exact ⟨'/', _, rfl, .inr rfl⟩
  | lastComment => exact ⟨'/', _, rfl, .inr rfl⟩

theorem IsLayout.endsIdentifier (h : IsLayout atEnd text) (hne : text ≠ []) (rest : List Char) :
    EndsIdentifier (text ++ rest) := by
  obtain ⟨c, more, rfl, hc⟩ := h.exists_head hne
  rintro _ ⟨⟩
  refine Bool.eq_false_iff.2 fun hcontinues => ?_
  obtain ⟨hblank, hslash⟩ := isBlank_of_continuesIdentifier hcontinues
  rcases hc with hc | hc
  · rw [hc] at hblank
    exact absurd hblank (by decide)
  · exact hslash hc

/-- A laid out text that comes after an identifier does not go on with it. -/
theorem LaidOut.endsIdentifier (h : LaidOut afterIdentifier lexemes text)
    (hsolid : ∀ lexeme ∈ lexemes, IsSolid lexeme) (hafter : afterIdentifier) :
    EndsIdentifier text := by
  cases h with
  | last isLayout =>
    by_cases hne : text = []
    · rw [hne]
      exact fun c hc => absurd hc (by simp)
    · simpa using isLayout.endsIdentifier hne []
  | @next _ layout lexeme rest lexemes isLayout apart _ =>
    by_cases hne : layout = []
    · obtain ⟨c, front, hlexeme, -, -, hcontinues⟩ := hsolid lexeme List.mem_cons_self
      rw [hne, List.nil_append, hlexeme]
      rintro _ ⟨⟩
      refine Bool.eq_false_iff.2 fun hc => ?_
      exact apart hafter (hcontinues hc) hne
    · exact isLayout.endsIdentifier hne _

/-- A laid out text starts like layout or like its first lexeme. -/
theorem LaidOut.forall_head {P : Char → Prop} (h : LaidOut afterIdentifier lexemes text)
    (hlayout : ∀ c, Text.isBlank c = true ∨ c = '/' → P c)
    (hlexeme : ∀ lexeme ∈ lexemes.head?, lexeme ≠ [] ∧ ∀ c ∈ lexeme.head?, P c) :
    ∀ c ∈ text.head?, P c := by
  have hfront : ∀ {atEnd : Prop} {front : List Char} (rest : List Char), IsLayout atEnd front →
      front ≠ [] → ∀ c ∈ (front ++ rest).head?, P c := by
    intro atEnd front rest hfront hne
    obtain ⟨c, more, rfl, hc⟩ := hfront.exists_head hne
    rintro _ ⟨⟩
    exact hlayout c hc
  cases h with
  | last isLayout =>
    by_cases hne : text = []
    · simp [hne]
    · simpa using hfront [] isLayout hne
  | @next _ layout lexeme rest lexemes isLayout _ _ =>
    by_cases hne : layout = []
    · obtain ⟨hlexeme, hhead⟩ := hlexeme lexeme rfl
      rw [hne, List.nil_append]
      cases lexeme with
      | nil => exact absurd rfl hlexeme
      | cons c lexeme =>
        rintro _ ⟨⟩
        exact hhead c rfl
    · exact hfront _ isLayout hne

/-- A text that does not go on with an identifier may come after one. -/
theorem LaidOut.of_endsIdentifier (h : LaidOut afterIdentifier lexemes text)
    (hends : EndsIdentifier text) (afterIdentifier' : Prop) :
    LaidOut afterIdentifier' lexemes text := by
  cases h with
  | last isLayout => exact .last isLayout
  | @next _ layout lexeme rest lexemes isLayout _ others =>
    refine .next isLayout (fun _ hname hlayout => ?_) others
    rw [hlayout, List.nil_append] at hends
    cases lexeme with
    | nil => exact hname
    | cons c lexeme =>
      have hc : continuesIdentifier c = false := hends c rfl
      rw [continuesIdentifier_of_starts hname.1] at hc
      exact absurd hc (by decide)

theorem LaidOut.of_not (h : LaidOut afterIdentifier lexemes text) {afterIdentifier' : Prop}
    (hafter : ¬afterIdentifier') : LaidOut afterIdentifier' lexemes text := by
  cases h with
  | last isLayout => exact .last isLayout
  | next isLayout _ others => exact .next isLayout (fun h => absurd h hafter) others

theorem LaidOut.exists_cons (h : LaidOut afterIdentifier (lexeme :: lexemes) text)
    (hsolid : ∀ lexeme ∈ lexemes, IsSolid lexeme) : ∃ layout mid rest, IsLayout False layout ∧
      text = layout ++ mid ∧ StandsBefore lexeme mid rest ∧ LaidOut False lexemes rest := by
  cases h with
  | next isLayout _ others =>
    exact ⟨_, _, _, isLayout, rfl, ⟨rfl, others.endsIdentifier hsolid⟩, others.of_not not_false⟩

end Solid

section Before

/-- The lexemes stand in the text in their order with layout before each of them, and `rest` comes
after the last. -/
def LaidOutBefore (lexemes : List (List Char)) (text rest : List Char) : Prop :=
  ∀ more, LaidOut False more rest → LaidOut False (lexemes ++ more) text

variable {lexeme text mid rest front : List Char} {lexemes more : List (List Char)}

theorem laidOutBefore_nil (text : List Char) : LaidOutBefore [] text text := fun _ h => h

theorem LaidOutBefore.append (h : LaidOutBefore lexemes text mid)
    (hmore : LaidOutBefore more mid rest) : LaidOutBefore (lexemes ++ more) text rest := by
  intro others hothers
  rw [List.append_assoc]
  exact h _ (hmore others hothers)

/-- A lexeme with layout before it is laid out before what is laid out after it. -/
theorem StandsBefore.laidOutBefore (h : StandsBefore lexeme text mid) (hne : lexeme ≠ [])
    (hfront : IsLayout (text = []) front) (hmore : LaidOutBefore more mid rest) :
    LaidOutBefore (lexeme :: more) (front ++ text) rest := by
  obtain ⟨rfl, hends⟩ := h
  have hlayout : IsLayout False front := by simpa [hne] using hfront
  intro others hothers
  refine .next hlayout (fun hafter _ => hafter.elim) ?_
  by_cases hname : IsIdentifier lexeme
  · exact (hmore others hothers).of_endsIdentifier (hends hname) _
  · exact (hmore others hothers).of_not hname

end Before

end GrammarOutline.Lexeme
