import GrammarOutline.Proofs.Expr.Normal
import GrammarOutline.Proofs.Production.Reading
import GrammarOutline.Proofs.Production.Section

/-!
# Which grammar texts are read

Whatever a parser of productions accepts is laid out from lexemes that stand for it. So the
productions of a text are read exactly when its rules section prints them, and they make up a
grammar exactly when no name comes twice and no production has two rules without elements.
-/
namespace GrammarOutline

open Parsing Lexeme

namespace Production

variable {c next : Cursor Char} {lexemes : List (List Char)}

section Accepted

theorem exists_lexeme_of_accepts_symbol {text : List Char}
    (h : Accepts noCall (afterLayout (.either identifier quoted)) c text next) :
    (IsIdentifier text ∨ IsLiteral false text) ∧ LaidOutBefore [text] c.rest next.rest := by
  obtain ⟨front, mid, hrest, hfront, hread⟩ := exists_of_accepts_afterLayout h
  rw [hrest]
  rcases accepts_either_iff.1 hread with hread | ⟨-, hread⟩
  · obtain ⟨hname, hstands⟩ := standsBefore_of_accepts_identifier hread
    exact ⟨.inl hname, hstands.laidOutBefore hname.isSolid.ne_nil hfront (laidOutBefore_nil _)⟩
  · obtain ⟨hliteral, hstands⟩ := standsBefore_of_accepts_quoted hread
    exact ⟨.inr hliteral, hstands.laidOutBefore hliteral.isSolid.ne_nil hfront
      (laidOutBefore_nil _)⟩

theorem laidOutBefore_of_accepts_word {sign : String} (hsign : IsSolid sign.toList)
    (hne : ¬IsIdentifier sign.toList) {expected : String} {text : List Char}
    (h : Accepts noCall (afterLayout (.label (word sign) expected)) c text next) :
    LaidOutBefore [sign.toList] c.rest next.rest := by
  obtain ⟨front, mid, hrest, hfront, hread⟩ := exists_of_accepts_afterLayout h
  obtain ⟨-, hstands⟩ := standsBefore_of_accepts_word hne (accepts_label_iff.1 hread)
  rw [hrest]
  exact hstands.laidOutBefore hsign.ne_nil hfront (laidOutBefore_nil _)

theorem exists_derivesElement {e : Option Element} (h : Accepts noCall element c e next) :
    ∃ lexemes, DerivesElement lexemes e ∧ LaidOutBefore lexemes c.rest next.rest := by
  obtain ⟨front, mid, hrest, hfront, hlabel⟩ := exists_of_accepts_afterLayout h
  obtain ⟨p, hp, hread⟩ := exists_of_accepts_choice (accepts_label_iff.1 hlabel)
  rw [hrest]
  simp only [List.mem_cons, List.not_mem_nil, or_false] at hp
  rcases hp with rfl | rfl | rfl | rfl | rfl | rfl
  · obtain ⟨text, rfl, htext⟩ := accepts_map_iff.1 hread
    obtain ⟨hliteral, hstands⟩ := standsBefore_of_accepts_quoted htext
    exact ⟨[text], .literal hliteral,
      hstands.laidOutBefore hliteral.isSolid.ne_nil hfront (laidOutBefore_nil _)⟩
  · obtain ⟨_, -, hquote⟩ := accepts_map_iff.1 hread
    exact absurd hquote not_accepts_openLiteral
  · obtain ⟨text, rfl, hboth⟩ := accepts_map_iff.1 hread
    obtain ⟨after, _, hmark, hsymbol⟩ := exists_of_accepts_right hboth
    obtain ⟨-, hstands⟩ := standsBefore_of_accepts_word (by decide) hmark
    obtain ⟨hkind, hlaid⟩ := exists_lexeme_of_accepts_symbol hsymbol
    exact ⟨["%prec".toList, text], .precedence hkind,
      hstands.laidOutBefore (by decide) hfront hlaid⟩
  · obtain ⟨_, rfl, haction⟩ := accepts_map_iff.1 hread
    obtain ⟨block, hblock, hstands⟩ := standsBefore_of_accepts_actionBlock haction
    exact ⟨[block], .action hblock,
      hstands.laidOutBefore hblock.isSolid.ne_nil hfront (laidOutBefore_nil _)⟩
  · obtain ⟨text, rfl, htext⟩ := accepts_map_iff.1 hread
    obtain ⟨hname, hstands⟩ := standsBefore_of_accepts_identifier htext
    exact ⟨[text], .name hname,
      hstands.laidOutBefore hname.isSolid.ne_nil hfront (laidOutBefore_nil _)⟩
  · obtain ⟨_, -, hstray⟩ := accepts_map_iff.1 hread
    exact absurd hstray not_accepts_strayCharacter

theorem exists_derivesRule {row : Rule} (h : Accepts noCall rule c row next) :
    ∃ lexemes, DerivesRule lexemes row ∧ LaidOutBefore lexemes c.rest next.rest := by
  obtain ⟨elements, rfl, hmany⟩ := accepts_map_iff.1 h
  refine accepts_many_induct (motive := fun c elements => ∃ lexemes,
    DerivesRule lexemes (elements.filterMap id) ∧ LaidOutBefore lexemes c.rest next.rest) hmany
    ⟨[], .nothing, laidOutBefore_nil _⟩ fun c mid e elements hread ih => ?_
  obtain ⟨lexemes, hderives, hlaid⟩ := exists_derivesElement hread
  obtain ⟨others, hothers, hlaid'⟩ := ih
  refine ⟨lexemes ++ others, ?_, hlaid.append hlaid'⟩
  have hrow : (e :: elements).filterMap id = e.toList ++ elements.filterMap id := by cases e <;> rfl
  rw [hrow]
  exact .element hderives hothers

/-- Rules that come after a bar each go on with the rules before them. -/
theorem exists_derivesRules {rows : List Rule} (h : Accepts noCall ruleList c rows next) :
    ∃ lexemes, DerivesRules lexemes rows ∧ LaidOutBefore lexemes c.rest next.rest := by
  obtain ⟨row, rows, mid, rfl, hfirst, hmany⟩ := accepts_sepBy1_iff.1 h
  have hothers : ∀ first row, DerivesRule first row → ∃ others,
      DerivesRules (first ++ others) (row :: rows) ∧ LaidOutBefore others mid.rest next.rest := by
    refine accepts_many_induct (motive := fun c rows => ∀ first row, DerivesRule first row →
      ∃ others, DerivesRules (first ++ others) (row :: rows) ∧
        LaidOutBefore others c.rest next.rest) hmany ?_ ?_
    · intro first row hrow
      exact ⟨[], by rw [List.append_nil]; exact .last hrow, laidOutBefore_nil _⟩
    · intro c mid row' rows hread ih first row hrow
      obtain ⟨after, _, hbar, hrule⟩ := exists_of_accepts_right hread
      obtain ⟨lexemes, hrow', hlaid⟩ := exists_derivesRule hrule
      obtain ⟨others, hothers, hlaid'⟩ := ih lexemes row' hrow'
      obtain ⟨front, start, hrest, hfront, hword⟩ := exists_of_accepts_afterLayout hbar
      obtain ⟨-, hstands⟩ := standsBefore_of_accepts_word (by decide) hword
      rw [hrest]
      exact ⟨"|".toList :: (lexemes ++ others), .bar hrow hothers,
        hstands.laidOutBefore (by decide) hfront (hlaid.append hlaid')⟩
  obtain ⟨lexemes, hrow, hlaid⟩ := exists_derivesRule hfirst
  obtain ⟨others, hrows, hlaid'⟩ := hothers lexemes row hrow
  exact ⟨lexemes ++ others, hrows, hlaid.append hlaid'⟩

theorem isDefinitionSign_of_accepts_sign {text : List Char} (h : Accepts noCall sign c text next) :
    IsDefinitionSign text ∧ LaidOutBefore [text] c.rest next.rest := by
  obtain ⟨front, mid, hrest, hfront, hlabel⟩ := exists_of_accepts_afterLayout h
  rw [hrest]
  rcases accepts_either_iff.1 (accepts_label_iff.1 hlabel) with hread | ⟨-, hread⟩
  · rcases accepts_either_iff.1 hread with hread | ⟨-, hread⟩
    · obtain ⟨rfl, hstands⟩ := standsBefore_of_accepts_word (by decide) hread
      exact ⟨.inr (.inl rfl), hstands.laidOutBefore (by decide) hfront (laidOutBefore_nil _)⟩
    · obtain ⟨rfl, hstands⟩ := standsBefore_of_accepts_word (by decide) hread
      exact ⟨.inl rfl, hstands.laidOutBefore (by decide) hfront (laidOutBefore_nil _)⟩
  · obtain ⟨rfl, hstands⟩ := standsBefore_of_accepts_word (by decide) hread
    exact ⟨.inr (.inr rfl), hstands.laidOutBefore (by decide) hfront (laidOutBefore_nil _)⟩

/-- A production is laid out from its lexemes before others that stand for more productions. -/
theorem exists_derivesAll_cons {p : Production} {ps : List Production} {more : List (List Char)}
    (h : Accepts noCall production c p next) (hmore : DerivesAll more ps) :
    ∃ lexemes, DerivesAll (lexemes ++ more) (p :: ps) ∧ LaidOutBefore lexemes c.rest next.rest := by
  obtain ⟨⟨name, rows⟩, rfl, hboth⟩ := accepts_map_iff.1 h
  obtain ⟨c₁, hname, hcommit⟩ := accepts_both_iff.1 hboth
  obtain ⟨c₂, text, hsign, hbody⟩ := exists_of_accepts_right (accepts_commit_iff.1 hcommit)
  obtain ⟨c₃, _, hrules, hstop⟩ := exists_of_accepts_left hbody
  obtain ⟨front, mid, hrest, hfront, hlabel⟩ := exists_of_accepts_afterLayout hname
  obtain ⟨isIdentifier, hstands⟩ := standsBefore_of_accepts_identifier (accepts_label_iff.1 hlabel)
  obtain ⟨isSign, hlaidSign⟩ := isDefinitionSign_of_accepts_sign hsign
  obtain ⟨lexemes, hderives, hlaidRules⟩ := exists_derivesRules hrules
  have hlaidStop := laidOutBefore_of_accepts_word isSolid_semicolon (by decide) hstop
  refine ⟨name :: text :: (lexemes ++ [";".toList]), ?_, ?_⟩
  · have hall := DerivesAll.cons isIdentifier isSign hderives hmore
    simpa using hall
  · rw [hrest]
    exact hstands.laidOutBefore isIdentifier.isSolid.ne_nil hfront
      (hlaidSign.append (hlaidRules.append hlaidStop))

theorem exists_derivesAll {ps : List Production} (h : Accepts noCall productions c ps next) :
    ∃ lexemes, DerivesAll lexemes ps ∧ LaidOut False lexemes c.rest := by
  obtain ⟨afterLayout, _, hleft, hend⟩ := exists_of_accepts_left h
  obtain ⟨mid, front, hmany, hskip⟩ := exists_of_accepts_left hleft
  have hlast : LaidOut False [] mid.rest := by
    obtain ⟨hrest, hfront⟩ := isLayout_of_accepts_skipLayout hskip
    rw [rest_of_accepts_endOfInput hend, eq_self_iff_true] at hfront
    rw [hrest, rest_of_accepts_endOfInput hend, List.append_nil]
    exact .last hfront
  refine accepts_many_induct (motive := fun c ps => ∃ lexemes, DerivesAll lexemes ps ∧
    LaidOut False lexemes c.rest) hmany ⟨[], .nil, hlast⟩ fun c mid p ps hread ih => ?_
  obtain ⟨more, hmore, hlaid⟩ := ih
  obtain ⟨lexemes, hderives, hbefore⟩ := exists_derivesAll_cons hread hmore
  exact ⟨lexemes ++ more, hderives, hbefore more hlaid⟩

end Accepted

/-- The text prints the productions: it is laid out from lexemes that stand for them. -/
def IsPrinting (text : List Char) (ps : List Production) : Prop :=
  ∃ lexemes, DerivesAll lexemes ps ∧ LaidOut False lexemes text

/-- The productions of a text are read exactly when its rules section prints them. -/
theorem readRaw_eq_ok_iff {source : List Char} {raw : List Production} :
    readRaw source = .ok raw ↔ IsPrinting (RulesSection.ofSource source).text raw := by
  have hcall : ∀ budget, callRule noRules budget = noCall := fun budget => funext fun i => i.elim0
  have hreads : readRaw source = .ok raw ↔ ∃ next, Accepts noCall productions
      (Cursor.ofPosition (RulesSection.ofSource source).text 0) raw next := by
    unfold readRaw Accepts Parser.run Parser.runAt
    dsimp only
    rw [hcall]
    cases productions.runWith noCall (Cursor.ofPosition (RulesSection.ofSource source).text 0) with
    | success value next hint => simp
    | failure f => cases hexcerpt : f.excerpt <;> simp [hexcerpt]
    | exhausted => simp
  rw [hreads]
  constructor
  · rintro ⟨next, haccepts⟩
    exact exists_derivesAll haccepts
  · rintro ⟨lexemes, hderives, hlaid⟩
    exact hderives.accepts hlaid (Nat.zero_sub _)

end Production

section Grammars

theorem Grammar.add_eq_ok_iff {g g' : Grammar} {p : Production} :
    g.add p = .ok g' ↔ g'.productions = g.productions ++ [p] := by
  constructor
  · intro h
    rw [Grammar.add] at h
    split_ifs at h
    rw [← Except.ok.inj h]
  · intro h
    have hname : g.contains p.name = false := by
      have hdistinct := g'.distinct
      rw [h, List.map_append, List.nodup_append] at hdistinct
      have hnot : p.name ∉ g.names := fun hmem => hdistinct.2.2 _ hmem _ (by simp) rfl
      simpa [NamedProductions.contains] using hnot
    have hempty : ¬1 < p.emptyRules := Nat.not_lt.2 (g'.emptyRules_le_one p (by rw [h]; simp))
    rw [Grammar.add, dif_neg (by simp [hname]), dif_neg hempty]
    obtain ⟨⟨productions, _⟩, _⟩ := g'
    obtain rfl : productions = _ := h
    rfl

theorem Grammar.addAll_eq_ok_iff {g g' : Grammar} {ps : List Production} :
    g.addAll ps = .ok g' ↔ g'.productions = g.productions ++ ps := by
  induction ps generalizing g with
  | nil =>
    rw [Grammar.addAll, List.append_nil]
    constructor
    · rintro ⟨⟩
      rfl
    · obtain ⟨⟨productions, _⟩, _⟩ := g'
      rintro rfl
      rfl
  | cons p ps ih =>
    simp only [Grammar.addAll, bind_eq_ok_iff, Grammar.add_eq_ok_iff, ih]
    constructor
    · rintro ⟨mid, hmid, h⟩
      simpa [hmid] using h
    · intro h
      have hproductions : g'.productions = (g.productions ++ [p]) ++ ps := by simpa using h
      have hdistinct : ((g.productions ++ [p]).map Production.name).Nodup := by
        have hall := g'.distinct
        rw [hproductions, List.map_append] at hall
        exact (List.nodup_append.1 hall).1
      refine ⟨⟨⟨g.productions ++ [p], hdistinct⟩, fun q hq => ?_⟩, rfl, hproductions⟩
      exact g'.emptyRules_le_one q (hproductions ▸ List.mem_append_left _ hq)

/-- A text is read as a grammar exactly when its rules section prints the productions of the
grammar. -/
theorem Grammar.read_eq_ok_iff_section {source : List Char} {g : Grammar} :
    Grammar.read source = .ok g ↔
      Production.IsPrinting (RulesSection.ofSource source).text g.productions := by
  rw [Grammar.read, bind_eq_ok_iff, ← Production.readRaw_eq_ok_iff]
  constructor
  · rintro ⟨raw, hraw, hadd⟩
    rw [Grammar.addAll_eq_ok_iff.1 hadd]
    exact hraw
  · intro hraw
    exact ⟨g.productions, hraw, Grammar.addAll_eq_ok_iff.2 rfl⟩

/-- A text without a marker line is read as a grammar exactly when it prints the productions of the
grammar, whose names are distinct and of which none has two rules without elements. -/
theorem Grammar.read_eq_ok_iff_isPrinting {source : List Char}
    (hlines : ∀ line ∈ source.splitOn '\n', RulesSection.isMarker line = false) (g : Grammar) :
    Grammar.read source = .ok g ↔ Production.IsPrinting source g.productions := by
  rw [Grammar.read_eq_ok_iff_section, RulesSection.text_ofSource hlines]

/-- A text with a comment, an empty rule, an action block that holds a brace in quotes, and a
precedence mark. -/
theorem Grammar.isPrinting_of_read_sums :
    Production.IsPrinting
      "e : e '+' \x7b f(\"\x7d\"); \x7d %prec t | /* none */ ; // end".toList
      [⟨"e", [[.name "e", .literal "'+'"], []]⟩] := by
  obtain ⟨g, hread, hproductions⟩ := map_eq_ok_iff.1 (by decide +kernel :
    (Grammar.read "e : e '+' \x7b f(\"\x7d\"); \x7d %prec t | /* none */ ; // end".toList).map
      (·.productions) = .ok [⟨"e", [[.name "e", .literal "'+'"], []]⟩])
  exact hproductions ▸ (Grammar.read_eq_ok_iff_isPrinting (by decide) g).1 hread

end Grammars

end GrammarOutline
