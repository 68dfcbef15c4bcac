import GrammarOutline.Proofs.Definition.Acceptance
import GrammarOutline.Proofs.Definition.Scan
import GrammarOutline.Proofs.Production.Acceptance

/-!
# What both notations share

A text that both readers accept is one row of lexemes with layout around them. It has no action
block, no precedence mark and no sign but `::=`, since these are no tokens of definitions, and both
readers find the same names with the same bodies. A text of definitions without marks, parentheses
and classes is a grammar text as well, provided that none of its literals takes a line feed and no
body has two alternatives that stand for nothing.
-/
namespace GrammarOutline

open Lexeme Token Definition

section Scanned

variable {lexemes more : List (List Char)} {text : List Char} {offset : Nat}

/-- The scan of the text starts with the tokens and goes on with the lexemes after them. -/
def ScansAs (offset : Nat) (text : List Char) (tokens : List Token)
    (more : List (List Char)) : Prop :=
  ∃ stop rest, scanFrom offset text = tokens ++ scanFrom stop rest ∧ LaidOut False more rest ∧
    ∀ t ∈ scanFrom stop rest, t.kind ≠ .malformed

theorem scansAs_singleton {kind : Kind} {lexeme : List Char} (hlexeme : IsLexeme lexeme kind)
    (hlaid : LaidOut False (lexeme :: more) text) (hmore : ∀ l ∈ more, IsSolid l)
    (hclean : ∀ t ∈ scanFrom offset text, t.kind ≠ .malformed) :
    ∃ start, ScansAs offset text [⟨kind, String.ofList lexeme, start⟩] more := by
  obtain ⟨start, stop, rest, hscan, hrest⟩ := scanFrom_laidOut hlaid hlexeme hmore offset
  refine ⟨start, stop, rest, hscan, hrest, fun t ht => hclean t ?_⟩
  rw [hscan]
  exact List.mem_cons_of_mem _ ht

theorem false_of_lexeme?_none {c : Char} {body : List Char}
    (hlaid : LaidOut False ((c :: body) :: more) text) (hsolid : IsSolid (c :: body))
    (hmore : ∀ l ∈ more, IsSolid l) (hclean : ∀ t ∈ scanFrom offset text, t.kind ≠ .malformed)
    (hnone : ∀ rest, LaidOut False more rest → lexeme? (c :: (body ++ rest)) = none) : False := by
  obtain ⟨t, ht, hkind⟩ := exists_malformed hlaid hsolid hmore hnone offset
  exact hclean t ht hkind

/-- An element that becomes tokens is a name or a literal. -/
theorem Production.DerivesElement.scansAs {e : Option Element} (h : DerivesElement lexemes e)
    (hmore : ∀ l ∈ more, IsSolid l) (hlaid : LaidOut False (lexemes ++ more) text)
    (hclean : ∀ t ∈ scanFrom offset text, t.kind ≠ .malformed) :
    ∃ (d : Derivation .atom) (element : Element), e = some element ∧ d.expr = element.expr ∧
      ScansAs offset text d.tokens more := by
  cases h with
  | @name name isIdentifier =>
    have hlexeme : IsLexeme name .identifier := isIdentifier
    obtain ⟨start, hscans⟩ := scansAs_singleton hlexeme hlaid hmore hclean
    exact ⟨.name ⟨.identifier, String.ofList name, start⟩ rfl, _, rfl, rfl, hscans⟩
  | @literal literal isLiteral =>
    rcases isLiteral.joins with hlexeme | hlexeme
    · have hkind : IsLexeme literal .character := hlexeme
      obtain ⟨start, hscans⟩ := scansAs_singleton hkind hlaid hmore hclean
      exact ⟨.terminal ⟨.character, String.ofList literal, start⟩ (.inl rfl), _, rfl, rfl, hscans⟩
    · have hkind : IsLexeme literal .string := hlexeme
      obtain ⟨start, hscans⟩ := scansAs_singleton hkind hlaid hmore hclean
      exact ⟨.terminal ⟨.string, String.ofList literal, start⟩ (.inr (.inl rfl)), _,
        rfl, rfl, hscans⟩
  | action isBlock =>
    have hsolid := isBlock.isSolid
    obtain ⟨body, -, rfl⟩ := isBlock
    exact (false_of_lexeme?_none hlaid hsolid hmore hclean fun _ _ =>
      lexeme?_eq_none (punctuation_eq_none (by decide) (by decide)) (by decide) (by decide)).elim
  | precedence isSymbol =>
    have hothers : ∀ l ∈ [_] ++ more, IsSolid l := List.forall_mem_append.2
      ⟨List.forall_mem_singleton.2 (isSymbol.elim IsIdentifier.isSolid IsLiteral.isSolid), hmore⟩
    exact (false_of_lexeme?_none hlaid (isSolid_cons (by decide) (by decide) (by decide) _)
      hothers hclean fun _ _ =>
        lexeme?_eq_none (punctuation_eq_none (by decide) (by decide)) (by decide)
          (by decide)).elim

theorem Production.DerivesRule.scansAs {row : Rule} (h : DerivesRule lexemes row)
    (hmore : ∀ l ∈ more, IsSolid l) (hlaid : LaidOut False (lexemes ++ more) text)
    (hclean : ∀ t ∈ scanFrom offset text, t.kind ≠ .malformed) :
    ∃ d : Derivation .sequence, d.expr = .seq (row.map Element.expr) ∧
      ScansAs offset text d.tokens more := by
  induction h generalizing offset text with
  | nothing => exact ⟨.nothing, rfl, offset, text, rfl, hlaid, hclean⟩
  | @element first others e row isElement derived ih =>
    have hothers : ∀ l ∈ others ++ more, IsSolid l :=
      List.forall_mem_append.2 ⟨fun l hl => (derived.isRuleLexeme l hl).isSolid, hmore⟩
    rw [List.append_assoc] at hlaid
    obtain ⟨atom, element, rfl, hatom, mid, after, hscan, hrest, hclean'⟩ :=
      isElement.scansAs hothers hlaid hclean
    obtain ⟨d, hd, stop, rest, hscan', hlaid', hlast⟩ := ih hrest hclean'
    refine ⟨.item (.marked atom [] (by simp)) d, ?_, stop, rest, ?_, hlaid', hlast⟩
    · rw [Derivation.expr, Derivation.expr, hd, hatom]
      rfl
    · rw [hscan, hscan', Derivation.tokens, Derivation.tokens, List.append_nil, List.append_assoc]

theorem Production.DerivesRules.scansAs {rows : List Rule} (h : DerivesRules lexemes rows)
    (hmore : ∀ l ∈ more, IsSolid l) (hlaid : LaidOut False (lexemes ++ more) text)
    (hclean : ∀ t ∈ scanFrom offset text, t.kind ≠ .malformed) :
    ∃ d : Derivation .alternation, d.expr = .alt (rows.map fun row => .seq (row.map Element.expr)) ∧
      ScansAs offset text d.tokens more := by
  induction h generalizing offset text with
  | last isRule =>
    obtain ⟨d, hd, hscans⟩ := isRule.scansAs hmore hlaid hclean
    exact ⟨.last d, by rw [Derivation.expr, hd]; rfl, hscans⟩
  | @bar first others row rows isRule derived ih =>
    have hothers : ∀ l ∈ others ++ more, IsSolid l :=
      List.forall_mem_append.2 ⟨fun l hl => (derived.isRuleLexeme l hl).isSolid, hmore⟩
    have hbar : IsLexeme "|".toList .punctuation := .inr ⟨'|', by decide, rfl⟩
    rw [List.append_assoc, List.cons_append] at hlaid
    obtain ⟨d, hd, mid, after, hscan, hrest, hclean'⟩ :=
      isRule.scansAs (List.forall_mem_cons.2 ⟨isSolid_of_isLexeme hbar, hothers⟩) hlaid hclean
    obtain ⟨start, mid', after', hscan', hrest', hclean''⟩ :=
      scansAs_singleton hbar hrest hothers hclean'
    obtain ⟨ds, hds, stop, rest, hscan'', hlaid', hlast⟩ := ih hrest' hclean''
    have isSign : IsSign "|" ⟨.punctuation, String.ofList "|".toList, start⟩ :=
      ⟨rfl, String.ofList_toList⟩
    refine ⟨.bar d _ isSign ds, ?_, stop, rest, ?_, hlaid', hlast⟩
    · rw [Derivation.expr, hd, hds]
      rfl
    · rw [hscan, hscan', hscan'', Derivation.tokens]
      simp

/-- Productions that become tokens become definitions with the same names. -/
theorem Production.DerivesAll.exists_textDerivation {ps : List Production}
    (h : Production.DerivesAll lexemes ps) (hlaid : LaidOut False lexemes text)
    (hclean : ∀ t ∈ scanFrom offset text, t.kind ≠ .malformed) :
    ∃ d : TextDerivation, d.tokens = scanFrom offset text ∧
      d.raw = ps.map fun p => (p.name, p.expr) := by
  induction h generalizing offset text with
  | nil =>
    obtain ⟨stop, hscan⟩ := scanFrom_laidOut_nil hlaid offset
    exact ⟨⟨[], ⟨.finish, "", stop⟩, rfl⟩, hscan.symm, rfl⟩
  | @cons name sign lexemes more rows ps isIdentifier isSign body others ih =>
    have hmore := others.isSolid
    have hstop : IsLexeme ";".toList .punctuation := .inr ⟨';', by decide, rfl⟩
    have hrules : ∀ l ∈ lexemes ++ ";".toList :: more, IsSolid l :=
      List.forall_mem_append.2 ⟨fun l hl => (body.isRuleLexeme l hl).isSolid,
        List.forall_mem_cons.2 ⟨isSolid_of_isLexeme hstop, hmore⟩⟩
    have hname : IsLexeme name .identifier := isIdentifier
    obtain ⟨start₁, stop₁, rest₁, hscan₁, hlaid₁, hclean₁⟩ := scansAs_singleton hname hlaid
      (List.forall_mem_cons.2 ⟨isSign.isSolid, hrules⟩) hclean
    have hsign : sign = "::=".toList := by
      have hsolid := isSign.isSolid
      rcases isSign with rfl | rfl | rfl
      · exact (false_of_lexeme?_none hlaid₁ hsolid hrules hclean₁ fun rest hrest =>
          lexeme?_colon (body.head_ne_colon hrest)).elim
      · rfl
      · exact (false_of_lexeme?_none hlaid₁ hsolid hrules hclean₁ fun _ _ =>
          lexeme?_eq_none (punctuation_eq_none (by decide) (by decide)) (by decide)
            (by decide)).elim
    subst hsign
    have hlexeme : IsLexeme "::=".toList .punctuation := .inl rfl
    obtain ⟨start₂, stop₂, rest₂, hscan₂, hlaid₂, hclean₂⟩ :=
      scansAs_singleton hlexeme hlaid₁ hrules hclean₁
    obtain ⟨d, hd, stop₃, rest₃, hscan₃, hlaid₃, hclean₃⟩ := body.scansAs
      (List.forall_mem_cons.2 ⟨isSolid_of_isLexeme hstop, hmore⟩) hlaid₂ hclean₂
    obtain ⟨start₄, stop₄, rest₄, hscan₄, hlaid₄, hclean₄⟩ :=
      scansAs_singleton hstop hlaid₃ hmore hclean₃
    obtain ⟨⟨entries, finish, isFinish⟩, htokens, hraw⟩ := ih hlaid₄ hclean₄
    let entry : Entry := {
      name := ⟨.identifier, String.ofList name, start₁⟩
      isName := rfl
      sign := ⟨.punctuation, String.ofList "::=".toList, start₂⟩
      isSign := ⟨rfl, String.ofList_toList⟩
      body := d
      stop := ⟨.punctuation, String.ofList ";".toList, start₄⟩
      isStop := ⟨rfl, String.ofList_toList⟩ }
    refine ⟨⟨entry :: entries, finish, isFinish⟩, ?_, ?_⟩
    · rw [hscan₁, hscan₂, hscan₃, hscan₄, ← htokens]
      simp [TextDerivation.tokens, Entry.tokens, entry]
    · rw [TextDerivation.raw] at hraw ⊢
      rw [List.map_cons, hraw, List.map_cons]
      simp only [Entry.raw, entry, hd]
      rfl

end Scanned

section Common

/-- A token of definitions that is no mark, no parenthesis and no class. -/
def Token.IsCommon (t : Token) : Prop :=
  ¬IsMark t ∧ ¬IsSign "(" t ∧ ¬IsSign ")" t ∧ t.kind ≠ .charClass

instance (t : Token) : Decidable t.IsCommon := inferInstanceAs (Decidable (_ ∧ _ ∧ _ ∧ _))

/-- What the lexemes of productions stand for at a level of definitions. -/
def StandsFor (lexemes : List (List Char)) : Level → Expr → Prop
  | .alternation, e => ∃ rows, Production.DerivesRules lexemes rows ∧
      e = .alt (rows.map fun row => .seq (row.map Element.expr))
  | .sequence, e => ∃ row, Production.DerivesRule lexemes row ∧ e = .seq (row.map Element.expr)
  | .quantified, e | .atom, e =>
    ∃ element, Production.DerivesElement lexemes (some element) ∧ e = element.expr

/-- The tokens in the derivation of one line of productions. -/
def IsShared (t : Token) : Prop :=
  t.IsCommon ∧ '\n' ∉ t.text.toList ∧ IsLexeme t.text.toList t.kind

/-- Common tokens stand for the same in both notations. -/
theorem Definition.Derivation.standsFor {level : Level} (d : Derivation level)
    (h : ∀ t ∈ d.tokens, IsShared t) :
    StandsFor (d.tokens.map fun t => t.text.toList) level d.expr := by
  induction d with
  | last s ih =>
    obtain ⟨row, hrow, hexpr⟩ := ih h
    exact ⟨[row], .last hrow, by rw [Derivation.expr, hexpr]; rfl⟩
  | bar s sign isSign others ih ihs =>
    simp only [Derivation.tokens, List.forall_mem_append, List.forall_mem_cons] at h
    obtain ⟨row, hrow, hexpr⟩ := ih h.1
    obtain ⟨rows, hrows, hexprs⟩ := ihs h.2.2
    refine ⟨row :: rows, ?_, by rw [Derivation.expr, hexpr, hexprs]; rfl⟩
    rw [Derivation.tokens, List.map_append, List.map_cons, isSign.2]
    exact .bar hrow hrows
  | nothing => exact ⟨[], .nothing, rfl⟩
  | item q others ih ihs =>
    simp only [Derivation.tokens, List.forall_mem_append] at h
    obtain ⟨element, helement, hexpr⟩ := ih h.1
    obtain ⟨row, hrow, hexprs⟩ := ihs h.2
    refine ⟨element :: row, ?_, by rw [Derivation.expr, hexpr, hexprs]; rfl⟩
    rw [Derivation.tokens, List.map_append]
    exact .element helement hrow
  | marked a marks areMarks ih =>
    simp only [Derivation.tokens, List.forall_mem_append] at h
    cases marks with
    | nil =>
      rw [Derivation.tokens, List.append_nil]
      exact ih h.1
    | cons t marks =>
      have hmark : IsMark t := areMarks t List.mem_cons_self
      exact absurd hmark (h.2 t List.mem_cons_self).1.1
  | name t isName =>
    obtain ⟨-, -, hlexeme⟩ := h t (List.mem_singleton_self t)
    rw [isName] at hlexeme
    refine ⟨.name (String.ofList t.text.toList), .name hlexeme, ?_⟩
    rw [String.ofList_toList]
    rfl
  | terminal t isTerminal =>
    obtain ⟨⟨-, -, -, hclass⟩, hfeed, hlexeme⟩ := h t (List.mem_singleton_self t)
    have hliteral : IsLiteral true t.text.toList := by
      rcases isTerminal with hkind | hkind | hkind
      · rw [hkind] at hlexeme
        exact .inl hlexeme
      · rw [hkind] at hlexeme
        exact .inr hlexeme
      · exact absurd hkind hclass
    refine ⟨.literal (String.ofList t.text.toList), .literal (hliteral.oneLine hfeed), ?_⟩
    rw [String.ofList_toList]
    rfl
  | group opening opens inner closing closes ih =>
    exact absurd opens (h opening (by simp [Derivation.tokens])).1.2.1

/-- Definitions with common tokens stand for productions with the same names. -/
theorem Definition.exists_derivesAll {entries : List Entry}
    (h : ∀ t ∈ entries.flatMap Entry.tokens, IsShared t) :
    ∃ ps, Production.DerivesAll ((entries.flatMap Entry.tokens).map fun t => t.text.toList) ps ∧
      (ps.map fun p => (p.name, p.expr)) = entries.map Entry.raw := by
  induction entries with
  | nil => exact ⟨[], .nil, rfl⟩
  | cons e entries ih =>
    simp only [List.flatMap_cons, List.forall_mem_append, Entry.tokens, List.forall_mem_cons] at h
    obtain ⟨⟨⟨-, -, hname⟩, -, hbody, -⟩, hothers⟩ := h
    obtain ⟨ps, hps, hraw⟩ := ih hothers
    obtain ⟨rows, hrows, hexpr⟩ := e.body.standsFor hbody
    rw [e.isName] at hname
    refine ⟨⟨String.ofList e.name.text.toList, rows⟩ :: ps, ?_, ?_⟩
    · have hall := Production.DerivesAll.cons hname (.inr (.inl rfl)) hrows hps
      simpa [Entry.tokens, e.isSign.2, e.isStop.2] using hall
    · rw [List.map_cons, List.map_cons, hraw, Entry.raw, hexpr, String.ofList_toList]
      rfl

end Common

section Agreement

variable {source : List Char}

/-- Productions and definitions that write the same make the same entries. -/
theorem entries_of_reads {ps : List Production} {entries : List (String × Expr)}
    (h : List.Forall₂ Reads (ps.map fun p => (p.name, p.expr)) entries) :
    entries = ps.map fun p => (p.name, p.body) := by
  induction ps generalizing entries with
  | nil => simpa using h
  | cons p ps ih =>
    obtain ⟨entry, others, ⟨hname, hbody⟩, hothers, rfl⟩ := List.forall₂_cons_left_iff.1 h
    rw [p.normalize_expr] at hbody
    obtain rfl : (p.name, p.body) = entry := Prod.ext hname (Except.ok.inj hbody)
    rw [ih hothers, List.map_cons]

/-- What both readers accept they read as the same. -/
theorem entries_eq_of_read
    (hlines : ∀ line ∈ source.splitOn '\n', RulesSection.isMarker line = false) {g : Grammar}
    {defs : Definitions} (hg : Grammar.read source = .ok g)
    (hdefs : Definitions.read source = .ok defs) :
    defs.entries = g.productions.map fun p => (p.name, p.body) := by
  obtain ⟨lexemes, hderives, hlaid⟩ := Grammar.read_eq_ok_iff_section.1 hg
  rw [RulesSection.text_ofSource hlines] at hlaid
  obtain ⟨raw, hraw, hreads⟩ := Definitions.read_eq_ok_iff.1 hdefs
  obtain ⟨d, htokens, -, rfl⟩ := readRaw_eq_ok_iff.1 hraw
  have hclean : ∀ t ∈ scanFrom 0 source, t.kind ≠ .malformed :=
    TextDerivation.kind_ne_malformed htokens
  obtain ⟨d', htokens', hraw'⟩ := hderives.exists_textDerivation hlaid hclean
  obtain rfl : d' = d := TextDerivation.tokens_injective (htokens'.trans htokens.symm)
  exact entries_of_reads (hraw' ▸ hreads)

theorem count_empty_expr (p : Production) : p.expr.alternatives.count .empty = p.emptyRules := by
  have hempty : ∀ row : Rule, (Expr.seq (row.map Element.expr) == Expr.empty) = row.isEmpty := by
    intro row
    cases row <;> simp [Expr.empty]
  simp only [Production.expr, Expr.alternatives, List.count_eq_countP, List.countP_map,
    Production.emptyRules]
  exact List.countP_congr fun row _ => by simp [hempty]

/-- A text of definitions with common tokens, of which none holds a line feed, is a grammar text,
provided that no body has two alternatives that stand for nothing. -/
theorem exists_grammar_of_readRaw
    (hlines : ∀ line ∈ source.splitOn '\n', RulesSection.isMarker line = false)
    {raw : List (String × Expr)} (hraw : Definition.readRaw source = .ok raw)
    (hnames : (raw.map Prod.fst).Nodup)
    (htokens : ∀ t ∈ Token.scan source, t.IsCommon ∧ '\n' ∉ t.text.toList)
    (hempty : ∀ b ∈ raw, b.2.alternatives.count .empty ≤ 1) : ∃ g, Grammar.read source = .ok g := by
  obtain ⟨d, hscan, -, rfl⟩ := readRaw_eq_ok_iff.1 hraw
  obtain ⟨entries, finish, isFinish⟩ := d
  have hlexemes : ∀ t ∈ entries.flatMap Entry.tokens, IsLexeme t.text.toList t.kind := by
    obtain ⟨ts, last, hts, hlexemes, -⟩ := exists_scanFrom 0 source
    have hsame : entries.flatMap Entry.tokens ++ [finish] = ts ++ [last] := hscan.trans hts
    rw [(List.append_inj' hsame rfl).1]
    exact hlexemes
  have hshared : ∀ t ∈ entries.flatMap Entry.tokens, IsShared t := fun t ht => by
    obtain ⟨hcommon, hfeed⟩ := htokens t (hscan ▸ List.mem_append_left _ ht)
    exact ⟨hcommon, hfeed, hlexemes t ht⟩
  obtain ⟨ps, hderives, hps⟩ := Definition.exists_derivesAll hshared
  rw [TextDerivation.raw, ← hps] at hnames hempty
  have hdistinct : (ps.map Production.name).Nodup := by
    rw [List.map_map] at hnames
    exact hnames
  have hle : ∀ p ∈ ps, p.emptyRules ≤ 1 := fun p hp => by
    rw [← count_empty_expr]
    exact hempty _ (List.mem_map_of_mem hp)
  refine ⟨⟨⟨ps, hdistinct⟩, hle⟩, Grammar.read_eq_ok_iff_section.2 ?_⟩
  rw [RulesSection.text_ofSource hlines]
  exact ⟨_, hderives, laidOut_of_scanFrom hscan.symm isFinish⟩

/-- Both notations agree on the texts that they share. What both readers accept they read as the
same names with the same bodies in the same order. A text of definitions without marks, parentheses
and classes is a grammar text too, when no token holds a line feed and no body has two alternatives
that stand for nothing. -/
theorem notations_agree
    (hlines : ∀ line ∈ source.splitOn '\n', RulesSection.isMarker line = false) :
    (∀ g defs, Grammar.read source = .ok g → Definitions.read source = .ok defs →
      defs.names = g.names ∧ ∀ p ∈ g.productions, defs.find? p.name = some p.body) ∧
    (∀ raw defs, Definition.readRaw source = .ok raw → Definitions.read source = .ok defs →
      (∀ t ∈ Token.scan source, t.IsCommon ∧ '\n' ∉ t.text.toList) →
      (∀ b ∈ raw, b.2.alternatives.count .empty ≤ 1) → ∃ g, Grammar.read source = .ok g) := by
  constructor
  · intro g defs hg hdefs
    have hentries := entries_eq_of_read hlines hg hdefs
    constructor
    · simp [Table.names, NamedProductions.names, hentries]
    · intro p hp
      rw [Table.find?_eq_some_iff, hentries]
      exact List.mem_map_of_mem hp
  · intro raw defs hraw hdefs htokens hempty
    obtain ⟨raw', hraw', hreads⟩ := Definitions.read_eq_ok_iff.1 hdefs
    obtain rfl : raw = raw' := Except.ok.inj (hraw.symm.trans hraw')
    refine exists_grammar_of_readRaw hlines hraw ?_ htokens hempty
    rw [names_eq_of_reads hreads]
    exact defs.nodup

/-- A text with a comment and an empty alternative. -/
theorem notations_agree_optional :
    ∃ g defs, Grammar.read "a ::= 'x' b /* or */ | ;".toList = .ok g ∧
      Definitions.read "a ::= 'x' b /* or */ | ;".toList = .ok defs ∧
      defs.names = g.names ∧ ∀ p ∈ g.productions, defs.find? p.name = some p.body := by
  have hraw : Definition.readRaw "a ::= 'x' b /* or */ | ;".toList =
      .ok [("a", .alt [.seq [.term "'x'", .ref "b"], .seq []])] := by decide +kernel
  obtain ⟨defs, hdefs, -⟩ := map_eq_ok_iff.1 (by decide +kernel :
    (Definitions.read "a ::= 'x' b /* or */ | ;".toList).map Table.names = .ok ["a"])
  have htokens : ∀ t ∈ Token.scan "a ::= 'x' b /* or */ | ;".toList,
      t.IsCommon ∧ '\n' ∉ t.text.toList := by decide +kernel
  obtain ⟨hsame, hgrammar⟩ :=
    notations_agree (by decide : ∀ line ∈ "a ::= 'x' b /* or */ | ;".toList.splitOn '\n',
      RulesSection.isMarker line = false)
  obtain ⟨g, hg⟩ := hgrammar _ defs hraw hdefs htokens (by decide)
  exact ⟨g, defs, hg, hdefs, hsame g defs hg hdefs⟩

/-- A literal that takes a line feed after a backslash is one of definitions only. -/
theorem not_notations_agree_joined_literal :
    ¬∀ source : List Char, (∀ line ∈ source.splitOn '\n', RulesSection.isMarker line = false) →
      ∀ raw defs, Definition.readRaw source = .ok raw → Definitions.read source = .ok defs →
        (∀ t ∈ Token.scan source, t.IsCommon) →
        (∀ b ∈ raw, b.2.alternatives.count .empty ≤ 1) → ∃ g, Grammar.read source = .ok g := by
  intro h
  have hraw : Definition.readRaw "a ::= 'x\\\ny' ;".toList =
      .ok [("a", .alt [.seq [.term "'x\\\ny'"]])] := by decide +kernel
  obtain ⟨defs, hdefs, -⟩ := map_eq_ok_iff.1 (by decide +kernel :
    (Definitions.read "a ::= 'x\\\ny' ;".toList).map Table.names = .ok ["a"])
  have htokens : ∀ t ∈ Token.scan "a ::= 'x\\\ny' ;".toList, t.IsCommon := by decide +kernel
  obtain ⟨g, hg⟩ := h _ (by decide) _ defs hraw hdefs htokens (by decide)
  have hrefused : ((Grammar.read "a ::= 'x\\\ny' ;".toList).map (·.names)).toOption = none := by
    decide +kernel
  rw [hg] at hrefused
  exact absurd hrefused (by simp [Except.map, Except.toOption])

end Agreement

end GrammarOutline
