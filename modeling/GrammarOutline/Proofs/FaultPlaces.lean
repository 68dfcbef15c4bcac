import GrammarOutline.Production.Reader
import GrammarOutline.Proofs.Definition.Lossless
import GrammarOutline.Proofs.Parsing.Bounds
import GrammarOutline.Proofs.Production.Malformed
import GrammarOutline.Proofs.Production.Section

/-!
# Where faults are found

A fault of a text points into this text: it knows the line and the column of its offset, and a
lexical fault shows the characters that stand there. Faults of a grammar text lie in its rules
section, those of definitions at a token.
-/
namespace GrammarOutline
open Parsing

/-- The place is an offset of the source, with its line and its column there. -/
structure Place.IsAt (place : Place) (source : List Char) (offset : Nat) : Prop where
  offset_eq : place.offset = offset
  offset_le : offset ≤ source.length
  line_eq : place.line = Text.lineNumber source offset
  column_eq : place.column = Text.column source offset

/-- The excerpt shows some characters of the source from an offset on, up to sixteen and none of
them blank. -/
structure Text.ShownAt (source : List Char) (offset : Nat) (excerpt : String) : Prop where
  length_pos : 1 ≤ excerpt.toList.length
  length_le : excerpt.toList.length ≤ 16
  not_blank : ∀ c ∈ excerpt.toList, isBlank c = false
  slice_eq : (source.drop offset).take excerpt.toList.length = excerpt.toList

/-- A fault of a text is at an offset of this text for which `possible` holds. If it is lexical, it
shows what stands there. Other faults have no place. -/
def Fault.Located (source : List Char) (possible : Nat → Prop) : Fault → Prop
  | .lexical excerpt place =>
    ∃ offset, place.IsAt source offset ∧ possible offset ∧ Text.ShownAt source offset excerpt
  | .unexpected _ place => ∃ offset, place.IsAt source offset ∧ possible offset
  | .duplicate _ | .emptyAlternatives _ _ | .doubleQuantification _ | .invariant _ | .general _
  | .unreadable _ _ => True

variable {source : List Char} {possible : Nat → Prop} {fault : Fault}

theorem Place.isAt_inSource {offset : Nat} (h : offset ≤ source.length) :
    (Place.inSource source offset).IsAt source offset where
  offset_eq := rfl
  offset_le := h
  line_eq := rfl
  column_eq := by
    have hstart := Text.lineStart_le source offset
    show (offset : Int) - Text.lineStart source offset + 1 =
      (offset - Text.lineStart source offset + 1 : Nat)
    omega

/-- Faults about rules of grammars have no place. -/
theorem Fault.located_of_kind (h : fault.kind = .invariant) : fault.Located source possible := by
  cases fault with
  | lexical | unexpected => simp [kind] at h
  | _ => trivial

section Excerpts

/-- The text starts with a character that is not blank, and the excerpt shows its front. -/
def Text.ShowsFront (text : List Char) (excerpt : String) : Prop :=
  ∃ c rest, text = c :: rest ∧ isBlank c = false ∧ excerpt = String.ofList (Text.excerpt text)

theorem Text.ShowsFront.shownAt {text : List Char} {excerpt : String} {offset : Nat}
    (h : ShowsFront text excerpt) (hslice : text <+: source.drop offset) :
    ShownAt source offset excerpt := by
  obtain ⟨c, rest, rfl, hc, rfl⟩ := h
  have hfront : Text.excerpt (c :: rest) = c :: (rest.take 15).takeWhile fun d => !isBlank d := by
    simp [Text.excerpt, hc, excerptLimit]
  refine ⟨?_, ?_, ?_, ?_⟩ <;> rw [String.toList_ofList]
  · simp [hfront]
  · have hlength := (List.takeWhile_prefix (fun d => !isBlank d) (l := rest.take 15)).length_le
    rw [List.length_take] at hlength
    rw [hfront, List.length_cons]
    omega
  · intro d hd
    rw [hfront] at hd
    rcases List.mem_cons.1 hd with rfl | hd
    · exact hc
    · simpa using List.mem_takeWhile_imp hd
  · have hshown : Text.excerpt (c :: rest) <+: c :: rest := Token.excerpt_prefix _
    exact (List.prefix_iff_eq_take.1 (hshown.trans hslice)).symm

end Excerpts

section Productions

/-- What a scanner shows where it breaks off is the front of the text there. -/
def Parsing.Scanner.ShowsFront {α : Type} (s : Scanner Char α) : Prop :=
  ∀ text expected after excerpt, s.read text = .broken expected after (some excerpt) →
    Text.ShowsFront (text.drop after) excerpt

/-- What a failure shows is the front of the text at its position. -/
def Parsing.Failure.ShowsFront (text : List Char) (f : Failure) : Prop :=
  ∀ excerpt ∈ f.excerpt, ∃ position : Nat, f.position = position ∧
    Text.ShowsFront (text.drop position) excerpt

theorem Parsing.Failure.showsFront_of_none {text : List Char} {f : Failure} (h : f.excerpt = none) :
    f.ShowsFront text := by
  intro excerpt hexcerpt
  simp [h] at hexcerpt

theorem Parsing.Scanner.ShowsFront.keeps {α : Type} {s : Scanner Char α} (h : s.ShowsFront)
    {text : List Char} {c : Cursor Char} (hc : c.From text 0) :
    (s.run c).Keeps (Cursor.From text 0) (Failure.ShowsFront text) := by
  have hwithin := s.keeps_within hc
  obtain ⟨position, rfl, -, -⟩ := hc
  rw [Scanner.run] at hwithin ⊢
  have hrest : (Cursor.ofPosition text position).rest = text.drop position := rfl
  rw [hrest] at hwithin ⊢
  cases hread : s.read (text.drop position) with
  | taken value count =>
    rw [hread] at hwithin
    exact ⟨hwithin.1, by simp⟩
  | refused expected => exact Failure.showsFront_of_none rfl
  | broken expected after excerpt =>
    rintro shown rfl
    have hshows := h _ _ _ _ hread
    rw [List.drop_drop] at hshows
    refine ⟨position + after, ?_, hshows⟩
    dsimp only
    rw [Cursor.position_ofPosition, Int.natCast_add]

namespace Production

theorem showsFront_lexeme {split : List Char → Option (List Char × List Char)} {h}
    {expected : String} : (Scanner.lexeme split h expected).ShowsFront := by
  intro text _ _ _ hread
  simp only [Scanner.lexeme] at hread
  split at hread <;> simp at hread

theorem showsFront_literal {text : List Char} {expected : String} :
    (Scanner.literal text expected).ShowsFront := by
  intro input _ _ _ hread
  simp only [Scanner.literal] at hread
  split at hread <;> simp at hread

theorem showsFront_endOfInput : (Scanner.endOfInput (σ := Char)).ShowsFront := by
  intro text _ _ _ hread
  cases text <;> simp [Scanner.endOfInput] at hread

theorem showsFront_skipLayout : skipLayout.ShowsFront := by
  intro text _ _ _ hread
  have happend := Lexeme.layout_append text
  simp only [skipLayout] at hread
  generalize Lexeme.layout text = pieces at happend hread
  obtain ⟨front, rest⟩ := pieces
  dsimp only at happend hread
  subst happend
  split at hread
  case h_1 inner =>
    obtain ⟨-, rfl, hexcerpt⟩ := Scan.broken.inj hread
    rw [List.drop_left]
    exact ⟨'/', '*' :: inner, rfl, by decide, (Option.some.inj hexcerpt).symm⟩
  case h_2 => exact absurd hread (by simp)

theorem showsFront_actionBlock : actionBlock.ShowsFront := by
  intro text _ _ _ hread
  cases text with
  | nil => simp [actionBlock] at hread
  | cons c rest =>
    simp only [actionBlock] at hread
    split at hread
    · split at hread <;> simp at hread
    · simp at hread

theorem showsFront_openLiteral : openLiteral.ShowsFront := by
  intro text _ _ _ hread
  cases text with
  | nil => simp [openLiteral] at hread
  | cons c rest =>
    simp only [openLiteral] at hread
    split_ifs at hread with hquote
    obtain ⟨-, rfl, hexcerpt⟩ := Scan.broken.inj hread
    have hc : Text.isBlank c = false := by
      rcases Bool.or_eq_true_iff.1 hquote with h | h <;> rw [of_decide_eq_true h] <;> decide
    exact ⟨c, rest, rfl, hc, (Option.some.inj hexcerpt).symm⟩

theorem showsFront_strayCharacter : strayCharacter.ShowsFront := by
  intro text _ _ _ hread
  cases text with
  | nil => simp [strayCharacter] at hread
  | cons c rest =>
    simp only [strayCharacter] at hread
    split_ifs at hread with hstray
    obtain ⟨-, rfl, hexcerpt⟩ := Scan.broken.inj hread
    rw [Bool.not_eq_true, Bool.or_eq_false_iff] at hstray
    exact ⟨c, rest, rfl, hstray.1, (Option.some.inj hexcerpt).symm⟩

theorem allScanners_productions : productions.AllScanners Scanner.ShowsFront := by
  simp [productions, production, sign, ruleList, rule, element, precedenceMark, quoted,
    identifier, word, afterLayout, Parser.left, Parser.right, Parser.sepBy1, Parser.choice,
    Parser.literal, Parser.endOfInput, Parser.AllScanners, showsFront_lexeme, showsFront_literal,
    showsFront_endOfInput, showsFront_skipLayout, showsFront_actionBlock, showsFront_openLiteral,
    showsFront_strayCharacter]

/-- Every failure in the reading of productions shows the front of the text where it is. -/
theorem keeps_productions (text : List Char) :
    (productions.run noRules text 0).Keeps (Cursor.From text 0) (Failure.ShowsFront text) :=
  have hscan : productions.AllScanners fun s => ∀ c, Cursor.From text 0 c →
      (s.run c).Keeps (Cursor.From text 0) (Failure.ShowsFront text) :=
    allScanners_productions.mono fun _ hs _ hc => hs.keeps hc
  productions.keeps_run (.of_excerpt _ fun _ => Failure.showsFront_of_none) (fun i => i.elim0) hscan
    ⟨0, rfl, Nat.le_refl _, Nat.zero_le _⟩

/-- A position of the rules section is a place of the whole text. -/
theorem isAt_rulesSection {position : Nat}
    (h : position ≤ (RulesSection.ofSource source).text.length) :
    (⟨(RulesSection.ofSource source).base + position, some source⟩ : Place).IsAt source
      ((RulesSection.ofSource source).base + position) := by
  have hend := RulesSection.base_add_length_ofSource_le source
  rw [← Int.natCast_add]
  exact Place.isAt_inSource (by omega)

/-- Faults in the reading of productions lie in the rules section. -/
theorem located_readRaw (h : readRaw source = .error fault) :
    fault.Located source fun offset => (RulesSection.ofSource source).base ≤ offset ∧
      offset ≤
        (RulesSection.ofSource source).base + (RulesSection.ofSource source).text.length := by
  have hwithin := productions.keeps_run_within noRules
    (Nat.zero_le (RulesSection.ofSource source).text.length)
  have hshows := keeps_productions (RulesSection.ofSource source).text
  rw [readRaw] at h
  dsimp only at h
  cases hrun : productions.run noRules (RulesSection.ofSource source).text 0 with
  | success raw next hint => simp [hrun] at h
  | exhausted =>
    rw [hrun] at h
    obtain rfl := Except.error.inj h
    exact ⟨_, isAt_rulesSection (Nat.zero_le _), Nat.le_refl _, Nat.le_add_right _ _⟩
  | failure f =>
    rw [hrun] at h hwithin hshows
    obtain ⟨hfirst, hlast⟩ := hwithin
    obtain ⟨position, hposition⟩ := Int.eq_ofNat_of_zero_le hfirst
    rw [hposition] at hlast
    have hle : position ≤ (RulesSection.ofSource source).text.length := Int.ofNat_le.1 hlast
    dsimp only at h
    rw [hposition] at h
    cases hexcerpt : f.excerpt with
    | some excerpt =>
      rw [hexcerpt] at h
      obtain rfl := Except.error.inj h
      obtain ⟨_, hsame, hfront⟩ := hshows excerpt hexcerpt
      obtain rfl := Int.ofNat.inj (hposition.symm.trans hsame)
      exact ⟨_, isAt_rulesSection hle, by omega,
        hfront.shownAt (RulesSection.slice_of_drop_text source position)⟩
    | none =>
      rw [hexcerpt] at h
      obtain rfl := Except.error.inj h
      exact ⟨_, isAt_rulesSection hle, by omega⟩

end Production

end Productions

section Definitions

open Token

theorem Token.scan_ne_nil (source : List Char) : scan source ≠ [] := by
  obtain ⟨placed, gap, rest, last, -, hscan, -⟩ := Placed.exists_printed 0 source
  simp [scan, hscan]

theorem Token.offset_le_of_mem_scan {t : Token} (ht : t ∈ scan source) :
    t.offset ≤ source.length := by
  obtain ⟨placed, gap, rest, last, htext, hscan, -, -, hlast⟩ := Placed.exists_printed 0 source
  have hlength := congrArg List.length htext
  rw [Placed.printed, List.length_append, List.length_append] at hlength
  rw [scan, hscan] at ht
  rcases List.mem_append.1 ht with ht | ht
  · have hoffset := (Placed.offset_of_mem_tokens ht).2
    omega
  · rw [List.mem_singleton.1 ht]
    rcases hlast with ⟨-, rfl⟩ | ⟨-, -, rfl⟩ <;> simp only [Placed.printed, List.length_append] <;>
      omega

/-- A malformed token shows the front of the text where it stands. -/
theorem Token.showsFront_of_malformed {t : Token} (ht : t ∈ scan source)
    (hkind : t.kind = .malformed) : Text.ShowsFront (source.drop t.offset) t.text := by
  obtain ⟨placed, gap, rest, last, htext, hscan, -, -, hlast⟩ := Placed.exists_printed 0 source
  rw [scan, hscan] at ht
  rcases List.mem_append.1 ht with ht | ht
  · exact absurd hkind (Placed.kind_of_mem_tokens ht).2
  · obtain rfl := List.mem_singleton.1 ht
    rcases hlast with ⟨-, rfl⟩ | ⟨hne, hnothing, rfl⟩
    · exact absurd hkind (by simp)
    · rw [htext, Nat.zero_add, List.drop_left]
      obtain ⟨c, rest, rfl⟩ := List.exists_cons_of_ne_nil hne
      refine ⟨c, rest, rfl, ?_, rfl⟩
      rw [← Bool.not_eq_true]
      exact fun hc => (hnothing [c] rest rfl (by simp)).1 (.blank hc .nil)

namespace Definition

theorem mem_of_tooDeep? {depth : Nat} {tokens : List Token} {t : Token}
    (h : tooDeep? depth tokens = some t) : t ∈ tokens := by
  fun_induction tooDeep? depth tokens with
  | case1 => exact absurd h (by simp)
  | case2 depth first tokens =>
    obtain rfl := Option.some.inj h
    exact List.mem_cons_self
  | case3 _ _ _ _ _ ih => exact List.mem_cons_of_mem _ (ih h)
  | case4 _ _ _ _ _ ih => exact List.mem_cons_of_mem _ (ih h)
  | case5 _ _ _ _ _ ih => exact List.mem_cons_of_mem _ (ih h)

theorem exists_mem_offsetAt {tokens : List Token} (h : tokens ≠ []) (position : Int) :
    ∃ t ∈ tokens, t.offset = offsetAt tokens position := by
  have hpos := List.length_pos_iff.2 h
  have hindex : min position.toNat (tokens.length - 1) < tokens.length := by omega
  rw [offsetAt, List.getElem?_eq_getElem hindex]
  exact ⟨_, List.getElem_mem hindex, rfl⟩

theorem exists_malformed_of_fault? {tokens : List Token} (h : fault? source tokens = some fault) :
    ∃ t ∈ tokens, t.kind = .malformed ∧
      fault = .lexical t.text (Place.inSource source t.offset) := by
  cases hlast : tokens.getLast? with
  | none => simp [fault?, hlast] at h
  | some t =>
    obtain ⟨kind, text, offset⟩ := t
    cases kind with
    | malformed =>
      rw [fault?, hlast] at h
      exact ⟨_, List.mem_of_getLast? hlast, rfl, (Option.some.inj h).symm⟩
    | _ => simp [fault?, hlast] at h

/-- Faults in the reading of definitions are at tokens. -/
theorem located_readRaw (h : readRaw source = .error fault) :
    fault.Located source fun offset => ∃ t ∈ scan source, t.offset = offset := by
  have hat : ∀ t ∈ scan source, (Place.inSource source t.offset).IsAt source t.offset :=
    fun t ht => Place.isAt_inSource (offset_le_of_mem_scan ht)
  have hends := notLeftRecursive_definition.run_ne_exhausted definitions
    (Nat.zero_le (scan source).length)
  cases hfault : fault? source (scan source) with
  | some found =>
    simp only [readRaw, hfault, Except.error.injEq] at h
    obtain ⟨t, hmem, hkind, rfl⟩ := exists_malformed_of_fault? hfault
    subst h
    exact ⟨t.offset, hat t hmem, ⟨t, hmem, rfl⟩,
      (showsFront_of_malformed hmem hkind).shownAt List.prefix_rfl⟩
  | none =>
  cases hdeep : tooDeep? 0 (scan source) with
  | some t =>
    simp only [readRaw, hfault, hdeep, Except.error.injEq] at h
    subst h
    have hmem := mem_of_tooDeep? hdeep
    exact ⟨t.offset, hat t hmem, t, hmem, rfl⟩
  | none =>
  cases hrun : definitions.run rules (scan source) 0 with
  | success raw next hint => simp [readRaw, hfault, hdeep, hrun] at h
  | exhausted => exact absurd hrun hends
  | failure f =>
    simp only [readRaw, hfault, hdeep, hrun, Except.error.injEq] at h
    subst h
    obtain ⟨t, hmem, hoffset⟩ := exists_mem_offsetAt (scan_ne_nil source) f.position
    rw [← hoffset]
    exact ⟨t.offset, hat t hmem, t, hmem, rfl⟩

theorem kind_of_addAll {defs : Definitions} {raw : List (String × Expr)}
    (h : addAll defs raw = .error fault) : fault.kind = .invariant := by
  induction raw generalizing defs with
  | nil => simp [addAll] at h
  | cons entry raw ih =>
    obtain ⟨name, body⟩ := entry
    rw [addAll] at h
    by_cases hname : defs.contains name = true
    · rw [if_pos hname] at h
      obtain rfl := Except.error.inj h
      rfl
    · rw [if_neg hname] at h
      cases hbody : body.normalize with
      | error marks =>
        rw [hbody] at h
        obtain rfl := Except.error.inj h
        rfl
      | ok normal =>
        rw [hbody] at h
        exact ih h

end Definition

end Definitions

/-- Faults are found where they are said to be. A fault of a grammar text lies in its rules section,
and one of definitions is at a token of their text. It knows its line and its column in the whole
text, and a lexical one shows the characters that stand there. -/
theorem faults_located (source : List Char) :
    (∀ fault, Grammar.read source = .error fault →
      fault.Located source fun offset => (RulesSection.ofSource source).base ≤ offset ∧
        offset ≤ (RulesSection.ofSource source).base + (RulesSection.ofSource source).text.length) ∧
    ∀ fault, Definitions.read source = .error fault →
      fault.Located source fun offset => ∃ t ∈ Token.scan source, t.offset = offset := by
  constructor
  · intro fault h
    rcases bind_eq_error_iff.1 h with hraw | ⟨raw, -, hadd⟩
    · exact Production.located_readRaw hraw
    · exact Fault.located_of_kind (Grammar.kind_of_addAll hadd)
  · intro fault h
    rcases bind_eq_error_iff.1 h with hraw | ⟨raw, -, hadd⟩
    · exact Definition.located_readRaw hraw
    · exact Fault.located_of_kind (Definition.kind_of_addAll hadd)

/-- A quote that is not closed behind a marker line, and a group that is not closed on a second
line. -/
theorem faults_located_notClosed :
    let grammar := "%%\na : b | 'x ;".toList
    let definitions := "x ::= y\n | ( z ;".toList
    let quote := Fault.lexical "'x" (Place.inSource grammar 11)
    let group := Fault.unexpected "quantifier or atom or '|' or ')'" (Place.inSource definitions 15)
    (Grammar.read grammar = .error quote ∧
      quote.Located grammar fun offset => 2 ≤ offset ∧ offset ≤ 15) ∧
    Definitions.read definitions = .error group ∧
      group.Located definitions fun offset => ∃ t ∈ Token.scan definitions, t.offset = offset := by
  intro grammar definitions quote group
  have hraw : Production.readRaw grammar = .error quote := by decide +kernel
  have hread : Grammar.read grammar = .error quote := bind_eq_error_iff.2 (.inl hraw)
  have hraw' : (Definition.readRaw definitions).map (fun _ => ()) = .error group := by
    decide +kernel
  have hread' : Definitions.read definitions = .error group :=
    bind_eq_error_iff.2 (.inl (map_eq_error_iff.1 hraw'))
  have hsection : RulesSection.ofSource grammar = ⟨2, "\na : b | 'x ;".toList⟩ := by decide +kernel
  have hgrammar := (faults_located grammar).1 quote hread
  rw [hsection] at hgrammar
  exact ⟨⟨hread, hgrammar⟩, hread', (faults_located definitions).2 group hread'⟩

end GrammarOutline
