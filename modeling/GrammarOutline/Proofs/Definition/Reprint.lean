import GrammarOutline.Proofs.Definition.Acceptance
import GrammarOutline.Proofs.Definition.Nesting

/-!
# Printing what was read

What is read from a text can be printed, one definition on each line. The names are identifiers and
the bodies are normal forms that consist of lexemes, so the printed text has a derivation, and its
groups are exactly those that the bodies need. It is read with the same result unless one of them is
nested too deep, for a body in normal form may need one group more than the text it comes from.
-/
namespace GrammarOutline

/-- A definition on one line, with the sign that ends it. -/
def Definition.statement (d : Definition) : List Char := d.chars ++ " ;".toList

/-- The text of a table of definitions, one on each line. -/
def Definitions.text (defs : Definitions) : List Char :=
  ['\n'].intercalate (defs.toList.map Definition.statement)

namespace Expr

section Lexical

variable {e n operand : Expr} {mark : String}

theorem isLexical_quant_iff (operand : Expr) (mark : String) :
    (Expr.quant operand mark).IsLexical ↔ operand.IsLexical ∧ mark ∈ ["?", "*", "+"] := by
  constructor
  · intro h
    cases h with
    | quant member isMark => exact ⟨member, isMark⟩
  · exact fun h => .quant h.1 h.2

theorem hereditary_isLexical : Hereditary IsLexical := by
  refine hereditary_of_quant_iff (fun as => ⟨fun h => ?_, .alt⟩) (fun es => ⟨fun h => ?_, .seq⟩)
    isLexical_quant_iff (by decide) (by decide)
  · cases h with
    | alt members => exact members
  · cases h with
    | seq members => exact members

theorem IsLexical.normalize (he : e.IsLexical) (hn : e.normalize = .ok n) : n.IsLexical :=
  hereditary_isLexical.normalize isLexical_quant_iff he hn

theorem IsLexical.marks {marks : List Token} (he : e.IsLexical)
    (hmarks : ∀ t ∈ marks, Definition.IsMark t) :
    (marks.foldl (fun e t => .quant e t.text) e).IsLexical := by
  induction marks generalizing e with
  | nil => exact he
  | cons t marks ih =>
    simp only [List.mem_cons, forall_eq_or_imp] at hmarks
    have hmark : t.text ∈ ["?", "*", "+"] := by
      rcases hmarks.1 with h | h | h <;> simp [h.2]
    exact ih (.quant he hmark) hmarks.2

end Lexical

end Expr

namespace Definition

open GrammarOutline.Expr

section Lexical

/-- The tokens of a list are written as lexemes of their kinds. -/
def AreLexemes (ts : List Token) : Prop := ∀ t ∈ ts, Token.IsLexeme t.text.toList t.kind

theorem Derivation.isLexical {level : Level} (d : Derivation level) (h : AreLexemes d.tokens) :
    d.expr.IsLexical := by
  induction d with
  | last s ih => exact .alt (List.forall_mem_singleton.2 (ih h))
  | bar s sign isSign others ih ihs =>
    obtain ⟨hs, hothers⟩ := List.forall_mem_append.1 h
    have hlater := ihs (List.forall_mem_cons.1 hothers).2
    rw [others.expr_alternation] at hlater
    exact .alt (List.forall_mem_cons.2 ⟨ih hs, (hereditary_isLexical.alt_iff _).1 hlater⟩)
  | nothing => exact .seq (by simp)
  | item q others ih ihs =>
    obtain ⟨hq, hothers⟩ := List.forall_mem_append.1 h
    have hlater := ihs hothers
    rw [others.expr_sequence] at hlater
    exact .seq (List.forall_mem_cons.2 ⟨ih hq, (hereditary_isLexical.seq_iff _).1 hlater⟩)
  | marked a marks areMarks ih => exact (ih (List.forall_mem_append.1 h).1).marks areMarks
  | name t isName =>
    have hname := List.forall_mem_singleton.1 h
    rw [isName] at hname
    exact .ref hname
  | terminal t isTerminal =>
    have hterm := List.forall_mem_singleton.1 h
    rcases isTerminal with hkind | hkind | hkind <;> rw [hkind] at hterm
    · exact .term (.inl hterm)
    · exact .term (.inr (.inl hterm))
    · exact .term (.inr (.inr hterm))
  | group opening opens inner closing closes ih =>
    exact ih (List.forall_mem_append.1 (List.forall_mem_cons.1 h).2).1

/-- A name that can be read, with a body that is a normal form and consists of lexemes. -/
structure Printable (d : Definition) : Prop where
  isName : Lexeme.IsIdentifier d.name.toList
  isNormal : d.body.IsNormal
  isLexical : d.body.IsLexical

theorem Entry.printable {e : Entry} {n : Expr} (h : AreLexemes e.tokens)
    (hn : e.body.expr.normalize = .ok n) : Printable ⟨e.name.text, n⟩ := by
  obtain ⟨hname, hothers⟩ := List.forall_mem_cons.1 h
  obtain ⟨-, hrest⟩ := List.forall_mem_cons.1 hothers
  obtain ⟨hbody, -⟩ := List.forall_mem_append.1 hrest
  rw [e.isName] at hname
  exact ⟨hname, isNormal_of_normalize hn, (e.body.isLexical hbody).normalize hn⟩

end Lexical

section Reading

variable {source : List Char} {defs : Definitions}

/-- Definitions are read off the derivation of a text, each in normal form. -/
theorem read_eq_ok_iff_derivation : Definitions.read source = .ok defs ↔
    ∃ d : TextDerivation, d.tokens = Token.scan source ∧ d.Shallow ∧
      List.Forall₂ Reads d.raw defs.entries := by
  rw [Definitions.read_eq_ok_iff]
  constructor
  · rintro ⟨raw, hraw, hentries⟩
    obtain ⟨d, htokens, hshallow, rfl⟩ := readRaw_eq_ok_iff.1 hraw
    exact ⟨d, htokens, hshallow, hentries⟩
  · rintro ⟨d, htokens, hshallow, hentries⟩
    exact ⟨d.raw, readRaw_eq_ok_iff.2 ⟨d, htokens, hshallow, rfl⟩, hentries⟩

/-- The tokens of a derived text are lexemes, but for the end. -/
theorem TextDerivation.areLexemes {d : TextDerivation} (h : d.tokens = Token.scan source) :
    ∀ e ∈ d.entries, AreLexemes e.tokens := by
  obtain ⟨ts, last, hscan, hlexemes, -⟩ := Token.exists_scanFrom 0 source
  have happend : d.entries.flatMap Entry.tokens ++ [d.finish] = ts ++ [last] := by
    rw [← hscan, ← Token.scan, ← h, tokens]
  obtain ⟨rfl, -⟩ := List.append_inj' happend rfl
  exact fun e he t ht => hlexemes t (List.mem_flatMap.2 ⟨e, he, ht⟩)

theorem printable_of_read (h : Definitions.read source = .ok defs) :
    ∀ d ∈ defs.toList, Printable d := by
  obtain ⟨d, htokens, -, hentries⟩ := read_eq_ok_iff_derivation.1 h
  intro definition hdefinition
  obtain ⟨entry, hentry, rfl⟩ := List.mem_map.1 hdefinition
  obtain ⟨raw, hraw, hname, hnormal⟩ := exists_mem_of_forall₂ hentries hentry
  obtain ⟨e, he, rfl⟩ := List.mem_map.1 hraw
  rw [← hname]
  exact Entry.printable (d.areLexemes htokens e he) hnormal

end Reading

section Printing

/-- The entry of a printed definition. It has the groups that the body needs and no others, and none
of its alternatives stands for nothing where the body is quantified. -/
structure Prints (e : Entry) (d : Definition) : Prop where
  name : e.name.text = d.name
  normal : e.body.expr.normalize = .ok d.body
  depth_le : e.body.depth ≤ d.body.bareDepth
  proper : d.body.isQuant = true → ∀ a ∈ e.body.expr.alternatives, a.normalize ≠ .ok empty

/-- A printed definition nests its groups as deep as its body needs it. -/
theorem Prints.depth_eq {e : Entry} {d : Definition} (h : Prints e d) :
    e.body.depth = d.body.writtenDepth 0 := by
  rcases e.body.derives.bareDepth_le h.normal with hle | ⟨⟨a, ha, hempty⟩, hquant, -⟩
  · exact Nat.le_antisymm h.depth_le hle
  · exact absurd hempty (h.proper hquant a ha)

/-- The text of a normal form is read as a tree of which no alternative stands for nothing where the
normal form is quantified. -/
theorem exists_tree {e : Expr} (hnormal : e.IsNormal) (he : e.IsLexical) :
    ∃ t, t.normalize = .ok e ∧
      (e.isQuant = true → ∀ a ∈ t.alternatives, a.normalize ≠ .ok empty) ∧
      ∀ offset rest, Lexeme.EndsIdentifier rest → ∃ ts,
        Token.scanFrom offset (e.written 0 ++ rest) =
          ts ++ Token.scanFrom (offset + (e.written 0).length) rest ∧
        Derives e.bareDepth .alternation ts t := by
  have hreads := readsAs_bare he
  by_cases hquant : e.isQuant = true
  · have hprecedence : 1 ≤ e.precedence := by
      cases e <;> simp [isQuant, precedence] at hquant ⊢
    obtain ⟨t, hsame, hscans⟩ := hreads.of_le hprecedence
    have hnormalize : t.normalize = .ok e := (hsame e).2 hnormal.normalize_eq
    refine ⟨.alt [t], (sameNormal_alt_singleton t e).2 hnormalize, fun _ a ha => ?_, ?_⟩
    · rw [List.mem_singleton.1 ha, hnormalize]
      intro hempty
      rw [Except.ok.inj hempty] at hquant
      exact absurd hquant (by decide)
    · intro offset rest hrest
      obtain ⟨ts, hscan, hderives⟩ := hscans offset rest hrest
      exact ⟨ts, hscan, .last hderives⟩
  · obtain ⟨t, hsame, hscans⟩ := hreads.of_le (Nat.zero_le _)
    exact ⟨t, (hsame e).2 hnormal.normalize_eq, fun h => absurd h hquant, hscans⟩

/-- A definition that is printed is scanned into its entry. -/
theorem exists_prints {d : Definition} (h : Printable d) (offset : Nat) (rest : List Char) :
    ∃ (e : Entry) (after : Nat),
      Token.scanFrom offset (d.statement ++ rest) = e.tokens ++ Token.scanFrom after rest ∧
        Prints e d := by
  obtain ⟨t, hnormal, hproper, hscans⟩ := exists_tree h.isNormal h.isLexical
  obtain ⟨blanks, hblanks, hchars⟩ : ∃ blanks, (∀ c ∈ blanks, Text.isBlank c = true) ∧
      d.chars = d.name.toList ++ " ::=".toList ++ (blanks ++ d.body.written 0) := by
    by_cases hbody : (d.body.written 0).isEmpty = true
    · refine ⟨[], by simp, ?_⟩
      simp [chars, List.isEmpty_iff.1 hbody]
    · refine ⟨[' '], List.forall_mem_singleton.2 (by decide), ?_⟩
      simp [chars, hbody]
  obtain ⟨e, after, hscan, hraw, hdepth⟩ :=
    exists_entry d.name h.isName hscans hblanks offset rest
  have hname : e.name.text = d.name := congrArg Prod.fst hraw
  have hexpr : e.body.expr = t := congrArg Prod.snd hraw
  refine ⟨e, after, ?_, hname, hexpr ▸ hnormal, hdepth, hexpr ▸ hproper⟩
  rw [← hscan, statement, hchars]
  simp

/-- Printed definitions have a derivation, with any blanks after them. -/
theorem exists_printed {ds : List Definition} (h : ∀ d ∈ ds, Printable d) {blanks : List Char}
    (hblanks : ∀ c ∈ blanks, Text.isBlank c = true) (offset : Nat) :
    ∃ printed : TextDerivation,
      printed.tokens = Token.scanFrom offset (['\n'].intercalate (ds.map statement) ++ blanks) ∧
        List.Forall₂ Prints printed.entries ds := by
  have hend : ∀ offset, Token.scanFrom offset blanks = [⟨.finish, "", offset + blanks.length⟩] := by
    intro offset
    have hscan := Token.scanFrom_blanks hblanks offset []
    rwa [List.append_nil, Token.scanFrom_nil] at hscan
  induction ds generalizing offset with
  | nil => exact ⟨⟨[], ⟨.finish, "", offset + blanks.length⟩, rfl⟩, (hend offset).symm, .nil⟩
  | cons d ds ih =>
    obtain ⟨hd, hds⟩ := List.forall_mem_cons.1 h
    cases ds with
    | nil =>
      obtain ⟨e, after, hscan, hprints⟩ := exists_prints hd offset blanks
      refine ⟨⟨[e], ⟨.finish, "", after + blanks.length⟩, rfl⟩, ?_, .cons hprints .nil⟩
      rw [List.map_singleton, List.intercalate_singleton, hscan, hend, TextDerivation.tokens,
        List.flatMap_singleton]
    | cons d' ds =>
      obtain ⟨e, after, hscan, hprints⟩ := exists_prints hd offset
        ('\n' :: (['\n'].intercalate ((d' :: ds).map statement) ++ blanks))
      obtain ⟨printed, htokens, hothers⟩ := ih hds (after + 1)
      refine ⟨⟨e :: printed.entries, printed.finish, printed.isFinish⟩, ?_, .cons hprints hothers⟩
      rw [List.map_cons, List.map_cons, List.intercalate_cons_cons, ← List.map_cons,
        List.append_assoc, List.append_assoc, List.singleton_append, hscan,
        Token.scanFrom_blank (by decide), ← htokens, TextDerivation.tokens, TextDerivation.tokens,
        List.flatMap_cons, List.append_assoc]

/-- The derivation of a printed table has its definitions, and its groups are those of the
bodies. -/
theorem exists_printed_text {defs : Definitions} (h : ∀ d ∈ defs.toList, Printable d)
    {blanks : List Char} (hblanks : ∀ c ∈ blanks, Text.isBlank c = true) :
    ∃ printed : TextDerivation, printed.tokens = Token.scan (defs.text ++ blanks) ∧
      List.Forall₂ Reads printed.raw defs.entries ∧
      (printed.Shallow ↔ ∀ d ∈ defs.toList, d.body.writtenDepth 0 ≤ maxDepth) := by
  obtain ⟨printed, htokens, hprints⟩ := exists_printed h hblanks 0
  refine ⟨printed, htokens, ?_, ?_, ?_⟩
  · rw [TextDerivation.raw, List.forall₂_map_left_iff]
    refine (List.forall₂_map_right_iff.1 hprints).imp fun e entry hprint => ?_
    exact ⟨hprint.name, hprint.normal⟩
  · intro hshallow d hd
    obtain ⟨e, he, hprint⟩ := exists_mem_of_forall₂ hprints hd
    have hdepth : e.body.depth ≤ maxDepth := hshallow e he
    rwa [hprint.depth_eq] at hdepth
  · intro hdepth e he
    obtain ⟨d, hd, hprint⟩ := exists_mem_of_forall₂ hprints.flip he
    have hbody : d.body.writtenDepth 0 ≤ maxDepth := hdepth d hd
    rwa [← hprint.depth_eq] at hbody

/-- Printed definitions are read again if no body needs too many groups, with any blanks after
them. -/
theorem read_text_append_eq_ok {defs : Definitions} (h : ∀ d ∈ defs.toList, Printable d)
    (hdepth : ∀ d ∈ defs.toList, d.body.writtenDepth 0 ≤ maxDepth) {blanks : List Char}
    (hblanks : ∀ c ∈ blanks, Text.isBlank c = true) :
    Definitions.read (defs.text ++ blanks) = .ok defs := by
  obtain ⟨printed, htokens, hreads, hshallow⟩ := exists_printed_text h hblanks
  exact read_eq_ok_iff_derivation.2 ⟨printed, htokens, hshallow.2 hdepth, hreads⟩

theorem read_text_eq_ok {defs : Definitions} (h : ∀ d ∈ defs.toList, Printable d)
    (hdepth : ∀ d ∈ defs.toList, d.body.writtenDepth 0 ≤ maxDepth) :
    Definitions.read defs.text = .ok defs := by
  have hnone : ∀ c ∈ ([] : List Char), Text.isBlank c = true := by simp
  simpa using read_text_append_eq_ok h hdepth hnone

/-- Printed definitions are refused if a body needs too many groups. -/
theorem exists_read_text_eq_error {defs : Definitions} (h : ∀ d ∈ defs.toList, Printable d)
    (hdepth : ¬∀ d ∈ defs.toList, d.body.writtenDepth 0 ≤ maxDepth) : ∃ place,
      Definitions.read defs.text =
        .error (.unexpected ("at most " ++ toString maxDepth ++ " nested groups") place) := by
  have hnone : ∀ c ∈ ([] : List Char), Text.isBlank c = true := by simp
  obtain ⟨printed, htokens, -, hshallow⟩ := exists_printed_text h hnone
  rw [List.append_nil] at htokens
  obtain ⟨place, herror⟩ :=
    TextDerivation.exists_readRaw_eq_error htokens fun hs => hdepth (hshallow.1 hs)
  exact ⟨place, by rw [Definitions.read, herror, Except.bind]⟩

end Printing

/-- A body of a text that was read needs too many groups only if it had as many as are allowed and
one of its alternatives stands for nothing. -/
theorem writtenDepth_le_of_reads {d : TextDerivation} {entries : List (String × Expr)}
    (hshallow : d.Shallow) (h : List.Forall₂ Reads d.raw entries)
    (hproper : ∀ e ∈ d.entries, e.body.depth = maxDepth →
      ∀ a ∈ e.body.expr.alternatives, a.normalize ≠ .ok empty) :
    ∀ entry ∈ entries, entry.2.writtenDepth 0 ≤ maxDepth := by
  intro entry hentry
  obtain ⟨raw, hraw, -, hnormal⟩ := exists_mem_of_forall₂ h hentry
  obtain ⟨e, he, rfl⟩ := List.mem_map.1 hraw
  have hdepth : e.body.depth ≤ maxDepth := hshallow e he
  rw [writtenDepth_zero]
  rcases e.body.derives.bareDepth_le hnormal with hle | ⟨⟨a, ha, hempty⟩, -, hle⟩
  · omega
  · have hne : e.body.depth ≠ maxDepth := fun heq => hproper e he heq a ha hempty
    omega

end Definition

namespace Expr

/-- Repetitions one inside the other, such as `(a (a a)*)*`. -/
def nested : Nat → Expr
  | 0 => .ref "a"
  | depth + 1 => .quant (.seq [.ref "a", nested depth]) "*"

/-- Nothing at all, or a name with nested repetitions after it. -/
def nestedChoice (depth : Nat) : Expr := .alt [.seq [], .seq [.ref "a", nested depth]]

theorem isNormal_seq_nested (depth : Nat) : (Expr.seq [.ref "a", nested depth]).IsNormal := by
  have hplain : ∀ depth, ∀ e ∈ [.ref "a", nested depth], e.isSeq = false := by
    intro depth
    cases depth <;> simp [nested, isSeq]
  induction depth with
  | zero => exact .seq (by simp) (by simp [nested, IsNormal.ref]) (hplain 0)
  | succ depth ih =>
    have hnested : (nested (depth + 1)).IsNormal := .quant ih ⟨rfl, by simp [empty]⟩
    exact .seq (by simp) (by simp [hnested, IsNormal.ref]) (hplain (depth + 1))

/-- Nothing at all makes what stands beside it optional. -/
theorem normalize_nestedChoice (depth : Nat) :
    (nestedChoice depth).normalize = .ok (.quant (.seq [.ref "a", nested depth]) "?") := by
  have hnormal := (isNormal_seq_nested depth).normalize_eq
  have hmembers : normalizeAll [empty, .seq [.ref "a", nested depth]] =
      .ok [empty, .seq [.ref "a", nested depth]] :=
    normalizeAll_eq_of_forall (by simp [isNormal_empty.normalize_eq, hnormal])
  have hnormalize : (nestedChoice depth).normalize =
      .ok (ofAlternatives [empty, .seq [.ref "a", nested depth]]) :=
    map_eq_ok_iff.2 ⟨_, hmembers, rfl⟩
  rw [hnormalize, ofAlternatives_of_mem List.mem_cons_self]
  simp [alternatives, empty, choose, optional]

theorem isLexical_nestedChoice (depth : Nat) : (nestedChoice depth).IsLexical := by
  have hname : (Expr.ref "a").IsLexical := .ref (by decide)
  have hnested : (nested depth).IsLexical := by
    induction depth with
    | zero => exact hname
    | succ depth ih => exact .quant (.seq (by simp [hname, ih])) (by decide)
  exact .alt (by simp [IsLexical.seq, hname, hnested])

theorem bareDepth_seq_nested (depth : Nat) : bareDepth (.seq [.ref "a", nested depth]) = depth := by
  induction depth with
  | zero => rfl
  | succ depth ih =>
    have hquant : writtenDepth 2 (nested (depth + 1)) = depth + 1 := by
      rw [nested, writtenDepth_two_quant, writtenDepth, enclosedDepth, ih]
      rfl
    rw [writtenDepth] at hquant
    rw [bareDepth, bareDepthAll, bareDepthAll, bareDepthAll, hquant]
    simp [enclosedDepth, bareDepth, precedence]

theorem writtenDepth_nestedChoice (depth : Nat) : writtenDepth 0 (nestedChoice depth) = depth := by
  rw [writtenDepth_zero, nestedChoice, bareDepth, bareDepthAll, bareDepthAll, bareDepthAll,
    bareDepth_seq_nested]
  simp [enclosedDepth, bareDepth, bareDepthAll, precedence]

end Expr

/-- The definition of `d` with nested repetitions, as it is read. -/
def nestedDefinitions (depth : Nat) : Definitions :=
  ⟨[("d", .quant (.seq [.ref "a", Expr.nested depth]) "?")], by simp⟩

theorem read_nestedChoice {depth : Nat} (h : depth ≤ Definition.maxDepth) :
    Definitions.read ("d" ++ " ::= " ++ (Expr.nestedChoice depth).render ++ " ;").toList =
      .ok (nestedDefinitions depth) := by
  have hdepth : (Expr.nestedChoice depth).writtenDepth 0 ≤ Definition.maxDepth := by
    rwa [Expr.writtenDepth_nestedChoice]
  obtain ⟨t, hsame, hraw⟩ := Definition.exists_readRaw "d" (by decide)
    (Expr.isLexical_nestedChoice depth) hdepth
  have hnormal := (hsame _).2 (Expr.normalize_nestedChoice depth)
  exact Definitions.read_eq_ok_iff.2 ⟨[("d", t)], hraw, .cons ⟨rfl, hnormal⟩ .nil⟩

theorem writtenDepth_of_mem_nestedDefinitions {depth : Nat} {d : Definition}
    (h : d ∈ (nestedDefinitions depth).toList) : d.body.writtenDepth 0 = depth + 1 := by
  rw [List.mem_singleton.1 h, Expr.writtenDepth_zero, Expr.bareDepth, Expr.bareDepth_seq_nested]
  rfl

/-- What is read from a text is printed as a text that is read with the same result, if no printed
body nests its groups too deep. If one does, the printed text is refused for it. No body does unless
it had as many groups as are allowed already and one of its alternatives stands for nothing. -/
theorem Definitions.read_text_of_read {source : List Char} {defs : Definitions}
    (h : Definitions.read source = .ok defs) :
    ((∀ d ∈ defs.toList, d.body.writtenDepth 0 ≤ Definition.maxDepth) →
      Definitions.read defs.text = .ok defs) ∧
    ((∃ d ∈ defs.toList, Definition.maxDepth < d.body.writtenDepth 0) → ∃ place,
      Definitions.read defs.text = .error (.unexpected
        ("at most " ++ toString Definition.maxDepth ++ " nested groups") place)) ∧
    ∃ d : Definition.TextDerivation, d.tokens = Token.scan source ∧
      ((∀ e ∈ d.entries, e.body.depth = Definition.maxDepth →
        ∀ a ∈ e.body.expr.alternatives, a.normalize ≠ .ok Expr.empty) →
        Definitions.read defs.text = .ok defs) := by
  have hprintable := Definition.printable_of_read h
  obtain ⟨d, htokens, hshallow, hreads⟩ := Definition.read_eq_ok_iff_derivation.1 h
  refine ⟨Definition.read_text_eq_ok hprintable, ?_, d, htokens, fun hproper => ?_⟩
  · rintro ⟨definition, hmem, hdeep⟩
    refine Definition.exists_read_text_eq_error hprintable fun hdepth => ?_
    have hle := hdepth definition hmem
    omega
  · refine Definition.read_text_eq_ok hprintable fun definition hmem => ?_
    obtain ⟨entry, hentry, rfl⟩ := List.mem_map.1 hmem
    exact Definition.writtenDepth_le_of_reads hshallow hreads hproper entry hentry

/-- With fewer repetitions than groups are allowed the text is read again. -/
theorem read_text_of_read_nested :
    let source := ("d" ++ " ::= " ++ (Expr.nestedChoice 31).render ++ " ;").toList
    Definitions.read source = .ok (nestedDefinitions 31) ∧
      Definitions.read (nestedDefinitions 31).text = .ok (nestedDefinitions 31) := by
  have hread := read_nestedChoice (by decide : 31 ≤ Definition.maxDepth)
  refine ⟨hread, (Definitions.read_text_of_read hread).1 fun d hd => ?_⟩
  rw [writtenDepth_of_mem_nestedDefinitions hd]
  decide

/-- With as many the text is not read again. -/
theorem not_read_text_of_read : ¬∀ source defs, Definitions.read source = .ok defs →
    Definitions.read defs.text = .ok defs := by
  intro h
  have hread := read_nestedChoice (Nat.le_refl Definition.maxDepth)
  have hdeep : ¬∀ d ∈ (nestedDefinitions Definition.maxDepth).toList,
      d.body.writtenDepth 0 ≤ Definition.maxDepth := by
    intro hdepth
    have hle := hdepth _ List.mem_cons_self
    rw [writtenDepth_of_mem_nestedDefinitions List.mem_cons_self] at hle
    omega
  obtain ⟨place, herror⟩ :=
    Definition.exists_read_text_eq_error (Definition.printable_of_read hread) hdeep
  rw [h _ _ hread] at herror
  exact absurd herror (by simp)

end GrammarOutline
