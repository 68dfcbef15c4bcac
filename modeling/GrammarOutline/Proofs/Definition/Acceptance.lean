import GrammarOutline.Proofs.Definition.Derivation
import GrammarOutline.Proofs.Definition.Entries
import GrammarOutline.Proofs.Definition.Reading
import GrammarOutline.Proofs.Definition.Token

/-!
# What is accepted

Whatever a parser of the grammar accepts has a derivation from the tokens that it took. So a text is
read exactly when its tokens have a derivation in which no group is nested too deep, and what is
read is read off that derivation, of which there is only one.
-/
namespace GrammarOutline.Definition

open Parsing

/-- All that is accepted at a level has a derivation from the tokens that were taken. -/
def OnlyDerived (call : (i : Fin 1) → Cursor Token → Reply Token Expr) (level : Level) : Prop :=
  ∀ c e next, Accepts call (parserOf level) c e next →
    ∃ d : Derivation level, c.rest = d.tokens ++ next.rest ∧ d.expr = e

section Tokens

variable {call : (i : Fin 1) → Cursor Token → Reply Token Expr} {c next : Cursor Token} {t : Token}

theorem rest_of_accepts_sign {text : String} (h : Accepts call (sign text) c t next) :
    c.rest = t :: next.rest ∧ IsSign text t := by
  obtain ⟨hrest, ht⟩ := rest_of_accepts_symbol h
  exact ⟨hrest, by simpa [IsSign] using ht⟩

theorem rest_of_accepts_tokenOf {kind : Token.Kind} {expected : String}
    (h : Accepts call (tokenOf kind expected) c t next) :
    c.rest = t :: next.rest ∧ t.kind = kind := by
  obtain ⟨hrest, ht⟩ := rest_of_accepts_symbol h
  exact ⟨hrest, by simpa using ht⟩

theorem exists_of_accepts_terminal {e : Expr} (h : Accepts call terminal c e next) :
    ∃ t, c.rest = t :: next.rest ∧ IsTerminal t ∧ e = .term t.text := by
  obtain ⟨t, rfl, hchoice⟩ := accepts_map_iff.1 h
  rcases accepts_either_iff.1 hchoice with h | ⟨-, h⟩
  · rcases accepts_either_iff.1 h with h | ⟨-, h⟩
    · obtain ⟨hrest, ht⟩ := rest_of_accepts_tokenOf h
      exact ⟨t, hrest, .inl ht, rfl⟩
    · obtain ⟨hrest, ht⟩ := rest_of_accepts_tokenOf h
      exact ⟨t, hrest, .inr (.inl ht), rfl⟩
  · obtain ⟨hrest, ht⟩ := rest_of_accepts_tokenOf h
    exact ⟨t, hrest, .inr (.inr ht), rfl⟩

theorem rest_of_accepts_quantifier (h : Accepts call quantifier c t next) :
    c.rest = t :: next.rest ∧ IsMark t := by
  rcases accepts_either_iff.1 (accepts_label_iff.1 h) with h | ⟨-, h⟩
  · rcases accepts_either_iff.1 h with h | ⟨-, h⟩
    · obtain ⟨hrest, ht⟩ := rest_of_accepts_sign h
      exact ⟨hrest, .inl ht⟩
    · obtain ⟨hrest, ht⟩ := rest_of_accepts_sign h
      exact ⟨hrest, .inr (.inl ht)⟩
  · obtain ⟨hrest, ht⟩ := rest_of_accepts_sign h
    exact ⟨hrest, .inr (.inr ht)⟩

theorem rest_of_accepts_marks {marks : List Token}
    (h : Accepts call (.many quantifier) c marks next) :
    c.rest = marks ++ next.rest ∧ ∀ t ∈ marks, IsMark t := by
  refine accepts_many_induct (motive := fun c marks => c.rest = marks ++ next.rest ∧
    ∀ t ∈ marks, IsMark t) h ⟨rfl, by simp⟩ ?_
  rintro c mid t marks hfirst ⟨hmid, hmarks⟩
  obtain ⟨hrest, ht⟩ := rest_of_accepts_quantifier hfirst
  exact ⟨by rw [hrest, hmid, List.cons_append], List.forall_mem_cons.2 ⟨ht, hmarks⟩⟩

end Tokens

section Levels

variable {call : (i : Fin 1) → Cursor Token → Reply Token Expr}

theorem onlyDerived_atom (h : OnlyDerived call .alternation) : OnlyDerived call .atom := by
  intro c e next haccepts
  rcases accepts_either_iff.1 (accepts_label_iff.1 haccepts) with hatom | ⟨-, hgroup⟩
  · rcases accepts_either_iff.1 hatom with hname | ⟨-, hterminal⟩
    · obtain ⟨t, rfl, ht⟩ := accepts_map_iff.1 hname
      obtain ⟨hrest, isName⟩ := rest_of_accepts_tokenOf ht
      exact ⟨.name t isName, hrest, rfl⟩
    · obtain ⟨t, hrest, isTerminal, rfl⟩ := exists_of_accepts_terminal hterminal
      exact ⟨.terminal t isTerminal, hrest, rfl⟩
  · obtain ⟨afterOpening, opening, hopening, hcommit⟩ := exists_of_accepts_right hgroup
    obtain ⟨afterInner, closing, hinner, hclosing⟩ :=
      exists_of_accepts_left (accepts_commit_iff.1 hcommit)
    obtain ⟨hrest, opens⟩ := rest_of_accepts_sign hopening
    obtain ⟨inner, hbody, rfl⟩ := h _ _ _ hinner
    obtain ⟨hend, closes⟩ := rest_of_accepts_sign hclosing
    refine ⟨.group opening opens inner closing closes, ?_, rfl⟩
    rw [hrest, hbody, hend, Derivation.tokens, List.cons_append, List.append_assoc,
      List.singleton_append]

theorem onlyDerived_quantified (h : OnlyDerived call .atom) : OnlyDerived call .quantified := by
  intro c e next haccepts
  obtain ⟨⟨first, marks⟩, rfl, hboth⟩ := accepts_map_iff.1 haccepts
  obtain ⟨mid, hatom, hmarks⟩ := accepts_both_iff.1 hboth
  obtain ⟨d, hrest, rfl⟩ := h _ _ _ hatom
  obtain ⟨hmid, areMarks⟩ := rest_of_accepts_marks hmarks
  refine ⟨.marked d marks areMarks, ?_, rfl⟩
  rw [hrest, hmid, Derivation.tokens, List.append_assoc]

theorem onlyDerived_sequence (h : OnlyDerived call .quantified) : OnlyDerived call .sequence := by
  intro c e next haccepts
  obtain ⟨es, rfl, hmany⟩ := accepts_map_iff.1 haccepts
  clear haccepts
  refine accepts_many_induct (motive := fun c es => ∃ d : Derivation .sequence,
    c.rest = d.tokens ++ next.rest ∧ d.expr = .seq es) hmany ⟨.nothing, rfl, rfl⟩ ?_
  rintro c mid e es hfirst ⟨others, hmid, hexpr⟩
  obtain ⟨d, hrest, rfl⟩ := h _ _ _ hfirst
  refine ⟨.item d others, ?_, ?_⟩
  · rw [hrest, hmid, Derivation.tokens, List.append_assoc]
  · rw [Derivation.expr, hexpr, Expr.items]

/-- Sequences that come after a bar each go on with the alternatives before them. -/
theorem exists_of_accepts_bars (h : OnlyDerived call .sequence) {c next : Cursor Token}
    {es : List Expr} (hmany : Accepts call (.many ((sign "|").right sequence)) c es next)
    (first : Derivation .sequence) : ∃ d : Derivation .alternation,
      first.tokens ++ c.rest = d.tokens ++ next.rest ∧ d.expr = .alt (first.expr :: es) := by
  revert first
  refine accepts_many_induct (motive := fun c es => ∀ first : Derivation .sequence,
    ∃ d : Derivation .alternation, first.tokens ++ c.rest = d.tokens ++ next.rest ∧
      d.expr = .alt (first.expr :: es)) hmany (fun first => ⟨.last first, rfl, rfl⟩) ?_
  intro c mid e es hbar hothers first
  obtain ⟨afterSign, bar, hsign, hsequence⟩ := exists_of_accepts_right hbar
  obtain ⟨hrest, isSign⟩ := rest_of_accepts_sign hsign
  obtain ⟨d, hafter, rfl⟩ := h _ _ _ hsequence
  obtain ⟨others, htokens, hexpr⟩ := hothers d
  refine ⟨.bar first bar isSign others, ?_, ?_⟩
  · rw [hrest, hafter, htokens, Derivation.tokens, List.append_assoc, List.cons_append]
  · rw [Derivation.expr, hexpr, Expr.alternatives]

theorem onlyDerived_alternation {budget : Nat} (h : OnlyDerived (callRule rules budget) .sequence) :
    OnlyDerived (callRule rules (budget + 1)) .alternation := by
  intro c e next haccepts
  have hrule : Accepts (callRule rules budget) (rules 0) c e next := haccepts
  obtain ⟨es, rfl, hlist⟩ := accepts_map_iff.1 hrule
  obtain ⟨first, others, mid, rfl, hfirst, hbars⟩ := accepts_sepBy1_iff.1 hlist
  obtain ⟨d, hrest, rfl⟩ := h _ _ _ hfirst
  rw [hrest]
  exact exists_of_accepts_bars h hbars d

/-- However often the rule may be entered, only derived tokens are accepted. -/
theorem onlyDerived (budget : Nat) (level : Level) : OnlyDerived (callRule rules budget) level := by
  have hlevels : ∀ {budget : Nat}, OnlyDerived (callRule rules budget) .alternation →
      ∀ level, OnlyDerived (callRule rules budget) level := by
    intro budget h level
    have hquantified := onlyDerived_quantified (onlyDerived_atom h)
    cases level with
    | alternation => exact h
    | sequence => exact onlyDerived_sequence hquantified
    | quantified => exact hquantified
    | atom => exact onlyDerived_atom h
  induction budget generalizing level with
  | zero =>
    refine hlevels (fun c e next haccepts => ?_) level
    obtain ⟨hint, hrun⟩ := haccepts
    exact absurd hrun (by simp [parserOf, alternation, callRule])
  | succ budget ih => exact hlevels (onlyDerived_alternation (ih .sequence)) level

end Levels

section Texts

variable {budget : Nat} {c next : Cursor Token}

theorem exists_entry_of_accepts {definition' : String × Expr}
    (h : Accepts (callRule rules budget) definition c definition' next) :
    ∃ e : Entry, c.rest = e.tokens ++ next.rest ∧ e.raw = definition' := by
  obtain ⟨⟨name, body⟩, rfl, hboth⟩ := accepts_map_iff.1 h
  obtain ⟨afterName, hname, hcommit⟩ := accepts_both_iff.1 hboth
  obtain ⟨afterSign, sign, hsign, hbody⟩ := exists_of_accepts_right (accepts_commit_iff.1 hcommit)
  obtain ⟨afterBody, stop, halternation, hstop⟩ := exists_of_accepts_left hbody
  obtain ⟨hrest, isName⟩ := rest_of_accepts_tokenOf (accepts_label_iff.1 hname)
  obtain ⟨hafterName, isSign⟩ := rest_of_accepts_sign hsign
  obtain ⟨d, hafterSign, rfl⟩ := onlyDerived budget .alternation _ _ _ halternation
  obtain ⟨hafterBody, isStop⟩ := rest_of_accepts_sign (accepts_label_iff.1 hstop)
  refine ⟨⟨name, isName, sign, isSign, d, stop, isStop⟩, ?_, rfl⟩
  rw [hrest, hafterName, hafterSign, hafterBody, Entry.tokens_append]

theorem exists_derivation_of_accepts {raw : List (String × Expr)}
    (h : Accepts (callRule rules budget) definitions c raw next) :
    ∃ d : TextDerivation, c.rest = d.tokens ++ next.rest ∧ d.raw = raw := by
  obtain ⟨mid, finish, hmany, hfinish⟩ := exists_of_accepts_left h
  obtain ⟨hmid, isFinish⟩ := rest_of_accepts_tokenOf hfinish
  have hentries : ∃ entries : List Entry,
      c.rest = entries.flatMap Entry.tokens ++ mid.rest ∧ entries.map Entry.raw = raw := by
    refine accepts_many_induct (motive := fun c raw => ∃ entries : List Entry,
      c.rest = entries.flatMap Entry.tokens ++ mid.rest ∧ entries.map Entry.raw = raw) hmany
      ⟨[], rfl, rfl⟩ ?_
    rintro c afterFirst b raw hfirst ⟨entries, hafter, rfl⟩
    obtain ⟨e, hrest, rfl⟩ := exists_entry_of_accepts hfirst
    exact ⟨e :: entries, by rw [hrest, hafter, List.flatMap_cons, List.append_assoc], rfl⟩
  obtain ⟨entries, hrest, rfl⟩ := hentries
  refine ⟨⟨entries, finish, isFinish⟩, ?_, rfl⟩
  rw [hrest, hmid, TextDerivation.tokens, List.append_assoc, List.singleton_append]

theorem eq_nil_of_scan {source : List Char} {front rest : List Token} {finish : Token}
    (hfinish : finish.kind = .finish) (h : Token.scan source = front ++ [finish] ++ rest) :
    rest = [] := by
  obtain ⟨ts, last, hscan, hlexemes, -⟩ := Token.exists_scanFrom 0 source
  rcases List.eq_nil_or_concat rest with rfl | ⟨more, t, rfl⟩
  · rfl
  · rw [Token.scan, hscan, List.concat_eq_append, ← List.append_assoc] at h
    obtain ⟨rfl, -⟩ := List.append_inj' h rfl
    have hlexeme := hlexemes finish (by simp)
    rw [hfinish] at hlexeme
    exact hlexeme.elim

/-- When no parenthesis of a text opens a group too deep, no group is nested too deep. -/
theorem TextDerivation.shallow_of_tooDeep? (d : TextDerivation) (h : tooDeep? 0 d.tokens = none) :
    d.Shallow := by
  obtain ⟨entries, finish, isFinish⟩ := d
  dsimp only [tokens, Shallow] at h ⊢
  induction entries with
  | nil => simp
  | cons e entries ih =>
    rw [List.flatMap_cons, List.append_assoc, Entry.tokens_append,
      tooDeep?_cons_of_kind (by simp [e.isName]),
      e.isSign.tooDeep?_cons (by decide) (by decide)] at h
    have hbody : 0 + e.body.depth ≤ maxDepth := e.body.depth_le_of_tooDeep? (Nat.zero_le _) h
    rw [e.body.derives.tooDeep? hbody, e.isStop.tooDeep?_cons (by decide) (by decide)] at h
    exact List.forall_mem_cons.2 ⟨by omega, ih h⟩

/-- A text is read exactly when its tokens have a derivation with no group too deep, and what is
read is read off the derivation. -/
theorem readRaw_eq_ok_iff {source : List Char} {raw : List (String × Expr)} :
    readRaw source = .ok raw ↔
      ∃ d : TextDerivation, d.tokens = Token.scan source ∧ d.Shallow ∧ d.raw = raw := by
  constructor
  · intro h
    cases hfault : Token.fault? source (Token.scan source) with
    | some fault => simp [readRaw, hfault] at h
    | none =>
    cases hdepth : tooDeep? 0 (Token.scan source) with
    | some t => simp [readRaw, hfault, hdepth] at h
    | none =>
    cases hrun : definitions.run rules (Token.scan source) 0 with
    | failure f => simp [readRaw, hfault, hdepth, hrun] at h
    | exhausted => simp [readRaw, hfault, hdepth, hrun] at h
    | success value next hint =>
      simp only [readRaw, hfault, hdepth, hrun, Except.ok.injEq] at h
      have haccepts : Accepts (callRule rules _) definitions
          (Cursor.ofPosition (Token.scan source) 0) value next := ⟨hint, hrun⟩
      obtain ⟨d, htokens, hraw⟩ := exists_derivation_of_accepts haccepts
      have hscan : Token.scan source = d.tokens ++ next.rest := htokens
      rw [eq_nil_of_scan d.isFinish hscan, List.append_nil] at hscan
      rw [hscan] at hdepth
      exact ⟨d, hscan.symm, d.shallow_of_tooDeep? hdepth, hraw.trans h⟩
  · rintro ⟨d, htokens, hshallow, rfl⟩
    exact readRaw_eq_ok (htokens ▸ d.derivesAll hshallow)

theorem TextDerivation.kind_ne_malformed {d : TextDerivation} {source : List Char}
    (h : d.tokens = Token.scan source) : ∀ t ∈ Token.scan source, t.kind ≠ .malformed := by
  rw [← Token.fault?_scan_eq_none_iff, ← h, tokens, Token.fault?, List.getLast?_concat]
  obtain ⟨_, ⟨kind, text, offset⟩, isFinish⟩ := d
  obtain rfl : kind = .finish := isFinish
  rfl

/-- A text with a derivation in which a group is nested too deep is refused at that group. -/
theorem TextDerivation.exists_readRaw_eq_error {d : TextDerivation} {source : List Char}
    (h : d.tokens = Token.scan source) (hdeep : ¬d.Shallow) : ∃ place, readRaw source =
      .error (.unexpected ("at most " ++ toString maxDepth ++ " nested groups") place) := by
  have hfault : Token.fault? source (Token.scan source) = none :=
    (Token.fault?_scan_eq_none_iff source).2 (kind_ne_malformed h)
  cases htooDeep : tooDeep? 0 (Token.scan source) with
  | none =>
    rw [← h] at htooDeep
    exact absurd (d.shallow_of_tooDeep? htooDeep) hdeep
  | some t =>
    refine ⟨Place.inSource source t.offset, ?_⟩
    unfold readRaw
    dsimp only
    rw [hfault, htooDeep]

end Texts

/-- A text is read as written exactly when none of its tokens is malformed and they have a
derivation in which no group is nested too deep. There is at most one derivation, and the names and
bodies are read off it. The text is read in the end exactly when, besides, no name comes twice and
every body has a normal form. -/
theorem read_iff_derivation (source : List Char) :
    (∀ raw, readRaw source = .ok raw ↔ (∀ t ∈ Token.scan source, t.kind ≠ .malformed) ∧
      ∃ d : TextDerivation, d.tokens = Token.scan source ∧ d.Shallow ∧ d.raw = raw) ∧
    Function.Injective TextDerivation.tokens ∧
    ((∃ defs, Definitions.read source = .ok defs) ↔ ∃ raw, readRaw source = .ok raw ∧
      (raw.map Prod.fst).Nodup ∧ ∀ b ∈ raw, ∃ n, b.2.normalize = .ok n) := by
  refine ⟨fun raw => ?_, TextDerivation.tokens_injective, ?_⟩
  · rw [readRaw_eq_ok_iff]
    constructor
    · rintro ⟨d, htokens, hshallow, hraw⟩
      exact ⟨TextDerivation.kind_ne_malformed htokens, d, htokens, hshallow, hraw⟩
    · exact fun h => h.2
  · constructor
    · rintro ⟨defs, hread⟩
      obtain ⟨raw, hraw, hentries⟩ := Definitions.read_eq_ok_iff.1 hread
      have hnodup : (raw.map Prod.fst).Nodup := by
        rw [names_eq_of_reads hentries]
        exact defs.nodup
      exact ⟨raw, hraw, hnodup, exists_normal_of_reads hentries⟩
    · rintro ⟨raw, hraw, hnodup, hnormal⟩
      obtain ⟨entries, hentries⟩ := exists_reads hnormal
      rw [names_eq_of_reads hentries] at hnodup
      exact ⟨⟨entries, hnodup⟩, Definitions.read_eq_ok_iff.2 ⟨raw, hraw, hentries⟩⟩

end GrammarOutline.Definition
