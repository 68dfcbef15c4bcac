import GrammarOutline.Expr.Render
import GrammarOutline.Proofs.Definition.Derivation
import GrammarOutline.Proofs.Definition.Entries
import GrammarOutline.Proofs.Definition.Reading
import GrammarOutline.Proofs.Definition.Token

/-!
# Reading what was written

The text of an expression is scanned into tokens from which a tree is derived again. The tree has a
choice and a sequence around every part, but its normal form is that of the expression. So a
definition that is written is read with the normal form of its body.
-/
namespace GrammarOutline

namespace Expr

/-- Names are identifiers, terminals are literals or classes, and every mark is one of the
notation. -/
inductive IsLexical : Expr → Prop where
  | alt {as : List Expr} (members : ∀ a ∈ as, a.IsLexical) : IsLexical (.alt as)
  | seq {es : List Expr} (members : ∀ e ∈ es, e.IsLexical) : IsLexical (.seq es)
  | quant {operand : Expr} {mark : String} (member : operand.IsLexical)
      (isMark : mark ∈ ["?", "*", "+"]) : IsLexical (.quant operand mark)
  | ref {name : String} (isName : Lexeme.IsIdentifier name.toList) : IsLexical (.ref name)
  | term {text : String} (isTerminal : Lexeme.IsCharacterLiteral true text.toList ∨
      Lexeme.IsStringLiteral true text.toList ∨ Lexeme.IsCharacterClass true text.toList) :
      IsLexical (.term text)

/-- One group more when `e` needs parentheses in its place, as `enclose` puts them. -/
def enclosedDepth (required : Nat) (e : Expr) (depth : Nat) : Nat :=
  if e.precedence < required then depth + 1 else depth

mutual

/-- How deep groups are nested in the text of an expression without parentheses around the whole. -/
def bareDepth : Expr → Nat
  | .alt as => bareDepthAll 1 as
  | .seq es => bareDepthAll 2 es
  | .quant operand _ => enclosedDepth 3 operand (bareDepth operand)
  | .ref _ | .term _ => 0

def bareDepthAll (required : Nat) : List Expr → Nat
  | [] => 0
  | e :: es => max (enclosedDepth required e (bareDepth e)) (bareDepthAll required es)

end

def writtenDepth (required : Nat) (e : Expr) : Nat := enclosedDepth required e (bareDepth e)

theorem writtenDepth_le_of_mem {required : Nat} {e : Expr} {es : List Expr} (he : e ∈ es) :
    writtenDepth required e ≤ bareDepthAll required es := by
  induction es with
  | nil => exact absurd he List.not_mem_nil
  | cons a es ih =>
    rw [bareDepthAll]
    rcases List.mem_cons.1 he with rfl | he
    · exact Nat.le_max_left _ _
    · exact Nat.le_trans (ih he) (Nat.le_max_right _ _)

end Expr

namespace Definition

open Lexeme

/-- The level of the grammar for a place that requires an expression to bind as tightly as
`required`. -/
def levelOf : (required : Nat) → Level
  | 0 => .alternation
  | 1 => .sequence
  | 2 => .quantified
  | _ => .atom

/-- Wherever the text stands, a tree with the normal form of `e` is derived from its tokens, unless
an identifier goes on after it. -/
def ReadsAs (depth required : Nat) (text : List Char) (e : Expr) : Prop :=
  ∃ t, t.SameNormal e ∧ ∀ offset rest, EndsIdentifier rest → ∃ ts,
    Token.scanFrom offset (text ++ rest) = ts ++ Token.scanFrom (offset + text.length) rest ∧
      Derives depth (levelOf required) ts t

section Places

variable {depth required : Nat} {text : List Char} {e : Expr}

theorem ReadsAs.mono {depth' : Nat} (h : ReadsAs depth required text e) (hle : depth ≤ depth') :
    ReadsAs depth' required text e := by
  obtain ⟨t, hsame, hreads⟩ := h
  refine ⟨t, hsame, fun offset rest hrest => ?_⟩
  obtain ⟨ts, hscan, hderives⟩ := hreads offset rest hrest
  exact ⟨ts, hscan, hderives.mono hle⟩

/-- What binds tightly may stand where less is required. -/
theorem ReadsAs.of_succ (h : ReadsAs depth (required + 1) text e) :
    ReadsAs depth required text e := by
  obtain ⟨t, hsame, hreads⟩ := h
  match required with
  | 0 =>
    refine ⟨.alt [t], (Expr.sameNormal_alt_singleton t).trans hsame, fun offset rest hrest => ?_⟩
    obtain ⟨ts, hscan, hderives⟩ := hreads offset rest hrest
    exact ⟨ts, hscan, .last hderives⟩
  | 1 =>
    refine ⟨.seq [t], (Expr.sameNormal_seq_singleton t).trans hsame, fun offset rest hrest => ?_⟩
    obtain ⟨ts, hscan, hderives⟩ := hreads offset rest hrest
    have hsequence : Derives depth .sequence (ts ++ []) (.seq [t]) := .item hderives .nothing
    rw [List.append_nil] at hsequence
    exact ⟨ts, hscan, hsequence⟩
  | 2 =>
    refine ⟨t, hsame, fun offset rest hrest => ?_⟩
    obtain ⟨ts, hscan, hderives⟩ := hreads offset rest hrest
    have hquantified : Derives depth .quantified (ts ++ []) t := .marked hderives (by simp)
    rw [List.append_nil] at hquantified
    exact ⟨ts, hscan, hquantified⟩
  | _ + 3 => exact ⟨t, hsame, hreads⟩

theorem ReadsAs.of_le {required' : Nat} (h : ReadsAs depth required text e)
    (hle : required' ≤ required) : ReadsAs depth required' text e := by
  induction hle with
  | refl => exact h
  | step _ ih => exact ih h.of_succ

end Places

section Signs

variable {c : Char} {rest : List Char}

theorem scanFrom_sign (hc : c ∈ "|()?*+;".toList) (offset : Nat) (rest : List Char) :
    Token.scanFrom offset (c :: rest) =
      ⟨.punctuation, String.ofList [c], offset⟩ :: Token.scanFrom (offset + 1) rest :=
  @Token.scanFrom_append .punctuation [c] rest (.inr ⟨c, hc, rfl⟩) (fun h => absurd h (by decide))
    offset

theorem endsIdentifier_cons (hc : continuesIdentifier c = false) : EndsIdentifier (c :: rest) := by
  rintro _ ⟨⟩
  exact hc

end Signs

section Parts

variable {depth : Nat} {text : List Char} {e : Expr}

theorem readsAs_lexeme {kind : Token.Kind} (h : Token.IsLexeme text kind)
    (hatom : ∀ t : Token, t.kind = kind → t.text = String.ofList text → Derives 0 .atom [t] e) :
    ReadsAs 0 3 text e := by
  refine ⟨e, .refl e, fun offset rest hrest => ?_⟩
  exact ⟨_, Token.scanFrom_append h (fun _ => hrest) offset, hatom _ rfl rfl⟩

/-- Parentheses make an atom of what stands between them. -/
theorem ReadsAs.group (h : ReadsAs depth 0 text e) :
    ReadsAs (depth + 1) 3 ('(' :: text ++ [')']) e := by
  obtain ⟨t, hsame, hreads⟩ := h
  refine ⟨t, hsame, fun offset rest hrest => ?_⟩
  obtain ⟨ts, hscan, hderives⟩ :=
    hreads (offset + 1) (')' :: rest) (endsIdentifier_cons (by decide))
  refine ⟨⟨.punctuation, "(", offset⟩ :: (ts ++ [⟨.punctuation, ")", offset + 1 + text.length⟩]),
    ?_, .group ⟨rfl, rfl⟩ hderives ⟨rfl, rfl⟩⟩
  have happend : '(' :: text ++ [')'] ++ rest = '(' :: (text ++ ')' :: rest) := by simp
  have hlength : offset + ('(' :: text ++ [')']).length = offset + 1 + text.length + 1 := by
    simp only [List.length_append, List.length_cons, List.length_nil]
    omega
  rw [happend, hlength, scanFrom_sign (by decide), hscan, scanFrom_sign (by decide),
    List.cons_append, List.append_assoc]
  rfl

theorem ReadsAs.mark {mark : String} (h : ReadsAs depth 3 text e) (hmark : mark ∈ ["?", "*", "+"]) :
    ReadsAs depth 2 (text ++ mark.toList) (.quant e mark) := by
  obtain ⟨t, hsame, hreads⟩ := h
  obtain ⟨c, hc, hends, rfl⟩ : ∃ c ∈ "|()?*+;".toList, continuesIdentifier c = false ∧
      mark = String.ofList [c] := by
    simp only [List.mem_cons, List.not_mem_nil, or_false] at hmark
    rcases hmark with rfl | rfl | rfl
    · exact ⟨'?', by decide, by decide, rfl⟩
    · exact ⟨'*', by decide, by decide, rfl⟩
    · exact ⟨'+', by decide, by decide, rfl⟩
  refine ⟨.quant t (String.ofList [c]), hsame.quant _, fun offset rest hrest => ?_⟩
  obtain ⟨ts, hscan, hderives⟩ := hreads offset (c :: rest) (endsIdentifier_cons hends)
  have hquantified : Derives depth .quantified
      (ts ++ [⟨.punctuation, String.ofList [c], offset + text.length⟩])
      (.quant t (String.ofList [c])) := by
    refine .marked hderives fun t ht => ?_
    rw [List.mem_singleton.1 ht]
    simpa [IsMark, IsSign] using hmark
  refine ⟨_, ?_, hquantified⟩
  rw [String.toList_ofList, List.append_assoc, List.singleton_append, hscan, scanFrom_sign hc,
    List.append_assoc, List.length_append]
  rfl

section Lists

theorem readsAs_seq {es : List Expr} (h : ∀ e ∈ es, ReadsAs depth 2 (e.written 2) e) :
    ReadsAs depth 1 ([' '].intercalate (es.map (Expr.written 2))) (.seq es) := by
  have hlist : ∃ trees, List.Forall₂ Expr.SameNormal trees es ∧ ∀ offset rest,
      EndsIdentifier rest → ∃ ts, Token.scanFrom offset
        ([' '].intercalate (es.map (Expr.written 2)) ++ rest) = ts ++ Token.scanFrom
          (offset + ([' '].intercalate (es.map (Expr.written 2))).length) rest ∧
        Derives depth .sequence ts (.seq trees) := by
    induction es with
    | nil => exact ⟨[], .nil, fun offset rest _ => ⟨[], by simp, .nothing⟩⟩
    | cons e es ih =>
      simp only [List.mem_cons, forall_eq_or_imp] at h
      obtain ⟨t, hsame, hreads⟩ := h.1
      obtain ⟨trees, hsames, hothers⟩ := ih h.2
      refine ⟨t :: trees, .cons hsame hsames, fun offset rest hrest => ?_⟩
      cases es with
      | nil =>
        obtain ⟨ts, hscan, hderives⟩ := hreads offset rest hrest
        obtain rfl := List.forall₂_nil_right_iff.1 hsames
        refine ⟨ts ++ [], ?_, .item hderives .nothing⟩
        rwa [List.map_cons, List.map_nil, List.intercalate_singleton, List.append_nil]
      | cons e' es =>
        obtain ⟨us, hscans, hmore⟩ := hothers (offset + (e.written 2).length + 1) rest hrest
        obtain ⟨ts, hscan, hderives⟩ := hreads offset
          (' ' :: ([' '].intercalate ((e' :: es).map (Expr.written 2)) ++ rest))
          (endsIdentifier_cons (by decide))
        refine ⟨ts ++ us, ?_, .item hderives hmore⟩
        rw [List.map_cons, List.map_cons, List.intercalate_cons_cons, ← List.map_cons,
          List.append_assoc, List.append_assoc, List.singleton_append, hscan,
          Token.scanFrom_blank (by decide), hscans, List.append_assoc]
        simp only [List.length_append, List.length_singleton, Nat.add_assoc]
  obtain ⟨trees, hsame, hreads⟩ := hlist
  exact ⟨.seq trees, .seq hsame, hreads⟩

theorem readsAs_alt {as : List Expr} (h : ∀ a ∈ as, ReadsAs depth 1 (a.written 1) a) :
    ReadsAs depth 0 (['|'].intercalate (as.map (Expr.written 1))) (.alt as) := by
  cases as with
  | nil => exact ⟨.alt [.seq []], Expr.sameNormal_alt_empty,
      fun offset rest _ => ⟨[], by simp, .last .nothing⟩⟩
  | cons a as =>
    have hlist : ∃ trees, List.Forall₂ Expr.SameNormal trees (a :: as) ∧ ∀ offset rest,
        EndsIdentifier rest → ∃ ts, Token.scanFrom offset
          (['|'].intercalate ((a :: as).map (Expr.written 1)) ++ rest) = ts ++ Token.scanFrom
            (offset + (['|'].intercalate ((a :: as).map (Expr.written 1))).length) rest ∧
          Derives depth .alternation ts (.alt trees) := by
      induction as generalizing a with
      | nil =>
        obtain ⟨t, hsame, hreads⟩ := h a List.mem_cons_self
        refine ⟨[t], .cons hsame .nil, fun offset rest hrest => ?_⟩
        obtain ⟨ts, hscan, hderives⟩ := hreads offset rest hrest
        refine ⟨ts, ?_, .last hderives⟩
        rwa [List.map_cons, List.map_nil, List.intercalate_singleton]
      | cons a' as ih =>
        rw [List.forall_mem_cons] at h
        obtain ⟨t, hsame, hreads⟩ := h.1
        obtain ⟨trees, hsames, hothers⟩ := ih a' h.2
        refine ⟨t :: trees, .cons hsame hsames, fun offset rest hrest => ?_⟩
        obtain ⟨us, hscans, hmore⟩ := hothers (offset + (a.written 1).length + 1) rest hrest
        obtain ⟨ts, hscan, hderives⟩ := hreads offset
          ('|' :: (['|'].intercalate ((a' :: as).map (Expr.written 1)) ++ rest))
          (endsIdentifier_cons (by decide))
        refine ⟨ts ++ ⟨.punctuation, "|", offset + (a.written 1).length⟩ :: us, ?_,
          .bar hderives ⟨rfl, rfl⟩ hmore⟩
        rw [List.map_cons, List.map_cons, List.intercalate_cons_cons, ← List.map_cons,
          List.append_assoc, List.append_assoc, List.singleton_append, hscan,
          scanFrom_sign (by decide), hscans, List.append_assoc, List.cons_append]
        simp only [List.length_append, List.length_singleton, Nat.add_assoc]
    obtain ⟨trees, hsame, hreads⟩ := hlist
    exact ⟨.alt trees, .alt hsame, hreads⟩

end Lists

end Parts

/-- With the parentheses that a place requires, an expression reads there. -/
theorem ReadsAs.written {e : Expr} (h : ReadsAs e.bareDepth e.precedence e.bare e) {required : Nat}
    (hrequired : required ≤ 3) :
    ReadsAs (e.writtenDepth required) required (e.written required) e := by
  rw [Expr.writtenDepth, Expr.enclosedDepth, Expr.written, Expr.enclose]
  split_ifs with hloose
  · exact (h.of_le (Nat.zero_le _)).group.of_le hrequired
  · exact h.of_le (Nat.not_lt.1 hloose)

theorem readsAs_bare {e : Expr} (h : e.IsLexical) :
    ReadsAs e.bareDepth e.precedence e.bare e := by
  induction h with
  | alt _ ih =>
    rw [Expr.bare, Expr.bareAll_eq]
    exact readsAs_alt fun a ha =>
      ((ih a ha).written (by decide)).mono (Expr.writtenDepth_le_of_mem ha)
  | seq _ ih =>
    rw [Expr.bare, Expr.bareAll_eq]
    exact readsAs_seq fun e he =>
      ((ih e he).written (by decide)).mono (Expr.writtenDepth_le_of_mem he)
  | quant _ isMark ih => exact (ih.written (Nat.le_refl 3)).mark isMark
  | @ref name isName =>
    have hname : Token.IsLexeme name.toList .identifier := isName
    refine readsAs_lexeme hname fun t hkind htext => ?_
    rw [Expr.bare, String.ofList_toList] at htext
    exact htext ▸ .name hkind
  | @term text isTerminal =>
    have hterm : ∀ kind : Token.Kind, Token.IsLexeme text.toList kind →
        (∀ t : Token, t.kind = kind → IsTerminal t) → ReadsAs 0 3 text.toList (.term text) := by
      intro kind hlexeme hkind
      refine readsAs_lexeme hlexeme fun t ht htext => ?_
      rw [String.ofList_toList] at htext
      exact htext ▸ .terminal (hkind t ht)
    rcases isTerminal with h | h | h
    · exact hterm .character h fun t ht => .inl ht
    · exact hterm .string h fun t ht => .inr (.inl ht)
    · exact hterm .charClass h fun t ht => .inr (.inr ht)

/-- A name, the sign, a body and the end are scanned into the tokens of a definition, with any
blanks before the body. -/
theorem exists_entry (name : String) (hname : IsIdentifier name.toList) {depth : Nat} {t : Expr}
    {body : List Char} (hbody : ∀ offset rest, EndsIdentifier rest → ∃ ts,
      Token.scanFrom offset (body ++ rest) = ts ++ Token.scanFrom (offset + body.length) rest ∧
        Derives depth .alternation ts t)
    {blanks : List Char} (hblanks : ∀ c ∈ blanks, Text.isBlank c = true) (offset : Nat)
    (rest : List Char) : ∃ (e : Entry) (after : Nat),
      Token.scanFrom offset (name.toList ++ ' ' :: ([':', ':', '='] ++ (blanks ++ (body ++
        ' ' :: ';' :: rest)))) = e.tokens ++ Token.scanFrom after rest ∧
      e.raw = (name, t) ∧ e.body.depth ≤ depth := by
  have hsign : Token.IsLexeme [':', ':', '='] .punctuation := .inl rfl
  have hlexeme : Token.IsLexeme name.toList .identifier := hname
  let signAt : Nat := offset + name.toList.length + 1
  let bodyAt : Nat := signAt + [':', ':', '='].length + blanks.length
  let stopAt : Nat := bodyAt + body.length + 1
  obtain ⟨ts, hscan, hderives⟩ :=
    hbody bodyAt (' ' :: ';' :: rest) (endsIdentifier_cons (by decide))
  obtain ⟨d, rfl, rfl, hdepth⟩ := hderives.exists_derivation
  refine ⟨⟨⟨.identifier, String.ofList name.toList, offset⟩, rfl, ⟨.punctuation, "::=", signAt⟩,
    ⟨rfl, rfl⟩, d, ⟨.punctuation, ";", stopAt⟩, ⟨rfl, rfl⟩⟩, stopAt + 1, ?_, ?_, hdepth⟩
  · rw [Token.scanFrom_append hlexeme (fun _ => endsIdentifier_cons (by decide)),
      Token.scanFrom_blank (by decide), Token.scanFrom_append hsign (fun h => absurd h (by decide)),
      Token.scanFrom_blanks hblanks, hscan, Token.scanFrom_blank (by decide),
      scanFrom_sign (by decide), Entry.tokens_append]
  · rw [Entry.raw, String.ofList_toList]

/-- A definition on one line reads as its name and a body with the normal form of its own. -/
theorem exists_readRaw (name : String) (hname : IsIdentifier name.toList) {e : Expr}
    (he : e.IsLexical) (hdepth : e.writtenDepth 0 ≤ maxDepth) :
    ∃ t, t.SameNormal e ∧
      readRaw (name ++ " ::= " ++ e.render ++ " ;").toList = .ok [(name, t)] := by
  obtain ⟨t, hsame, hreads⟩ := ((readsAs_bare he).written (Nat.zero_le 3)).mono hdepth
  have hblanks : ∀ c ∈ [' '], Text.isBlank c = true := List.forall_mem_singleton.2 (by decide)
  obtain ⟨entry, after, hscan, hraw, hshallow⟩ := exists_entry name hname hreads hblanks 0 []
  have hchars : (name ++ " ::= " ++ e.render ++ " ;").toList =
      name.toList ++ ' ' :: ([':', ':', '='] ++ ([' '] ++ (e.written 0 ++ ' ' :: ';' :: []))) := by
    simp [Expr.render]
  let text : TextDerivation := ⟨[entry], ⟨.finish, "", after⟩, rfl⟩
  have htokens : text.tokens = Token.scan (name ++ " ::= " ++ e.render ++ " ;").toList := by
    rw [TextDerivation.tokens, List.flatMap_singleton, Token.scan, hchars, hscan,
      Token.scanFrom_nil]
  have hderives : DerivesAll maxDepth text.tokens text.raw :=
    text.derivesAll (List.forall_mem_singleton.2 hshallow)
  refine ⟨t, hsame, readRaw_eq_ok ?_⟩
  rw [← htokens, ← hraw]
  exact hderives

end Definition

/-- A definition that is written on one line is read as its name with the normal form of its body.
If there is no normal form, reading fails with a double quantification too. -/
theorem read_written (name : String) (e : Expr) (hname : Lexeme.IsIdentifier name.toList)
    (he : e.IsLexical) (hdepth : e.writtenDepth 0 ≤ Definition.maxDepth) :
    (∀ n, e.normalize = .ok n → ∃ defs,
      Definitions.read (name ++ " ::= " ++ e.render ++ " ;").toList = .ok defs ∧
        defs.entries = [(name, n)]) ∧
    ∀ marks, e.normalize = .error marks → ∃ marks',
      Definitions.read (name ++ " ::= " ++ e.render ++ " ;").toList =
        .error (.doubleQuantification marks') := by
  obtain ⟨t, hsame, hraw⟩ := Definition.exists_readRaw name hname he hdepth
  rw [Definitions.read, hraw, Except.bind]
  constructor
  · intro n hn
    refine ⟨⟨[(name, n)], by simp⟩, ?_, rfl⟩
    exact Definition.addAll_eq_ok_iff.2 ⟨[(name, n)], .cons ⟨rfl, (hsame n).2 hn⟩ .nil, rfl⟩
  · intro marks hmarks
    cases ht : t.normalize with
    | ok n =>
      rw [(hsame n).1 ht] at hmarks
      exact absurd hmarks (by simp)
    | error marks' => exact ⟨marks', by simp [Definition.addAll, ht, Table.contains]⟩

/-- Choices and sequences inside each other, with nothing at all in some places. -/
def Expr.untidy : Expr :=
  .quant (.alt [.seq [], .seq [.ref "a.b", .alt []], .alt [.seq [.term "'x'"]]]) "*"

theorem read_written_untidy :
    Lexeme.IsIdentifier "d".toList ∧ Expr.untidy.IsLexical ∧
      Expr.untidy.writtenDepth 0 ≤ Definition.maxDepth ∧
      (∀ n, Expr.untidy.normalize = .ok n → ∃ defs,
        Definitions.read ("d" ++ " ::= " ++ Expr.untidy.render ++ " ;").toList = .ok defs ∧
          defs.entries = [("d", n)]) ∧
      ∀ marks, Expr.untidy.normalize = .error marks → ∃ marks',
        Definitions.read ("d" ++ " ::= " ++ Expr.untidy.render ++ " ;").toList =
          .error (.doubleQuantification marks') := by
  have hname : Lexeme.IsIdentifier "d".toList := by decide
  have hterm : Lexeme.IsCharacterLiteral true "'x'".toList :=
    ⟨['x'], by simp, .plain (by decide) (by decide) (by decide) .nil, rfl⟩
  have he : Expr.untidy.IsLexical := by
    refine .quant (.alt ?_) (by decide)
    simp only [List.forall_mem_cons]
    refine ⟨.seq (by simp), .seq ?_, .alt ?_, by simp⟩
    · simp only [List.forall_mem_cons]
      exact ⟨.ref (by decide), .alt (by simp), by simp⟩
    · simp only [List.forall_mem_cons]
      exact ⟨.seq fun i hi => List.mem_singleton.1 hi ▸ .term (.inl hterm), by simp⟩
  have hdepth : Expr.untidy.writtenDepth 0 ≤ Definition.maxDepth := by decide
  exact ⟨hname, he, hdepth, read_written "d" Expr.untidy hname he hdepth⟩

end GrammarOutline
