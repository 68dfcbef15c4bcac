import GrammarOutline.Proofs.Definition.Scan
import Mathlib.Data.List.Chain

/-!
# Scanning as the inverse of printing

A text is printed from lexemes with layout before each of them and after the last. Two identifiers
in a row have layout between them. Such a text is scanned into its lexemes where they stand, and
every text is printed like this up to its end, or up to the first place where nothing starts.
-/
namespace GrammarOutline.Token

open Lexeme

/-- A lexeme of a kind, with the layout before it. -/
structure Placed where
  gap : List Char
  kind : Kind
  lexeme : List Char
  isLayout : IsLayout False gap
  isLexeme : IsLexeme lexeme kind

namespace Placed

def chars (p : Placed) : List Char := p.gap ++ p.lexeme

/-- The lexemes in order, each after its layout, and layout at the end. -/
def printed (placed : List Placed) (gap : List Char) : List Char := placed.flatMap chars ++ gap

/-- The tokens of lexemes that are printed from an offset on. -/
def tokens (offset : Nat) : List Placed → List Token
  | [] => []
  | p :: placed =>
    ⟨p.kind, String.ofList p.lexeme, offset + p.gap.length⟩ ::
      tokens (offset + p.chars.length) placed

/-- Identifiers in a row do not touch. -/
def Apart (placed : List Placed) : Prop :=
  placed.IsChain fun p q => p.kind = .identifier → q.kind = .identifier → q.gap ≠ []

variable {p : Placed} {placed : List Placed} {offset : Nat} {gap : List Char} {t : Token}

@[simp] theorem printed_nil (gap : List Char) : printed [] gap = gap := rfl

@[simp] theorem printed_cons (p : Placed) (placed : List Placed) (gap : List Char) :
    printed (p :: placed) gap = p.gap ++ (p.lexeme ++ printed placed gap) := by
  simp [printed, chars]

theorem length_printed_cons (p : Placed) (placed : List Placed) (gap : List Char) (offset : Nat) :
    offset + (printed (p :: placed) gap).length =
      offset + p.gap.length + p.lexeme.length + (printed placed gap).length := by
  simp only [printed_cons, List.length_append]
  omega

section Tokens

theorem kind_of_mem_tokens (ht : t ∈ tokens offset placed) :
    t.kind ≠ .finish ∧ t.kind ≠ .malformed := by
  induction placed generalizing offset with
  | nil => simp [tokens] at ht
  | cons p placed ih =>
    rcases List.mem_cons.1 ht with rfl | ht
    · have hlexeme := p.isLexeme
      constructor
      · rintro hkind
        rw [show p.kind = .finish from hkind] at hlexeme
        exact hlexeme
      · rintro hkind
        rw [show p.kind = .malformed from hkind] at hlexeme
        exact hlexeme
    · exact ih ht

theorem offset_of_mem_tokens (ht : t ∈ tokens offset placed) :
    offset ≤ t.offset ∧ t.offset < offset + (placed.flatMap chars).length := by
  induction placed generalizing offset with
  | nil => simp [tokens] at ht
  | cons p placed ih =>
    have hlength : (p.chars ++ placed.flatMap chars).length =
        p.gap.length + p.lexeme.length + (placed.flatMap chars).length := by
      simp [chars, Nat.add_assoc]
    have hpos := List.length_pos_iff.2 (ne_nil_of_isLexeme p.isLexeme)
    rw [List.flatMap_cons, hlength]
    rcases List.mem_cons.1 ht with rfl | ht
    · dsimp only
      omega
    · have hoffset := ih ht
      rw [chars, List.length_append] at hoffset
      omega

theorem pairwise_tokens (offset : Nat) (placed : List Placed) :
    (tokens offset placed).Pairwise fun s t => s.offset < t.offset := by
  induction placed generalizing offset with
  | nil => exact .nil
  | cons p placed ih =>
    refine List.pairwise_cons.2 ⟨fun t ht => ?_, ih _⟩
    have hoffset := (offset_of_mem_tokens ht).1
    have hpos := List.length_pos_iff.2 (ne_nil_of_isLexeme p.isLexeme)
    rw [chars, List.length_append] at hoffset
    dsimp only
    omega

/-- The text of a token is the part of the source at its offset. -/
theorem text_of_mem_tokens (rest : List Char) (ht : t ∈ tokens offset placed) :
    t.text.toList <+: (placed.flatMap chars ++ rest).drop (t.offset - offset) := by
  induction placed generalizing offset with
  | nil => simp [tokens] at ht
  | cons p placed ih =>
    rw [List.flatMap_cons, List.append_assoc]
    rcases List.mem_cons.1 ht with rfl | ht
    · simp [chars]
    · have hoffset := (offset_of_mem_tokens ht).1
      have hsplit : t.offset - offset =
          p.chars.length + (t.offset - (offset + p.chars.length)) := by omega
      rw [hsplit, List.drop_length_add_append]
      exact ih ht

end Tokens

section Printed

/-- What is printed after an identifier does not go on with it. -/
theorem Apart.endsIdentifier (h : Apart (p :: placed)) (hgap : IsLayout True gap)
    (hp : p.kind = .identifier) : EndsIdentifier (printed placed gap) := by
  cases placed with
  | nil =>
    by_cases hne : gap = []
    · rw [printed_nil, hne]
      exact fun c hc => absurd hc (by simp)
    · simpa using hgap.endsIdentifier hne []
  | cons q placed =>
    have hq : q.kind = .identifier → q.gap ≠ [] := (List.isChain_cons.1 h).1 q rfl hp
    rw [printed_cons]
    by_cases hne : q.gap = []
    · obtain ⟨c, rest, hlexeme, -, -, hcontinues⟩ := isSolid_of_isLexeme q.isLexeme
      rw [hne, List.nil_append, hlexeme]
      rintro _ ⟨⟩
      refine Bool.eq_false_iff.2 fun hc => hq ?_ hne
      have hname : IsLexeme q.lexeme .identifier := hcontinues hc
      have hends : ∀ kind, Follows kind [] := fun _ _ _ hd => absurd hd (by simp)
      have hread := (lexeme?_append q.isLexeme (hends _)).symm.trans
        (lexeme?_append hname (hends _))
      simpa using hread
    · exact q.isLayout.endsIdentifier hne _

/-- Printed lexemes are scanned where they stand. -/
theorem scanFrom_printed (h : Apart placed) (hgap : IsLayout True gap) (offset : Nat) :
    scanFrom offset (printed placed gap) =
      tokens offset placed ++ [⟨.finish, "", offset + (printed placed gap).length⟩] := by
  induction placed generalizing offset with
  | nil =>
    have htaken : layout (gap ++ []) = _ := hgap.layout_append fun _ => rfl
    rw [List.append_nil, layout_nil, List.append_nil] at htaken
    rw [printed_nil, scanFrom_layout, htaken, scanFrom_nil]
    rfl
  | cons p placed ih =>
    have hlayout := (isSolid_of_isLexeme p.isLexeme).layout_append p.isLayout (printed placed gap)
    have hfollows : Follows p.kind (printed placed gap) := h.endsIdentifier hgap
    rw [length_printed_cons, printed_cons, scanFrom_layout, hlayout,
      scanFrom_append p.isLexeme hfollows, tokens, List.cons_append, chars, List.length_append,
      ← Nat.add_assoc, ih (List.isChain_cons.1 h).2]

/-- Every text is printed from lexemes up to its end, or up to a place where nothing starts. The
last token stands there. -/
theorem exists_printed (offset : Nat) (text : List Char) : ∃ placed gap rest last,
    text = printed placed gap ++ rest ∧ scanFrom offset text = tokens offset placed ++ [last] ∧
    Apart placed ∧ IsLayout (rest = []) gap ∧
    (rest = [] ∧ last = ⟨.finish, "", offset + (printed placed gap).length⟩ ∨
      rest ≠ [] ∧ StartsNothing rest ∧ last =
        ⟨.malformed, String.ofList (Text.excerpt rest), offset + (printed placed gap).length⟩) := by
  induction hlength : text.length using Nat.strong_induction_on generalizing offset text with
  | _ length ih =>
  subst hlength
  obtain ⟨gap, mid, hgap, rfl, ⟨rfl, hscan⟩ |
    ⟨kind, lexeme, rest, rfl, hne, hlexeme, hends, hscan⟩ |
    ⟨hne, hnothing, hscan⟩⟩ := scanFrom_cases offset text
  · exact ⟨[], gap, [], _, rfl, hscan, .nil, hgap, .inl ⟨rfl, rfl⟩⟩
  · have hless : rest.length < (gap ++ (lexeme ++ rest)).length := by
      have hpos := List.length_pos_iff.2 hne
      simp only [List.length_append]
      omega
    obtain ⟨placed, gap', rest', last, rfl, hrest, hapart, hgap', hlast⟩ :=
      ih _ hless (offset + gap.length + lexeme.length) rest rfl
    have hlayout : IsLayout False gap := by simpa [hne] using hgap
    refine ⟨⟨gap, kind, lexeme, hlayout, hlexeme⟩ :: placed, gap', rest', last, by simp, ?_,
      List.isChain_cons.2 ⟨?_, hapart⟩, hgap', ?_⟩
    · rw [hscan, hrest, tokens, chars, List.length_append, ← Nat.add_assoc, List.cons_append]
    · rintro q hq rfl hkind hnil
      obtain ⟨more, rfl⟩ : ∃ more, placed = q :: more := List.head?_eq_some_iff.1 hq
      obtain ⟨_, _, name, _, hname⟩ := q
      dsimp only at hkind hnil
      subst hkind hnil
      cases name with
      | nil => exact hname
      | cons c name =>
        have hc := hends hlexeme c (by simp)
        rw [continuesIdentifier_of_starts hname.1] at hc
        exact absurd hc (by decide)
    · rw [length_printed_cons]
      exact hlast
  · exact ⟨[], gap, mid, _, rfl, hscan, .nil, by simpa [hne] using hgap, .inr ⟨hne, hnothing, rfl⟩⟩

end Printed

end Placed

theorem excerpt_prefix (text : List Char) : Text.excerpt text <+: text := by
  unfold Text.excerpt
  split
  · exact List.prefix_rfl
  · split
    · simp
    · exact (List.takeWhile_prefix _).trans (List.take_prefix _ _)

/-- The text consists of its tokens where they stand and of layout around them, up to the last
token, which is the end of the text or the first place where nothing starts. -/
structure Lossless (source : List Char) (placed : List Placed) (gap rest : List Char)
    (last : Token) : Prop where
  text_eq : source = Placed.printed placed gap ++ rest
  scan_eq : scan source = Placed.tokens 0 placed ++ [last]
  apart : Placed.Apart placed
  isLayout : IsLayout (rest = []) gap
  last_eq : rest = [] ∧ last = ⟨.finish, "", source.length⟩ ∨
    rest ≠ [] ∧ StartsNothing rest ∧
      last = ⟨.malformed, String.ofList (Text.excerpt rest), (Placed.printed placed gap).length⟩
  kind_ne : ∀ t ∈ Placed.tokens 0 placed, t.kind ≠ .finish ∧ t.kind ≠ .malformed
  increasing : (scan source).Pairwise fun s t => s.offset < t.offset
  text_prefix : ∀ t ∈ scan source, t.text.toList <+: source.drop t.offset

theorem exists_lossless (source : List Char) : ∃ placed gap rest last,
    Lossless source placed gap rest last := by
  obtain ⟨placed, gap, rest, last, rfl, hscan, hapart, hgap, hlast⟩ :=
    Placed.exists_printed 0 source
  rw [Nat.zero_add] at hlast
  have hoffset : last.offset = (Placed.printed placed gap).length := by
    rcases hlast with ⟨-, rfl⟩ | ⟨-, -, rfl⟩ <;> rfl
  refine ⟨placed, gap, rest, last, ?_⟩
  constructor
  case text_eq => rfl
  case scan_eq => exact hscan
  case apart => exact hapart
  case isLayout => exact hgap
  case last_eq =>
    refine hlast.imp_left fun ⟨hrest, hlast⟩ => ⟨hrest, ?_⟩
    rw [hlast, hrest, List.append_nil]
  case kind_ne => exact fun t ht => Placed.kind_of_mem_tokens ht
  case increasing =>
    rw [scan, hscan, List.pairwise_append]
    refine ⟨Placed.pairwise_tokens 0 placed, List.pairwise_singleton _ _, fun t ht s hs => ?_⟩
    rw [List.mem_singleton.1 hs, hoffset, Placed.printed, List.length_append]
    have hless := (Placed.offset_of_mem_tokens ht).2
    omega
  case text_prefix =>
    intro t ht
    rw [scan, hscan, List.mem_append, List.mem_singleton] at ht
    rcases ht with ht | rfl
    · rw [Placed.printed, List.append_assoc]
      exact Placed.text_of_mem_tokens _ ht
    · rw [hoffset, List.drop_left]
      rcases hlast with ⟨-, rfl⟩ | ⟨-, -, rfl⟩
      · exact List.nil_prefix
      · rw [String.toList_ofList]
        exact excerpt_prefix rest

/-- Scanning loses nothing, and it is the inverse of printing: printed lexemes are scanned as they
are, whatever the layout is. -/
theorem scan_inverts_printing :
    (∀ source : List Char, ∃ placed gap rest last, Lossless source placed gap rest last) ∧
    ∀ (placed : List Placed) (gap : List Char), Placed.Apart placed → IsLayout True gap →
      scan (Placed.printed placed gap) =
        Placed.tokens 0 placed ++ [⟨.finish, "", (Placed.printed placed gap).length⟩] := by
  refine ⟨exists_lossless, ?_⟩
  intro placed gap hapart hgap
  have hscan := Placed.scanFrom_printed hapart hgap 0
  rwa [Nat.zero_add] at hscan

/-- A block comment is layout enough between two lexemes, and a line comment needs no line feed at
the end. -/
theorem scan_inverts_printing_comments : scan "a/**/b//c".toList =
    [⟨.identifier, "a", 0⟩, ⟨.identifier, "b", 5⟩, ⟨.finish, "", 9⟩] := by
  have hblock : IsLayout False ['/', '*', '*', '/'] :=
    .blockComment (by simp : ¬['*', '/'] <:+: []) .nil
  have hline : IsLayout True ['/', '/', 'c'] := .lastComment trivial (by decide)
  have ha : IsLexeme ['a'] .identifier := (by decide : IsIdentifier ['a'])
  have hb : IsLexeme ['b'] .identifier := (by decide : IsIdentifier ['b'])
  exact scan_inverts_printing.2 [⟨[], .identifier, ['a'], .nil, ha⟩,
    ⟨['/', '*', '*', '/'], .identifier, ['b'], hblock, hb⟩] _ (by simp [Placed.Apart]) hline

end GrammarOutline.Token
