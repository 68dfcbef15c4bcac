import GrammarOutline.Production.Reader
import GrammarOutline.Proofs.Conversion.Result
import GrammarOutline.Proofs.Definition.Entries

/-!
# Where trivial names stay

A trivial name is left in a settled body where its quantified body would come under another mark. It
is left as well in an operand of several parts of which some vanish, so that what remains would be
quantified: there the whole operand stays as it is.
-/
namespace GrammarOutline

namespace Expr

/-- An inlined normal form mentions the substituted names only under marks with blocked operands. -/
theorem IsInlined.onlyUnder {bodies : Table Expr} {keeps : Expr → Prop} {e : Expr}
    (h : IsInlined bodies e) (he : e.IsNormal)
    (hkeeps : ∀ operand mark, IsNormal (.quant operand mark) → Blocked bodies operand →
      keeps operand) : OnlyUnder bodies.names keeps e := by
  induction h with
  | alt _ ih =>
    cases he with
    | alt _ hnormal _ => exact .alt fun a ha => ih a ha (hnormal a ha)
  | seq _ ih =>
    cases he with
    | seq _ hnormal _ => exact .seq fun e he => ih e he (hnormal e he)
  | quant _ ih => exact .quant (ih he.operand.1)
  | @kept operand mark blocked => exact .kept (hkeeps operand mark he blocked)
  | ref absent => exact .ref (Table.find?_eq_none_iff.1 absent)
  | term text => exact .term text

end Expr

namespace Conversion

/-- The operand is a trivial name with a quantified body. -/
def Settled.Quantifies (s : Settled) (operand : Expr) : Prop :=
  ∃ n b, operand = .ref n ∧ n ∈ s.trivial.names ∧ s.bodies.find? n = some b ∧ b.isQuant = true

/-- The operand has several parts and mentions a trivial name whose body is nothing at all. With all
trivial bodies in place it would be quantified. -/
def Settled.Collapses (s : Settled) (operand : Expr) : Prop :=
  operand.isAtom = false ∧
  (∃ n ∈ operand.references, n ∈ s.trivial.names ∧ s.bodies.find? n = some .empty) ∧
  ∃ inner, operand.substitute s.trivial = .ok inner ∧ inner.isQuant = true

theorem Settled.Valid.keeps_of_blocked {s : Settled} {sources : Table Expr} {done : List String}
    (h : s.Valid sources done) {operand : Expr} {mark : String}
    (hnormal : Expr.IsNormal (.quant operand mark)) (hblocked : Expr.Blocked s.trivial operand) :
    s.Quantifies operand ∨ s.Collapses operand := by
  rcases hblocked.exists_body h.normal_trivial hnormal with
    ⟨n, b, rfl, hb, hquant⟩ | ⟨hatom, n, hn, hempty⟩
  · exact .inl ⟨n, b, rfl, Table.mem_names_of_find? hb, h.trivial_bodies n b hb, hquant⟩
  · exact .inr ⟨hatom, ⟨n, hn, Table.mem_names_of_find? hempty, h.trivial_bodies n _ hempty⟩,
      hblocked⟩

end Conversion

/-- In the settled bodies of a conversion, a trivial name stands only under marks: as the operand
itself when its body is quantified, or anywhere in an operand that collapses. -/
theorem trivial_names_only_under_marks (g : Grammar) (policy : InlinePolicy) (source : List Char)
    (extra : Definitions) (hread : Definitions.read source = .ok extra)
    (hapart : ∀ n ∈ extra.names, n ∉ g.names) :
    ∃ s, Conversion.settle policy (Conversion.sources g extra) = .ok s ∧
      g.convert extra policy = .ok (Conversion.ofSettled g extra policy s) ∧
      ∀ n b, s.bodies.find? n = some b →
        b.OnlyUnder (Conversion.ofSettled g extra policy s).trivial
          fun operand => s.Quantifies operand ∨ s.Collapses operand := by
  have hextra : g.Admits extra := ⟨fun n b hb => Definitions.normalize_of_read hread hb, hapart⟩
  obtain ⟨s, hs, hvalid, hconvert⟩ := hextra.exists_convert policy
  refine ⟨s, hs, hconvert, fun n b hb => ?_⟩
  exact (hvalid.inlined n b hb).onlyUnder (hvalid.normal n b hb)
    fun operand mark hnormal hblocked => hvalid.keeps_of_blocked hnormal hblocked

/-- The name of a quantified body stays under a mark, and in `(e t)+` a name that vanishes stays
beside it. -/
theorem trivial_names_only_under_marks_of_star :
    ∃ (g : Grammar) (extra : Definitions),
      g.productions = [⟨"start", [[.name "d"]]⟩] ∧
      Definitions.read "e ::=; t ::= 'x'*; d ::= t*|(e t)+;".toList = .ok extra ∧
      (∀ n ∈ extra.names, n ∉ g.names) ∧
      ∃ s, Conversion.settle {} (Conversion.sources g extra) = .ok s ∧
        g.convert extra {} = .ok (Conversion.ofSettled g extra {} s) ∧
        ∀ n b, s.bodies.find? n = some b →
          b.OnlyUnder (Conversion.ofSettled g extra {} s).trivial
            fun operand => s.Quantifies operand ∨ s.Collapses operand := by
  have hread : (Definitions.read "e ::=; t ::= 'x'*; d ::= t*|(e t)+;".toList).map Table.names =
      .ok ["e", "t", "d"] := by decide +kernel
  obtain ⟨extra, hextra, hnames⟩ := map_eq_ok_iff.1 hread
  have hapart : ∀ n ∈ extra.names, n ∉ ["start"] := by
    rw [hnames]
    decide
  exact ⟨⟨⟨[⟨"start", [[.name "d"]]⟩], by decide⟩, by decide⟩, extra, rfl, hextra, hapart,
    trivial_names_only_under_marks _ _ _ extra hextra hapart⟩

/-- Trivial names do not only stay as operands with quantified bodies. In `(e|'x')*` the name `e` is
an alternative, and its body is nothing at all. -/
theorem not_trivial_names_only_as_operands :
    ¬∀ (policy : InlinePolicy) (text source : List Char) (g : Grammar) (extra : Definitions),
      Grammar.read text = .ok g → Definitions.read source = .ok extra →
      (∀ n ∈ extra.names, n ∉ g.names) →
      ∃ s, Conversion.settle policy (Conversion.sources g extra) = .ok s ∧
        g.convert extra policy = .ok (Conversion.ofSettled g extra policy s) ∧
        ∀ n b, s.bodies.find? n = some b →
          b.OnlyUnder (Conversion.ofSettled g extra policy s).trivial s.Quantifies := by
  intro h
  obtain ⟨g, hg, hproductions⟩ := map_eq_ok_iff.1 (by decide +kernel :
    (Grammar.read "%%\nstart : 'y' ;\n%%\n".toList).map (·.productions) =
      .ok [⟨"start", [[.literal "'y'"]]⟩])
  obtain ⟨extra, hextra, hentries⟩ := map_eq_ok_iff.1 (by decide +kernel :
    (Definitions.read "e ::= ; d ::= (e|'x')* ;".toList).map Table.entries =
      .ok [("e", .empty), ("d", .quant (.alt [.ref "e", .term "'x'"]) "*")])
  obtain ⟨⟨productions, hdistinct⟩, hempty⟩ := g
  obtain ⟨entries, hnodup⟩ := extra
  obtain rfl : productions = _ := hproductions
  obtain rfl : entries = _ := hentries
  obtain ⟨s, hs, -, hunder⟩ :=
    h {} _ _ _ _ hg hextra (by simp [Table.names, NamedProductions.names])
  have horder :
      let graph := Definitions.graph (Conversion.sources ⟨_, hdistinct⟩ ⟨_, hnodup⟩)
      Conversion.order graph graph.components =
        [("start", false), ("e", false), ("d", false)] := by
    intro graph
    have hgraph : graph = ⟨[("start", []), ("e", []), ("d", ["e"])], by decide⟩ := by rfl
    rw [hgraph]
    simp [Conversion.order, Graph.isRecursiveGroup, Graph.reachesSelf, Graph.reaches,
      Graph.reachesFrom, Graph.components, Graph.Search.visit, Graph.Search.run,
      Graph.Search.step, Graph.Search.enter, Graph.Search.close, Graph.Search.lowerFirst,
      Graph.Search.number?, Graph.inOrder, Graph.successors, Table.names, Table.contains,
      Table.find?, Table.lookup_cons, Table.empty, Table.insert, Table.put]
  have hsettle : (Conversion.settle {} (Conversion.sources ⟨_, hdistinct⟩ ⟨_, hnodup⟩)).map
      (fun s => (s.bodies.find? "d", s.trivial.names)) =
      .ok (some (.quant (.alt [.ref "e", .term "'x'"]) "*"), ["e"]) := by
    rw [Conversion.settle, horder]
    rfl
  rw [hs] at hsettle
  obtain ⟨hd, htrivial⟩ := Prod.mk.inj (Except.ok.inj hsettle)
  cases hunder "d" _ hd with
  | kept keeps_operand =>
    obtain ⟨n, b, hname, -⟩ := keeps_operand
    exact absurd hname (by simp)
  | quant member =>
    cases member with
    | alt members =>
      cases members (.ref "e") List.mem_cons_self with
      | ref absent => exact absent (by simp [Conversion.ofSettled, htrivial])

end GrammarOutline
