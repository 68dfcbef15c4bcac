import GrammarOutline.Proofs.Conversion.Equations
import GrammarOutline.Proofs.Conversion.Result

/-!
# A conversion keeps languages

Settling does not change which languages solve the equations. A body that is left out is mentioned
by no body that is written, so the others keep their least solution.
-/
namespace GrammarOutline

variable {α : Type} {terms free : String → Language α}

theorem Table.round_equations_eq_iff {bodies : Table Expr} {names : String → Language α} :
    (bodies.equations terms).round free names = names ↔
      bodies.Solves terms names bodies.names ∧ ∀ n ∉ bodies.names, names n = free n := by
  rw [funext_iff]
  constructor
  · intro h
    refine ⟨fun n _ b hb => ?_, fun n hn => ?_⟩
    · rw [← h n, Equations.round_some (f := b.equation terms) (by rw [equations, hb]; rfl)]
      rfl
    · rw [← h n, Equations.round_none (by rw [equations, find?_eq_none_iff.2 hn]; rfl)]
  · rintro ⟨hsolves, hfree⟩ n
    cases hb : bodies.find? n with
    | none =>
      rw [Equations.round_none (by rw [equations, hb]; rfl), hfree n (find?_eq_none_iff.1 hb)]
    | some b =>
      rw [Equations.round_some (f := b.equation terms) (by rw [equations, hb]; rfl),
        hsolves n (mem_names_of_find? hb) b hb]
      rfl

variable {g : NamedProductions} {extra : Definitions}

theorem equations_sources (hrules : ∀ p ∈ g.productions, p.rules ≠ []) (h : g.Admits extra) :
    (Conversion.sources g extra).equations terms = g.equations terms extra := by
  funext n
  rw [Table.equations, NamedProductions.find?_sources, NamedProductions.equations, Table.equations]
  cases hp : g.find? n with
  | none => cases extra.find? n <;> rfl
  | some p =>
    have hnone : extra.find? n = none :=
      Table.find?_eq_none_iff.2 fun hn => h.apart n hn (NamedProductions.mem_names_of_find? hp)
    have hbody : p.body.equation terms = p.equation terms := by
      ext1
      funext names
      exact Production.language_body (hrules p (List.mem_of_find?_eq_some hp))
    rw [hnone, Option.none_or, Option.map_some, Option.map_some, Option.map_some, Option.some_or,
      hbody]

namespace Conversion

variable {policy : InlinePolicy} {s : Settled}

/-- The settled bodies have the solutions of the bodies from which they come. -/
theorem solution_settled
    (h : s.Valid (sources g extra) (Definitions.graph (sources g extra)).components.flatten) :
    (s.bodies.equations terms).solution free =
      ((sources g extra).equations terms).solution free := by
  apply Equations.solution_eq_of_fixed
  intro names
  have hnames : ∀ n, n ∈ s.bodies.names ↔ n ∈ (sources g extra).names := fun n => by
    rw [h.mem_names_bodies, NamedProductions.mem_names_sources]
  have hsolves : ∀ t : Table Expr, t.Solves terms names s.bodies.names ↔
      t.Solves terms names (sources g extra).names := by
    intro t
    simp only [Table.Solves, hnames]
  rw [Table.round_equations_eq_iff, Table.round_equations_eq_iff, ← hsolves (sources g extra)]
  simp only [hnames]
  rw [h.names_bodies, h.solves_iff]

/-- The equations of what is written are those of the settled bodies that are not left out. -/
theorem equations_all (terms : String → Language α) (policy : InlinePolicy) (hg : g.Admits extra)
    (h : s.Valid (sources g extra) (Definitions.graph (sources g extra)).components.flatten)
    (n : String) :
    (LeftOut g policy (ofSettled g extra policy s) n →
      Definition.equations terms (ofSettled g extra policy s).all n = none) ∧
    (¬LeftOut g policy (ofSettled g extra policy s) n →
      Definition.equations terms (ofSettled g extra policy s).all n =
        s.bodies.equations terms n) := by
  rw [Definition.equations, Table.equations]
  cases hd : (ofSettled g extra policy s).all.find? fun d => d.name = n with
  | none =>
    refine ⟨fun _ => rfl, fun hkept => ?_⟩
    cases hb : s.bodies.find? n with
    | none => rfl
    | some b =>
      have hmem : ⟨n, b⟩ ∈ (ofSettled g extra policy s).all :=
        (mem_all_ofSettled hg h).2 ⟨hb, hkept⟩
      exact absurd (decide_eq_true rfl) (List.find?_eq_none.1 hd ⟨n, b⟩ hmem)
  | some d =>
    have hname : d.name = n := by simpa using List.find?_some hd
    have hmem := (mem_all_ofSettled hg h).1 (List.mem_of_find?_eq_some hd)
    rw [hname] at hmem
    refine ⟨fun hout => absurd hout hmem.2, fun _ => ?_⟩
    rw [hmem.1]
    rfl

end Conversion

/-- A conversion succeeds, and what it writes describes the languages of the productions and the
supplementary definitions. -/
theorem convert_keeps_languages (g : Grammar) (extra : Definitions) (policy : InlinePolicy)
    (hrules : ∀ p ∈ g.productions, p.rules ≠ []) (hextra : g.Admits extra) :
    ∃ c, g.convert extra policy = .ok c ∧
      ∀ (α : Type) (terms free : String → Language α), ∀ d ∈ c.all,
        (Definition.equations terms c.all).solution free d.name =
          (g.equations terms extra).solution free d.name := by
  obtain ⟨s, -, hvalid, hconvert⟩ := hextra.exists_convert policy
  refine ⟨_, hconvert, fun α terms free d hd => ?_⟩
  have hequations := Conversion.equations_all terms policy hextra hvalid
  rw [← equations_sources hrules hextra, ← Conversion.solution_settled hvalid]
  refine Equations.solution_eq_of_dropped (fun n => (hequations n).1) (fun n => (hequations n).2) ?_
    ((Conversion.mem_all_ofSettled hextra hvalid).1 hd).2
  intro n f hf names names' hsame
  by_cases hout : Conversion.LeftOut g policy (Conversion.ofSettled g extra policy s) n
  · rw [(hequations n).1 hout] at hf
    exact absurd hf (by simp)
  · rw [(hequations n).2 hout] at hf
    obtain ⟨b, hb, rfl⟩ := Option.map_eq_some_iff.1 hf
    have hapart : ∀ m ∈ b.references,
        ¬Conversion.LeftOut g policy (Conversion.ofSettled g extra policy s) m := by
      intro m hm hleft
      have hne : n ≠ m := fun e => hout (e ▸ hleft)
      exact Conversion.not_mem_references_of_inlined hleft.2.2 hb hne hm
    exact Expr.language_congr fun m hm => hsame m (hapart m hm)

theorem convert_keeps_languages_wordLists :
    (∀ p ∈ Grammar.wordLists.productions, p.rules ≠ []) ∧
    Grammar.wordLists.Admits Definitions.wordNames ∧
    ∃ c, Grammar.wordLists.convert Definitions.wordNames { dropInlined := true } = .ok c ∧
      ∀ (α : Type) (terms free : String → Language α), ∀ d ∈ c.all,
        (Definition.equations terms c.all).solution free d.name =
          (Grammar.wordLists.equations terms Definitions.wordNames).solution free d.name := by
  have hrules : ∀ p ∈ Grammar.wordLists.productions, p.rules ≠ [] := by decide
  have hextra : Grammar.wordLists.Admits Definitions.wordNames := by
    refine ⟨fun n b hb => ?_, by decide⟩
    obtain ⟨-, rfl⟩ := Prod.mk.inj (List.mem_singleton.1 (Table.find?_eq_some_iff.1 hb))
    rfl
  exact ⟨hrules, hextra, convert_keeps_languages _ _ _ hrules hextra⟩

end GrammarOutline
