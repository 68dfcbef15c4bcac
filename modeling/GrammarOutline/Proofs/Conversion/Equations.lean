import Mathlib.Order.FixedPoints
import GrammarOutline.Conversion
import GrammarOutline.Proofs.Expr.Language

/-!
# Equations between languages

Definitions and productions are equations: the language of a name is that of its body, which depends
on the languages of the names. Names without an equation have any fixed language. The least solution
is the least assignment of languages that one round of all equations leaves as it is.
-/
namespace GrammarOutline

variable {α : Type}

/-- For some names, what their language is when those of all names are given. -/
abbrev Equations (α : Type) := String → Option ((String → Language α) →o Language α)

namespace Equations

/-- One round of all equations. A name without an equation has its language in `free`. -/
def round (eqs : Equations α) (free : String → Language α) :
    (String → Language α) →o (String → Language α) where
  toFun names n := (eqs n).elim (free n) fun f => f names
  monotone' := by
    intro names names' h n
    dsimp only
    cases eqs n with
    | none => exact le_rfl
    | some f => exact f.monotone h

/-- The least solution of the equations. -/
def solution (eqs : Equations α) (free : String → Language α) : String → Language α :=
  (eqs.round free).lfp

variable {eqs eqs' : Equations α} {free : String → Language α}

theorem round_some {n : String} {f : (String → Language α) →o Language α} (h : eqs n = some f)
    (names : String → Language α) : eqs.round free names n = f names := by
  show (eqs n).elim (free n) (fun f => f names) = f names
  rw [h, Option.elim_some]

theorem round_none {n : String} (h : eqs n = none) (names : String → Language α) :
    eqs.round free names n = free n := by
  show (eqs n).elim (free n) (fun f => f names) = free n
  rw [h, Option.elim_none]

theorem round_solution (eqs : Equations α) (free : String → Language α) :
    eqs.round free (eqs.solution free) = eqs.solution free := (eqs.round free).map_lfp

theorem solution_le {names : String → Language α} (h : eqs.round free names ≤ names) :
    eqs.solution free ≤ names := (eqs.round free).lfp_le h

/-- Systems with the same solutions have the same least one. -/
theorem solution_eq_of_fixed
    (h : ∀ names, eqs.round free names = names ↔ eqs'.round free names = names) :
    eqs.solution free = eqs'.solution free := by
  apply le_antisymm
  · exact solution_le ((h _).2 (round_solution eqs' free)).le
  · exact solution_le ((h _).1 (round_solution eqs free)).le

/-- Equations may be dropped when the others do not depend on their names: the other names keep
their languages in the least solution. -/
theorem solution_eq_of_dropped {dropped : String → Prop} (hnone : ∀ n, dropped n → eqs n = none)
    (hkept : ∀ n, ¬dropped n → eqs n = eqs' n)
    (hapart : ∀ n f, eqs n = some f → ∀ names names' : String → Language α,
      (∀ m, ¬dropped m → names m = names' m) → f names = f names')
    {n : String} (hn : ¬dropped n) : eqs.solution free n = eqs'.solution free n := by
  classical
  have hround : ∀ names names' : String → Language α, (∀ m, ¬dropped m → names m = names' m) →
      ∀ m, ¬dropped m → eqs.round free names m = eqs'.round free names' m := by
    intro names names' hsame m hm
    cases heq : eqs m with
    | none => rw [round_none heq, round_none (hkept m hm ▸ heq)]
    | some f =>
      rw [round_some heq, round_some (hkept m hm ▸ heq), hapart m f heq names names' hsame]
  apply le_antisymm
  · let names : String → Language α := fun m => if dropped m then free m else eqs'.solution free m
    have hle : eqs.solution free ≤ names := by
      apply solution_le
      intro m
      by_cases hm : dropped m
      · rw [round_none (hnone m hm)]
        simp [names, hm]
      · rw [hround names (eqs'.solution free) (fun m hm => by simp [names, hm]) m hm,
          round_solution]
        simp [names, hm]
    simpa [names, hn] using hle n
  · let names : String → Language α := fun m => if dropped m then ⊤ else eqs.solution free m
    have hle : eqs'.solution free ≤ names := by
      apply solution_le
      intro m
      by_cases hm : dropped m
      · simp [names, hm]
      · rw [← hround (eqs.solution free) names (fun m hm => by simp [names, hm]) m hm,
          round_solution]
        simp [names, hm]
    simpa [names, hn] using hle n

end Equations

def Expr.equation (terms : String → Language α) (e : Expr) : (String → Language α) →o Language α :=
  ⟨fun names => e.language terms names, language_mono terms e⟩

def Element.language (terms names : String → Language α) : Element → Language α
  | .name identifier => names identifier
  | .literal text => terms text

/-- The language of a production is the union of those of its rules, and the language of a rule is
the concatenation of those of its elements. -/
def Production.language (terms names : String → Language α) (p : Production) : Language α :=
  (p.rules.map fun rule => (rule.map (Element.language terms names)).prod).sum

theorem Production.language_mono (terms : String → Language α) (p : Production) :
    Monotone fun names => p.language terms names := by
  intro names names' h
  refine Expr.sum_map_mono fun rule _ => Expr.prod_map_mono fun element _ => ?_
  cases element with
  | name identifier => exact h identifier
  | literal text => exact le_rfl

def Production.equation (terms : String → Language α) (p : Production) :
    (String → Language α) →o Language α :=
  ⟨fun names => p.language terms names, p.language_mono terms⟩

def Table.equations (terms : String → Language α) (bodies : Table Expr) : Equations α :=
  fun n => (bodies.find? n).map (Expr.equation terms)

/-- The equations of a grammar together with supplementary definitions. -/
def NamedProductions.equations (terms : String → Language α) (g : NamedProductions)
    (extra : Definitions) : Equations α :=
  fun n => ((g.find? n).map (Production.equation terms)).or (extra.equations terms n)

def Definition.equations (terms : String → Language α) (defs : List Definition) : Equations α :=
  fun n => (defs.find? fun d => d.name = n).map fun d => d.body.equation terms

section Forms

variable {terms names : String → Language α}

theorem Element.language_expr (e : Element) :
    e.expr.language terms names = e.language terms names := by
  cases e <;> rfl

theorem Production.language_body {p : Production} (h : p.rules ≠ []) :
    p.body.language terms names = p.language terms names := by
  have hrules : p.expr.HasAlternatives := by
    refine .alt (by simpa using h) fun a ha => ?_
    obtain ⟨rule, -, rfl⟩ := List.mem_map.1 ha
    refine .seq fun e he => ?_
    obtain ⟨element, -, rfl⟩ := List.mem_map.1 he
    cases element with
    | name identifier => exact .ref identifier
    | literal text => exact .term text
  rw [Expr.language_normalize hrules p.normalize_expr]
  simp only [expr, Expr.language_alt, Production.language, List.map_map, Function.comp_def,
    Expr.language_seq, Element.language_expr]

end Forms

end GrammarOutline
