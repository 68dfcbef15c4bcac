import GrammarOutline.Proofs.Expr.Normal
import Mathlib.Computability.Language
import Mathlib.Order.CompletePartialOrder

/-!
# Languages of expressions

An expression denotes a language once its names and terminals do: a choice denotes the union, a
sequence the concatenation, and a mark says how often its operand is repeated. Bringing an
expression to normal form does not change its language, as long as no choice is empty: there the
normal form is nothing at all, which is a word, and the choice has none.
-/
namespace GrammarOutline

variable {α : Type}

namespace Expr
open Computability

/-- The words of an operand under a mark. A mark other than `?` and `+` repeats any number of
times. -/
def marked (mark : String) (l : Language α) : Language α :=
  if mark = "?" then 1 + l else if mark = "+" then l * l∗ else l∗

mutual

/-- The language of an expression, when `terms` and `names` are those of terminals and names. -/
def language (terms names : String → Language α) : Expr → Language α
  | .alt as => (languageAll terms names as).sum
  | .seq es => (languageAll terms names es).prod
  | .quant operand mark => marked mark (language terms names operand)
  | .ref name => names name
  | .term text => terms text

def languageAll (terms names : String → Language α) : List Expr → List (Language α)
  | [] => []
  | e :: es => language terms names e :: languageAll terms names es

end

variable {terms names names' : String → Language α}

theorem languageAll_eq (terms names : String → Language α) (es : List Expr) :
    languageAll terms names es = es.map (language terms names) := by
  induction es with
  | nil => rfl
  | cons e es ih => rw [languageAll, ih, List.map_cons]

@[simp] theorem language_alt (as : List Expr) :
    language terms names (.alt as) = (as.map (language terms names)).sum := by
  rw [language, languageAll_eq]

@[simp] theorem language_seq (es : List Expr) :
    language terms names (.seq es) = (es.map (language terms names)).prod := by
  rw [language, languageAll_eq]

@[simp] theorem language_quant (operand : Expr) (mark : String) :
    language terms names (.quant operand mark) = marked mark (language terms names operand) := rfl

@[simp] theorem language_ref (name : String) : language terms names (.ref name) = names name := rfl

@[simp] theorem language_term (text : String) :
    language terms names (.term text) = terms text := rfl

@[simp] theorem language_empty : language terms names empty = 1 := by simp [empty]

/-- The language depends on the names only that an expression mentions. -/
theorem language_congr {e : Expr} (h : ∀ n ∈ e.references, names n = names' n) :
    language terms names e = language terms names' e := by
  have hmap : ∀ es : List Expr, (∀ e ∈ es, (∀ n ∈ e.references, names n = names' n) →
      language terms names e = language terms names' e) →
      (∀ n ∈ referencesAll es, names n = names' n) →
      es.map (language terms names) = es.map (language terms names') := by
    intro es ih hes
    exact List.map_congr_left fun e he => ih e he fun n hn => hes n (mem_referencesAll he hn)
  induction e using induct with
  | alt as ih => rw [language_alt, language_alt, hmap as ih h]
  | seq es ih => rw [language_seq, language_seq, hmap es ih h]
  | quant operand mark ih => rw [language_quant, language_quant, ih h]
  | ref name => exact h name (by simp [references])
  | term text => rfl

section Monotone

theorem marked_mono (mark : String) {l m : Language α} (h : l ≤ m) :
    marked mark l ≤ marked mark m := by
  unfold marked
  split
  · exact add_le_add le_rfl h
  · split
    · exact mul_le_mul' h (kstar_mono h)
    · exact kstar_mono h

theorem sum_map_mono {β : Type} {f g : β → Language α} {l : List β} (h : ∀ b ∈ l, f b ≤ g b) :
    (l.map f).sum ≤ (l.map g).sum := by
  induction l with
  | nil => exact le_rfl
  | cons b l ih =>
    simp only [List.mem_cons, forall_eq_or_imp] at h
    simp only [List.map_cons, List.sum_cons]
    exact add_le_add h.1 (ih h.2)

theorem prod_map_mono {β : Type} {f g : β → Language α} {l : List β} (h : ∀ b ∈ l, f b ≤ g b) :
    (l.map f).prod ≤ (l.map g).prod := by
  induction l with
  | nil => exact le_rfl
  | cons b l ih =>
    simp only [List.mem_cons, forall_eq_or_imp] at h
    simp only [List.map_cons, List.prod_cons]
    exact mul_le_mul' h.1 (ih h.2)

/-- Larger languages of the names give a larger language. -/
theorem language_mono (terms : String → Language α) (e : Expr) :
    Monotone fun names => language terms names e := by
  intro names names' h
  dsimp only
  induction e using induct with
  | alt as ih =>
    rw [language_alt, language_alt]
    exact sum_map_mono ih
  | seq es ih =>
    rw [language_seq, language_seq]
    exact prod_map_mono ih
  | quant operand mark ih => exact marked_mono mark ih
  | ref name => exact h name
  | term text => exact le_rfl

end Monotone

section Normalization

theorem sum_flatMap_alternatives (terms names : String → Language α) (es : List Expr) :
    ((es.flatMap alternatives).map (language terms names)).sum =
      (es.map (language terms names)).sum := by
  induction es with
  | nil => rfl
  | cons e es ih =>
    have : ((alternatives e).map (language terms names)).sum = language terms names e := by
      cases e <;> simp [alternatives]
    simp only [List.flatMap_cons, List.map_append, List.sum_append, List.map_cons, List.sum_cons,
      this, ih]

theorem prod_flatMap_items (terms names : String → Language α) (es : List Expr) :
    ((es.flatMap items).map (language terms names)).prod =
      (es.map (language terms names)).prod := by
  induction es with
  | nil => rfl
  | cons e es ih =>
    have : ((items e).map (language terms names)).prod = language terms names e := by
      cases e <;> simp [items]
    simp only [List.flatMap_cons, List.map_append, List.prod_append, List.map_cons, List.prod_cons,
      this, ih]

/-- Alternatives that stand for nothing at all add the empty word. -/
theorem sum_eq_sum_filter (terms names : String → Language α) (es : List Expr) :
    (es.map (language terms names)).sum =
      if (es.filter (· ≠ empty)).length < es.length then
        1 + ((es.filter (· ≠ empty)).map (language terms names)).sum
      else ((es.filter (· ≠ empty)).map (language terms names)).sum := by
  induction es with
  | nil => rfl
  | cons e es ih =>
    have hle : (es.filter (· ≠ empty)).length ≤ es.length := List.length_filter_le _ _
    by_cases he : e = empty
    · have hfilter : (e :: es).filter (· ≠ empty) = es.filter (· ≠ empty) := by simp [he]
      rw [hfilter, if_pos (by simp only [List.length_cons]; omega), List.map_cons,
        List.sum_cons, ih, he, language_empty]
      split
      · rw [← add_assoc, Language.add_self]
      · rfl
    · have hfilter : (e :: es).filter (· ≠ empty) = e :: es.filter (· ≠ empty) := by simp [he]
      rw [hfilter, List.map_cons, List.map_cons, List.sum_cons, List.sum_cons, ih]
      simp only [List.length_cons, Nat.add_lt_add_iff_right]
      split
      · rw [add_left_comm]
      · rfl

theorem language_choose {es : List Expr} (h : es ≠ []) :
    language terms names (choose es) = (es.map (language terms names)).sum := by
  match es with
  | [e] => simp [choose]
  | a :: b :: es => exact language_alt (a :: b :: es)

theorem one_add_kstar (l : Language α) : 1 + l∗ = l∗ :=
  (add_comm _ _).trans (add_eq_left_iff_le.2 one_le_kstar)

theorem language_optional (e : Expr) :
    language terms names e.optional = 1 + language terms names e := by
  obtain ⟨operand, mark, rfl, hsame⟩ | ⟨rfl, hsame⟩ | ⟨-, -, hsame⟩ := optional_cases e
  · rw [hsame]
    by_cases hplus : mark = "+"
    · have hstar : ∀ l : Language α, marked "*" l = l∗ := fun l => by simp [marked]
      have hmany : ∀ l : Language α, marked "+" l = l * l∗ := fun l => by simp [marked]
      rw [if_pos hplus, hplus, language_quant, language_quant, hstar, hmany,
        Language.one_add_self_mul_kstar_eq_kstar]
    · simp only [language_quant, marked, if_neg hplus]
      by_cases hoption : mark = "?"
      · rw [if_pos hoption, ← add_assoc, Language.add_self]
      · rw [if_neg hoption, one_add_kstar]
  · rw [hsame, language_empty, Language.add_self]
  · rw [hsame, language_quant, marked, if_pos rfl]

theorem language_ofAlternatives {es : List Expr} (h : es.flatMap alternatives ≠ []) :
    language terms names (ofAlternatives es) = (es.map (language terms names)).sum := by
  rw [← sum_flatMap_alternatives, sum_eq_sum_filter]
  simp only [ofAlternatives]
  by_cases hpresent : (es.flatMap alternatives).filter (· ≠ empty) = []
  · have := List.length_pos_iff.2 h
    rw [hpresent, if_pos (by simpa using this), if_pos (by simpa using this), language_optional]
    simp [choose]
  · split
    · rw [language_optional, language_choose hpresent]
    · rw [language_choose hpresent]

theorem language_ofItems (es : List Expr) :
    language terms names (ofItems es) = (es.map (language terms names)).prod := by
  rw [← prod_flatMap_items]
  obtain ⟨e, he, hsame⟩ | ⟨-, hseq⟩ := ofItems_cases es
  · simp [hsame, he]
  · rw [hseq, language_seq]

theorem marked_one (mark : String) : marked mark (1 : Language α) = 1 := by
  unfold marked
  split
  · rw [Language.add_self]
  · split <;> simp

theorem language_ofQuantified {operand inner n : Expr} {mark : String}
    (h : ofQuantified operand mark inner = .ok n) :
    language terms names n = marked mark (language terms names inner) := by
  obtain ⟨-, ⟨rfl, rfl⟩ | ⟨-, rfl⟩⟩ := ofQuantified_cases h
  · rw [language_empty, marked_one]
  · rw [language_quant]

/-- Expressions in which every choice has an alternative. -/
inductive HasAlternatives : Expr → Prop where
  | alt {as : List Expr} (ne_nil : as ≠ []) (members : ∀ a ∈ as, a.HasAlternatives) :
      HasAlternatives (.alt as)
  | seq {es : List Expr} (members : ∀ e ∈ es, e.HasAlternatives) : HasAlternatives (.seq es)
  | quant {operand : Expr} {mark : String} (member : operand.HasAlternatives) :
      HasAlternatives (.quant operand mark)
  | ref (name : String) : HasAlternatives (.ref name)
  | term (text : String) : HasAlternatives (.term text)

theorem IsNormal.hasAlternatives {e : Expr} (h : e.IsNormal) : e.HasAlternatives := by
  induction h with
  | alt hlength _ _ ih => exact .alt (List.ne_nil_of_length_pos (by omega)) ih
  | seq _ _ _ ih => exact .seq ih
  | quant _ _ ih => exact .quant ih
  | ref name => exact .ref name
  | term text => exact .term text

theorem alternatives_ne_nil {e : Expr} (h : e.HasAlternatives) : e.alternatives ≠ [] := by
  cases h with
  | alt ne_nil => exact ne_nil
  | _ => simp [alternatives]

theorem flatMap_alternatives_ne_nil {es : List Expr} (hne : es ≠ [])
    (h : ∀ e ∈ es, e.HasAlternatives) : es.flatMap alternatives ≠ [] := by
  obtain ⟨e, he⟩ := List.exists_mem_of_ne_nil es hne
  obtain ⟨a, ha⟩ := List.exists_mem_of_ne_nil _ (alternatives_ne_nil (h e he))
  exact List.ne_nil_of_mem (List.mem_flatMap.2 ⟨e, he, ha⟩)

theorem map_language_eq {es ns : List Expr}
    (h : List.Forall₂ (fun e n => language terms names n = language terms names e) es ns) :
    ns.map (language terms names) = es.map (language terms names) := by
  induction h with
  | nil => rfl
  | cons he _ ih => rw [List.map_cons, List.map_cons, he, ih]

/-- Bringing an expression to normal form keeps its language. -/
theorem language_normalize {e n : Expr} (he : e.HasAlternatives) (h : e.normalize = .ok n) :
    language terms names n = language terms names e := by
  induction he generalizing n with
  | alt hne _ ih =>
    obtain ⟨ns, hns, rfl⟩ := map_eq_ok_iff.1 h
    have hns := normalizeAll_eq_ok_iff.1 hns
    have hne' : ns ≠ [] := by
      rintro rfl
      exact hne (List.forall₂_nil_right_iff.1 hns)
    have hnormal := forall_of_forall₂ hns fun _ _ _ hn => (isNormal_of_normalize hn).hasAlternatives
    rw [language_ofAlternatives (flatMap_alternatives_ne_nil hne' hnormal), language_alt,
      map_language_eq (forall₂_imp_of_mem hns fun a ha n hn => ih a ha hn)]
  | seq _ ih =>
    obtain ⟨ns, hns, rfl⟩ := map_eq_ok_iff.1 h
    have hns := normalizeAll_eq_ok_iff.1 hns
    rw [language_ofItems, language_seq,
      map_language_eq (forall₂_imp_of_mem hns fun e he n hn => ih e he hn)]
  | quant _ ih =>
    obtain ⟨inner, hinner, hn⟩ := bind_eq_ok_iff.1 h
    rw [language_ofQuantified hn, ih hinner, language_quant]
  | ref name => rw [← Except.ok.inj h]
  | term text => rw [← Except.ok.inj h]

end Normalization

end Expr

end GrammarOutline
