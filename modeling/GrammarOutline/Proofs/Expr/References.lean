import GrammarOutline.Proofs.Expr.Normal

/-!
# References of normal forms

On the way to a normal form members are spliced, left out or put under another mark, but what is
left out mentions nothing. The normal form therefore mentions the same names as the expression, in
the same order and as often.
-/
namespace GrammarOutline.Expr

theorem references_alternatives (e : Expr) : e.alternatives.flatMap references = e.references := by
  cases e <;> simp [alternatives, references, referencesAll_eq]

theorem references_items (e : Expr) : e.items.flatMap references = e.references := by
  cases e <;> simp [items, references, referencesAll_eq]

theorem references_empty : empty.references = [] := rfl

theorem references_choose (es : List Expr) : (choose es).references = es.flatMap references := by
  match es with
  | [] => rfl
  | [e] => simp [choose]
  | a :: b :: es => exact referencesAll_eq (a :: b :: es)

theorem references_optional (e : Expr) : e.optional.references = e.references := by
  obtain ⟨operand, mark, rfl, hsame⟩ | ⟨rfl, hsame⟩ | ⟨-, -, hsame⟩ := optional_cases e
  · rw [hsame, references, references]
  · rw [hsame]
  · rw [hsame, references]

theorem references_ofAlternatives (es : List Expr) :
    (ofAlternatives es).references = es.flatMap references := by
  have hpresent : ∀ l : List Expr, (l.filter (· ≠ empty)).flatMap references =
      l.flatMap references := by
    intro l
    induction l with
    | nil => rfl
    | cons e l ih =>
      by_cases he : e = empty
      · simp [he, references_empty, ← ih]
      · simp [he, ← ih]
  have hspliced : (es.flatMap alternatives).flatMap references = es.flatMap references := by
    rw [List.flatMap_assoc]
    exact congrArg (es.flatMap ·) (funext references_alternatives)
  simp only [ofAlternatives]
  split
  · rw [references_optional, references_choose, hpresent, hspliced]
  · rw [references_choose, hpresent, hspliced]

theorem references_ofItems (es : List Expr) :
    (ofItems es).references = es.flatMap references := by
  have hspliced : (es.flatMap items).flatMap references = es.flatMap references := by
    rw [List.flatMap_assoc]
    exact congrArg (es.flatMap ·) (funext references_items)
  obtain ⟨e, he, hsame⟩ | ⟨-, hseq⟩ := ofItems_cases es
  · rw [hsame, ← hspliced, he, List.flatMap_singleton]
  · rw [hseq, references, referencesAll_eq, hspliced]

theorem references_ofQuantified {operand inner n : Expr} {mark : String}
    (h : ofQuantified operand mark inner = .ok n) : n.references = inner.references := by
  obtain ⟨-, ⟨rfl, rfl⟩ | ⟨-, rfl⟩⟩ := ofQuantified_cases h
  · rfl
  · rw [references]

theorem flatMap_references_eq {es ns : List Expr}
    (h : List.Forall₂ (fun e n => n.references = e.references) es ns) :
    ns.flatMap references = es.flatMap references := by
  induction h with
  | nil => rfl
  | cons hsame _ ih => rw [List.flatMap_cons, List.flatMap_cons, hsame, ih]

/-- The normal form of an expression has the references of the expression. -/
theorem references_normalize {e n : Expr} (h : e.normalize = .ok n) :
    n.references = e.references := by
  induction e using induct generalizing n with
  | alt as ih =>
    obtain ⟨ns, hns, rfl⟩ := map_eq_ok_iff.1 h
    have hsame := forall₂_imp_of_mem (normalizeAll_eq_ok_iff.1 hns) fun a ha n hn => ih a ha hn
    rw [references_ofAlternatives, flatMap_references_eq hsame, references, referencesAll_eq]
  | seq es ih =>
    obtain ⟨ns, hns, rfl⟩ := map_eq_ok_iff.1 h
    have hsame := forall₂_imp_of_mem (normalizeAll_eq_ok_iff.1 hns) fun e he n hn => ih e he hn
    rw [references_ofItems, flatMap_references_eq hsame, references, referencesAll_eq]
  | quant operand mark ih =>
    obtain ⟨inner, hinner, hn⟩ := bind_eq_ok_iff.1 h
    rw [references_ofQuantified hn, ih hinner, references]
  | ref name => rw [← Except.ok.inj h]
  | term text => rw [← Except.ok.inj h]

end GrammarOutline.Expr
