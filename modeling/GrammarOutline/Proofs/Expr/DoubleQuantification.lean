import GrammarOutline.Proofs.Expr.Inline

/-!
# Where a second mark is refused

Whether the normal form of an expression is nothing at all, or quantified, shows in the expression
as it is written. A mark over an expression whose normal form is quantified is refused, and of
several such marks the first one is reported: children come before their parent, from left to right.
-/
namespace GrammarOutline.Expr

mutual

/-- Whether there is nothing at all in an expression: no name and no terminal. -/
def isVoid : Expr → Bool
  | .alt as => allVoid as
  | .seq es => allVoid es
  | .quant operand _ => isVoid operand
  | .ref _ | .term _ => false

def allVoid : List Expr → Bool
  | [] => true
  | e :: es => isVoid e && allVoid es

end

mutual

/-- Whether the whole of an expression is under one mark, which is its own or comes of a void
alternative beside others. -/
def isMarked : Expr → Bool
  | .alt as => !allVoid as && (as.any isVoid || marksPresent as == [true])
  | .seq es => marksPresent es == [true]
  | .quant operand _ => !operand.isVoid
  | .ref _ | .term _ => false

/-- Which of the expressions of a list are marked, without those that are void. -/
def marksPresent : List Expr → List Bool
  | [] => []
  | e :: es => if isVoid e then marksPresent es else isMarked e :: marksPresent es

end

/-- Whether there is a mark at the root, over an expression that is marked. -/
def isDouble : Expr → Bool
  | .quant operand _ => operand.isMarked
  | _ => false

mutual

/-- All expressions in an expression and itself. Children come before their parent, from left to
right. -/
def postorder : Expr → List Expr
  | .alt as => postorderAll as ++ [.alt as]
  | .seq es => postorderAll es ++ [.seq es]
  | .quant operand mark => postorder operand ++ [.quant operand mark]
  | .ref name => [.ref name]
  | .term text => [.term text]

def postorderAll : List Expr → List Expr
  | [] => []
  | e :: es => postorder e ++ postorderAll es

end

section Written

theorem allVoid_eq_false_iff {es : List Expr} :
    allVoid es = false ↔ ∃ e ∈ es, e.isVoid = false := by
  induction es with
  | nil => simp [allVoid]
  | cons e es ih => cases h : e.isVoid <;> simp [allVoid, h, ih]

theorem marksPresent_eq (es : List Expr) :
    marksPresent es = (es.filter fun e => !e.isVoid).map isMarked := by
  induction es with
  | nil => rfl
  | cons e es ih => cases h : e.isVoid <;> simp [marksPresent, h, ih]

theorem marksPresent_eq_singleton_iff {es : List Expr} : marksPresent es = [true] ↔
    ∃ e, (es.filter fun e => !e.isVoid) = [e] ∧ e.isMarked = true := by
  rw [marksPresent_eq, List.map_eq_singleton_iff]

/-- A sequence is marked when all but one of its items are void and this one is marked. -/
theorem isMarked_seq_iff {es : List Expr} : (seq es).isMarked = true ↔
    ∃ e, (es.filter fun e => !e.isVoid) = [e] ∧ e.isMarked = true := by
  rw [isMarked, beq_iff_eq, marksPresent_eq_singleton_iff]

/-- A choice in which not all is void is marked when some alternative is void, or when it has one
alternative only and this is marked. -/
theorem isMarked_alt_iff {as : List Expr} : (alt as).isMarked = true ↔
    (∃ a ∈ as, a.isVoid = false) ∧
      ((∃ a ∈ as, a.isVoid = true) ∨ ∃ a, as = [a] ∧ a.isMarked = true) := by
  simp only [isMarked, Bool.and_eq_true, Bool.not_eq_true', allVoid_eq_false_iff, Bool.or_eq_true,
    List.any_eq_true, beq_iff_eq, marksPresent_eq_singleton_iff]
  refine and_congr_right fun _ => or_congr_right' fun hpresent => ?_
  have hall : (as.filter fun a => !a.isVoid) = as := by
    refine List.filter_eq_self.2 fun a ha => ?_
    have hvoid : a.isVoid ≠ true := fun h => hpresent ⟨a, ha, h⟩
    simpa using hvoid
  rw [hall]

end Written

section Joined

variable {ns : List Expr}

theorem optional_eq_empty_iff {e : Expr} : e.optional = empty ↔ e = empty := by
  obtain ⟨operand, mark, rfl, hsame⟩ | ⟨rfl, hsame⟩ | ⟨-, hne, hsame⟩ := optional_cases e
  · simp [hsame, empty]
  · simp [hsame]
  · rw [hsame]
    exact iff_of_false (by simp [empty]) hne

theorem isQuant_optional_iff {e : Expr} : e.optional.isQuant = true ↔ e ≠ empty := by
  obtain ⟨operand, mark, rfl, hsame⟩ | ⟨rfl, hsame⟩ | ⟨-, hne, hsame⟩ := optional_cases e
  · simp [hsame, isQuant, empty]
  · rw [hsame]
    simp [isQuant, empty]
  · simp [hsame, hne, isQuant]

theorem choose_eq_empty_iff {es : List Expr} (h : empty ∉ es) : choose es = empty ↔ es = [] := by
  match es with
  | [] => simp [choose]
  | [e] =>
    have hne : e ≠ empty := fun he => h (by simp [he])
    simp [choose, hne]
  | a :: b :: es => simp [choose, empty]

/-- Normal forms of which none is nothing at all are joined to nothing at all only if there are
none, and to something quantified only if there is just one. -/
theorem join_of_not_mem {join : List Expr → Expr} (none : join [] = empty)
    (one : ∀ n, n.IsNormal → join [n] = n)
    (more : ∀ ns, 2 ≤ ns.length → (∀ n ∈ ns, n.IsNormal) →
      join ns = empty ∨ (join ns).isQuant = true → empty ∈ ns)
    (hnormal : ∀ n ∈ ns, n.IsNormal) (hempty : empty ∉ ns) :
    (join ns = empty ↔ ns = []) ∧
      ((join ns).isQuant = true ↔ ∃ n, ns = [n] ∧ n.isQuant = true) := by
  match ns with
  | [] => simp [none, isQuant, empty]
  | [n] =>
    have hne : n ≠ empty := fun h => hempty (by simp [h])
    simp [one n (hnormal n (by simp)), hne]
  | a :: b :: others =>
    have hmore := more (a :: b :: others) (by simp) hnormal
    exact ⟨iff_of_false (fun h => hempty (hmore (.inl h))) (by simp),
      iff_of_false (fun h => hempty (hmore (.inr h))) (by simp)⟩

theorem ofAlternatives_iff_of_not_mem (hnormal : ∀ n ∈ ns, n.IsNormal) (hempty : empty ∉ ns) :
    (ofAlternatives ns = empty ↔ ns = []) ∧
      ((ofAlternatives ns).isQuant = true ↔ ∃ n, ns = [n] ∧ n.isQuant = true) :=
  join_of_not_mem rfl (fun _ h => h.ofAlternatives_singleton)
    (fun _ hlength hnormal => exists_empty_of_ofAlternatives hlength hnormal) hnormal hempty

theorem ofItems_iff_of_not_mem (hnormal : ∀ n ∈ ns, n.IsNormal) (hempty : empty ∉ ns) :
    (ofItems ns = empty ↔ ns = []) ∧
      ((ofItems ns).isQuant = true ↔ ∃ n, ns = [n] ∧ n.isQuant = true) :=
  join_of_not_mem rfl (fun _ h => h.ofItems_singleton)
    (fun _ hlength _ => exists_empty_of_ofItems hlength) hnormal hempty

/-- Alternatives leave something when one of them is something. -/
theorem choose_present_eq_empty_iff (hnormal : ∀ n ∈ ns, n.IsNormal) :
    choose ((ns.flatMap alternatives).filter (· ≠ empty)) = empty ↔ ∀ n ∈ ns, n = empty := by
  rw [choose_eq_empty_iff (by simp), List.filter_eq_nil_iff]
  constructor
  · intro h n hn
    by_contra hne
    obtain ⟨a, ha⟩ := List.exists_mem_of_ne_nil _
      (alternatives_ne_nil (hnormal n hn).hasAlternatives)
    have hpresent := ne_empty_of_mem_alternatives (hnormal n hn) hne ha
    exact h a (List.mem_flatMap.2 ⟨n, hn, ha⟩) (by simpa using hpresent)
  · intro h a ha
    obtain ⟨n, hn, ha⟩ := List.mem_flatMap.1 ha
    rw [h n hn] at ha
    simp [List.mem_singleton.1 ha]

/-- What is joined as alternatives is nothing at all when all of it is. -/
theorem ofAlternatives_eq_empty_iff (hnormal : ∀ n ∈ ns, n.IsNormal) :
    ofAlternatives ns = empty ↔ ∀ n ∈ ns, n = empty := by
  by_cases hempty : empty ∈ ns
  · rw [ofAlternatives_of_mem hempty, optional_eq_empty_iff, choose_present_eq_empty_iff hnormal]
  · rw [(ofAlternatives_iff_of_not_mem hnormal hempty).1]
    constructor
    · rintro rfl
      simp
    · intro h
      exact List.eq_nil_iff_forall_not_mem.2 fun n hn => hempty (h n hn ▸ hn)

/-- What is joined as alternatives is quantified when nothing at all is one of several alternatives,
or when the only one is quantified. -/
theorem isQuant_ofAlternatives_iff (hnormal : ∀ n ∈ ns, n.IsNormal) :
    (ofAlternatives ns).isQuant = true ↔
      (∃ n ∈ ns, n ≠ empty) ∧ ((∃ n ∈ ns, n = empty) ∨ ∃ n, ns = [n] ∧ n.isQuant = true) := by
  by_cases hempty : empty ∈ ns
  · rw [ofAlternatives_of_mem hempty, isQuant_optional_iff, Ne, choose_present_eq_empty_iff hnormal]
    have hsome : ∃ n ∈ ns, n = empty := ⟨empty, hempty, rfl⟩
    rw [or_iff_left_of_imp fun _ => hsome, and_iff_left hsome]
    push Not
    rfl
  · rw [(ofAlternatives_iff_of_not_mem hnormal hempty).2]
    constructor
    · rintro ⟨n, rfl, hquant⟩
      have hne : n ≠ empty := fun h => hempty (by simp [h])
      exact ⟨⟨n, by simp, hne⟩, .inr ⟨n, rfl, hquant⟩⟩
    · rintro ⟨-, ⟨n, hn, rfl⟩ | hone⟩
      · exact absurd hn hempty
      · exact hone

theorem ofItems_filter (ns : List Expr) : ofItems (ns.filter (· ≠ empty)) = ofItems ns := by
  have hspliced : (ns.filter (· ≠ empty)).flatMap items = ns.flatMap items := by
    induction ns with
    | nil => rfl
    | cons n ns ih =>
      by_cases h : n = empty
      · simp [h, items, empty, ← ih]
      · simp [h, ← ih]
  rw [ofItems, ofItems, hspliced]

/-- What is joined as items is nothing at all when all of it is, and quantified when all is nothing
but one quantified item. -/
theorem ofItems_iff (hnormal : ∀ n ∈ ns, n.IsNormal) :
    (ofItems ns = empty ↔ ∀ n ∈ ns, n = empty) ∧
      ((ofItems ns).isQuant = true ↔
        ∃ n, ns.filter (· ≠ empty) = [n] ∧ n.isQuant = true) := by
  have hkept : ∀ n ∈ ns.filter (· ≠ empty), n.IsNormal :=
    fun n hn => hnormal n (List.mem_of_mem_filter hn)
  have hpresent := ofItems_iff_of_not_mem hkept (by simp)
  rw [ofItems_filter] at hpresent
  refine ⟨hpresent.1.trans ?_, hpresent.2⟩
  simp [List.filter_eq_nil_iff]

end Joined

section Foretold

/-- What the written expression says of its normal form `n`: whether it is nothing at all, and
whether it is quantified. -/
structure Foretells (e n : Expr) : Prop where
  empty_iff : n = empty ↔ e.isVoid = true
  isQuant_iff : n.isQuant = true ↔ e.isMarked = true

variable {es ns : List Expr}

theorem Foretells.ne_empty_iff {e n : Expr} (h : Foretells e n) : n ≠ empty ↔ e.isVoid = false := by
  rw [Ne, h.empty_iff, Bool.not_eq_true]

theorem exists_mem_iff_of_forall₂ {r : Expr → Expr → Prop} {p q : Expr → Prop}
    (h : List.Forall₂ r es ns) (hpq : ∀ e n, r e n → (p n ↔ q e)) :
    (∃ n ∈ ns, p n) ↔ ∃ e ∈ es, q e := by
  induction h with
  | nil => simp
  | cons hr _ ih => rw [List.exists_mem_cons_iff, List.exists_mem_cons_iff, hpq _ _ hr, ih]

theorem exists_eq_singleton_iff_of_forall₂ (h : List.Forall₂ Foretells es ns) :
    (∃ n, ns = [n] ∧ n.isQuant = true) ↔ ∃ e, es = [e] ∧ e.isMarked = true := by
  match h with
  | .nil => simp
  | .cons hone .nil => simp [hone.isQuant_iff]
  | .cons _ (.cons _ _) => simp

theorem forall_eq_empty_iff_of_forall₂ (h : List.Forall₂ Foretells es ns) :
    (∀ n ∈ ns, n = empty) ↔ allVoid es = true := by
  rw [← not_iff_not, Bool.not_eq_true, allVoid_eq_false_iff,
    ← exists_mem_iff_of_forall₂ h fun _ _ h => h.ne_empty_iff]
  push Not
  rfl

theorem foretells_ofAlternatives (hnormal : ∀ n ∈ ns, n.IsNormal)
    (h : List.Forall₂ Foretells es ns) : Foretells (.alt es) (ofAlternatives ns) where
  empty_iff := by
    rw [ofAlternatives_eq_empty_iff hnormal, forall_eq_empty_iff_of_forall₂ h, isVoid]
  isQuant_iff := by
    rw [isQuant_ofAlternatives_iff hnormal, isMarked_alt_iff,
      exists_mem_iff_of_forall₂ h fun _ _ h => h.ne_empty_iff,
      exists_mem_iff_of_forall₂ h fun _ _ h => h.empty_iff, exists_eq_singleton_iff_of_forall₂ h]

theorem foretells_ofItems (hnormal : ∀ n ∈ ns, n.IsNormal) (h : List.Forall₂ Foretells es ns) :
    Foretells (.seq es) (ofItems ns) where
  empty_iff := by
    rw [(ofItems_iff hnormal).1, forall_eq_empty_iff_of_forall₂ h, isVoid]
  isQuant_iff := by
    have hpresent : List.Forall₂ Foretells (es.filter fun e => !e.isVoid)
        (ns.filter (· ≠ empty)) := by
      refine List.rel_filter (fun e n h => ?_) h
      simpa using h.ne_empty_iff.symm
    rw [(ofItems_iff hnormal).2, isMarked_seq_iff, exists_eq_singleton_iff_of_forall₂ hpresent]

theorem foretells_ofQuantified {operand inner n : Expr} {mark : String}
    (h : Foretells operand inner) (hn : ofQuantified operand mark inner = .ok n) :
    Foretells (.quant operand mark) n := by
  obtain ⟨-, ⟨hempty, rfl⟩ | ⟨hempty, rfl⟩⟩ := ofQuantified_cases hn
  · have hvoid : operand.isVoid = true := h.empty_iff.1 hempty
    constructor <;> simp [isVoid, isMarked, isQuant, empty, hvoid]
  · have hvoid : operand.isVoid = false := h.ne_empty_iff.1 hempty
    constructor <;> simp [isVoid, isMarked, isQuant, empty, hvoid]

/-- A normal form is nothing at all, or quantified, when the expression says so. -/
theorem foretells_normalize {e n : Expr} (h : e.normalize = .ok n) : Foretells e n := by
  induction e using induct generalizing n with
  | alt as ih =>
    obtain ⟨ns, hns, rfl⟩ := map_eq_ok_iff.1 h
    have hpairs := normalizeAll_eq_ok_iff.1 hns
    exact foretells_ofAlternatives (forall_of_forall₂ hpairs fun _ _ _ => isNormal_of_normalize)
      (forall₂_imp_of_mem hpairs fun a ha n hn => ih a ha hn)
  | seq es ih =>
    obtain ⟨ns, hns, rfl⟩ := map_eq_ok_iff.1 h
    have hpairs := normalizeAll_eq_ok_iff.1 hns
    exact foretells_ofItems (forall_of_forall₂ hpairs fun _ _ _ => isNormal_of_normalize)
      (forall₂_imp_of_mem hpairs fun e he n hn => ih e he hn)
  | quant operand mark ih =>
    obtain ⟨inner, hinner, hn⟩ := bind_eq_ok_iff.1 h
    exact foretells_ofQuantified (ih hinner) hn
  | ref name =>
    rw [← Except.ok.inj h]
    constructor <;> simp [isVoid, isMarked, isQuant, empty]
  | term text =>
    rw [← Except.ok.inj h]
    constructor <;> simp [isVoid, isMarked, isQuant, empty]

end Foretold

section First

/-- The mark that was refused, with its operand as it is written. -/
def refused? {α : Type} : Except DoubleQuantification α → Option Expr
  | .ok _ => none
  | .error marks => some marks.written

theorem find?_isDouble_quant (operand : Expr) (mark : String)
    (h : operand.postorder.find? isDouble = refused? operand.normalize) :
    (postorder (.quant operand mark)).find? isDouble =
      refused? (normalize (.quant operand mark)) := by
  rw [postorder, List.find?_append, h, normalize]
  cases hinner : operand.normalize with
  | error marks => rfl
  | ok inner =>
    have hquant : inner.isQuant = operand.isMarked :=
      Bool.eq_iff_iff.2 (foretells_normalize hinner).isQuant_iff
    simp only [refused?, Option.none_or, Except.bind, ofQuantified, hquant]
    by_cases hmarked : operand.isMarked = true
    · simp [isDouble, hmarked]
    · by_cases hempty : inner = empty <;> simp [isDouble, hmarked, hempty]

/-- Normalization refuses the first mark, in postorder, over an expression that is marked. -/
theorem find?_isDouble_postorder (e : Expr) :
    e.postorder.find? isDouble = refused? e.normalize := by
  have hall : ∀ es : List Expr, (∀ e ∈ es, e.postorder.find? isDouble = refused? e.normalize) →
      (postorderAll es).find? isDouble = refused? (normalizeAll es) := by
    intro es ih
    induction es with
    | nil => rfl
    | cons e es ihes =>
      simp only [List.mem_cons, forall_eq_or_imp] at ih
      rw [postorderAll, List.find?_append, ih.1, ihes ih.2, normalizeAll]
      cases e.normalize with
      | error marks => rfl
      | ok n => cases normalizeAll es <;> rfl
  induction e using induct with
  | alt as ih =>
    rw [postorder, List.find?_append, hall as ih, normalize]
    cases normalizeAll as <;> rfl
  | seq es ih =>
    rw [postorder, List.find?_append, hall es ih, normalize]
    cases normalizeAll es <;> rfl
  | quant operand mark ih => exact find?_isDouble_quant operand mark ih
  | ref name => rfl
  | term text => rfl

theorem exists_of_normalizeAll_eq_error {es : List Expr} {marks : DoubleQuantification}
    (h : normalizeAll es = .error marks) : ∃ e ∈ es, e.normalize = .error marks := by
  induction es with
  | nil => simp [normalizeAll] at h
  | cons e es ih =>
    rcases bind_eq_error_iff.1 h with he | ⟨n, -, hes⟩
    · exact ⟨e, List.mem_cons_self, he⟩
    · obtain ⟨e, he, herror⟩ := ih (map_eq_error_iff.1 hes)
      exact ⟨e, List.mem_cons_of_mem _ he, herror⟩

/-- A refusal shows the mark over its operand as it is written and over the normal form of the
operand. -/
theorem exists_of_normalize_eq_error {e : Expr} {marks : DoubleQuantification}
    (h : e.normalize = .error marks) : ∃ operand mark inner,
      operand.normalize = .ok inner ∧ marks = ⟨.quant operand mark, .quant inner mark⟩ := by
  induction e using induct with
  | alt as ih =>
    obtain ⟨a, ha, herror⟩ := exists_of_normalizeAll_eq_error (map_eq_error_iff.1 h)
    exact ih a ha herror
  | seq es ih =>
    obtain ⟨e, he, herror⟩ := exists_of_normalizeAll_eq_error (map_eq_error_iff.1 h)
    exact ih e he herror
  | quant operand mark ih =>
    rcases bind_eq_error_iff.1 h with herror | ⟨inner, hinner, hrefused⟩
    · exact ih herror
    · refine ⟨operand, mark, inner, hinner, ?_⟩
      unfold ofQuantified at hrefused
      split at hrefused
      · exact (Except.error.inj hrefused).symm
      · split at hrefused <;> simp at hrefused
  | ref name => simp [normalize] at h
  | term text => simp [normalize] at h

theorem mem_postorderAll_iff {s : Expr} {es : List Expr} :
    s ∈ postorderAll es ↔ ∃ e ∈ es, s ∈ e.postorder := by
  induction es with
  | nil => simp [postorderAll]
  | cons e es ih => simp [postorderAll, ih]

theorem mem_postorder_iff {s e : Expr} : s ∈ e.postorder ↔ s = e ∨ s.Inside e := by
  induction e using induct with
  | alt as ih =>
    rw [postorder, List.mem_append, mem_postorderAll_iff, inside_iff, List.mem_singleton, or_comm]
    exact or_congr_right (exists_congr fun a => and_congr_right fun ha => ih a ha)
  | seq es ih =>
    rw [postorder, List.mem_append, mem_postorderAll_iff, inside_iff, List.mem_singleton, or_comm]
    exact or_congr_right (exists_congr fun e => and_congr_right fun he => ih e he)
  | quant operand mark ih =>
    rw [postorder, List.mem_append, inside_iff, List.mem_singleton, or_comm]
    simp [members, ih]
  | ref name =>
    rw [postorder, inside_iff]
    simp [members]
  | term text =>
    rw [postorder, inside_iff]
    simp [members]

/-- A double quantification is refused exactly if a mark stands over an expression that is marked as
it is written. The first such mark in postorder is the one reported, as it is written and with the
normal form of its operand. -/
theorem normalize_refuses_first_double (e : Expr) :
    ((∃ marks, e.normalize = .error marks) ↔ ∃ operand mark,
      (.quant operand mark = e ∨ Inside (.quant operand mark) e) ∧ operand.isMarked = true) ∧
    ∀ marks, e.normalize = .error marks → ∃ operand mark inner,
      e.postorder.find? isDouble = some (.quant operand mark) ∧
      operand.normalize = .ok inner ∧ marks = ⟨.quant operand mark, .quant inner mark⟩ := by
  have hfirst := find?_isDouble_postorder e
  refine ⟨⟨?_, ?_⟩, fun marks h => ?_⟩
  · rintro ⟨marks, h⟩
    obtain ⟨operand, mark, inner, -, hmarks⟩ := exists_of_normalize_eq_error h
    rw [h, refused?, hmarks] at hfirst
    have hdouble : isDouble (.quant operand mark) = true := List.find?_some hfirst
    exact ⟨operand, mark, mem_postorder_iff.1 (List.mem_of_find?_eq_some hfirst), hdouble⟩
  · rintro ⟨operand, mark, hmem, hmarked⟩
    cases h : e.normalize with
    | error marks => exact ⟨marks, rfl⟩
    | ok n =>
      rw [h, refused?, List.find?_eq_none] at hfirst
      exact absurd hmarked (hfirst _ (mem_postorder_iff.2 hmem))
  · obtain ⟨operand, mark, inner, hinner, hmarks⟩ := exists_of_normalize_eq_error h
    refine ⟨operand, mark, inner, ?_, hinner, hmarks⟩
    rw [hfirst, h, refused?, hmarks]

/-- In `(('a'* | ))+ (('b' ()))?+` both outer marks are over marked operands, and the one over the
choice comes first. A void alternative makes the choice optional, which `'a'*` is already. -/
theorem normalize_refuses_first_double_optional :
    let choice := Expr.alt [.quant (.term "'a'") "*", .seq []]
    let again := Expr.quant (.quant (.seq [.term "'b'", .seq []]) "?") "+"
    let e := Expr.seq [.quant choice "+", again]
    let marks : DoubleQuantification :=
      ⟨.quant choice "+", .quant (.quant (.term "'a'") "*") "+"⟩
    e.normalize = .error marks ∧
      (∃ operand mark, (.quant operand mark = e ∨ Inside (.quant operand mark) e) ∧
        operand.isMarked = true) ∧
      ∃ operand mark inner, e.postorder.find? isDouble = some (.quant operand mark) ∧
        operand.normalize = .ok inner ∧ marks = ⟨.quant operand mark, .quant inner mark⟩ := by
  intro choice again e marks
  have herror : e.normalize = .error marks := by rfl
  obtain ⟨hrefused, hreported⟩ := normalize_refuses_first_double e
  exact ⟨herror, hrefused.1 ⟨marks, herror⟩, hreported marks herror⟩

end First

end GrammarOutline.Expr
