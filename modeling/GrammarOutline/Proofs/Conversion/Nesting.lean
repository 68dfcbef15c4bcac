import GrammarOutline.Proofs.Conversion.Settled
import GrammarOutline.Proofs.Definition.Reprint

/-!
# Groups of settled bodies

The body of a production is a choice between rows of atoms, or such a choice made optional. The
trivial bodies that are put into it add one group to a row and no more, since what is put into a
trivial body must leave it trivial. So the groups of settled bodies do not nest deeper when bodies
are put into bodies again and again.
-/
namespace GrammarOutline

namespace Expr

section Rows

/-- A row of atoms: a sequence of them, one by itself, or none. -/
def IsRow (e : Expr) : Prop := ∀ i ∈ e.items, i.isAtom = true

/-- A choice between rows of atoms, or one row by itself. -/
def IsChoiceOfRows (e : Expr) : Prop := ∀ a ∈ e.alternatives, a.IsRow

/-- The normal form of a production: a choice between rows, which a mark may stand over. -/
inductive IsProductionForm : Expr → Prop where
  | plain {e : Expr} (rows : e.IsChoiceOfRows) : IsProductionForm e
  | marked {operand : Expr} {mark : String} (rows : operand.IsChoiceOfRows) :
      IsProductionForm (.quant operand mark)

variable {e : Expr} {es : List Expr}

theorem not_isRow_alt (as : List Expr) : ¬(Expr.alt as).IsRow :=
  fun h => absurd (h _ List.mem_cons_self) (by simp [isAtom])

theorem not_isRow_quant (operand : Expr) (mark : String) : ¬(Expr.quant operand mark).IsRow :=
  fun h => absurd (h _ List.mem_cons_self) (by simp [isAtom])

theorem isRow_of_isAtom (h : e.isAtom = true) : e.IsRow := by
  intro i hi
  cases e with
  | ref name => rwa [List.mem_singleton.1 hi]
  | term text => rwa [List.mem_singleton.1 hi]
  | alt | seq | quant => exact absurd h (by simp [isAtom])

theorem IsRow.alternatives_eq (h : e.IsRow) : e.alternatives = [e] := by
  cases e with
  | alt as => exact absurd h (not_isRow_alt as)
  | _ => rfl

theorem IsRow.isChoiceOfRows (h : e.IsRow) : e.IsChoiceOfRows := by
  intro a ha
  rw [h.alternatives_eq] at ha
  rwa [List.mem_singleton.1 ha]

theorem isRow_ofItems (h : ∀ e ∈ es, e.isAtom = true) : (ofItems es).IsRow := by
  have hitems : es.flatMap items = es := flatMap_items_eq fun e he => by
    have hatom := h e he
    cases e <;> simp [isAtom, isSeq] at hatom ⊢
  obtain ⟨e, he, hsame⟩ | ⟨-, hseq⟩ := ofItems_cases es
  · rw [hitems] at he
    rw [hsame]
    exact isRow_of_isAtom (h e (he ▸ List.mem_cons_self))
  · rw [hseq, hitems]
    exact h

theorem isChoiceOfRows_choose (h : ∀ e ∈ es, e.IsRow) : (choose es).IsChoiceOfRows := by
  match es with
  | [] => exact IsRow.isChoiceOfRows (e := empty) fun i hi => absurd hi List.not_mem_nil
  | [e] => exact (h e List.mem_cons_self).isChoiceOfRows
  | a :: b :: es => exact h

theorem IsChoiceOfRows.isQuant_eq (h : e.IsChoiceOfRows) : e.isQuant = false := by
  cases e with
  | quant operand mark => exact absurd (h _ List.mem_cons_self) (not_isRow_quant operand mark)
  | _ => rfl

theorem IsChoiceOfRows.optional (h : e.IsChoiceOfRows) : e.optional.IsProductionForm := by
  obtain ⟨operand, mark, rfl, -⟩ | ⟨rfl, hsame⟩ | ⟨-, -, hsame⟩ := optional_cases e
  · exact absurd h.isQuant_eq (by simp [isQuant])
  · exact hsame ▸ .plain h
  · exact hsame ▸ .marked h

theorem isProductionForm_ofAlternatives (h : ∀ e ∈ es, e.IsRow) :
    (ofAlternatives es).IsProductionForm := by
  have hspliced : ∀ a ∈ es.flatMap alternatives, a.IsRow := by
    intro a ha
    obtain ⟨e, he, ha⟩ := List.mem_flatMap.1 ha
    exact (h e he).isChoiceOfRows a ha
  have hchoose : (choose ((es.flatMap alternatives).filter (· ≠ empty))).IsChoiceOfRows :=
    isChoiceOfRows_choose fun a ha => hspliced a (List.mem_of_mem_filter ha)
  simp only [ofAlternatives]
  split
  · exact hchoose.optional
  · exact .plain hchoose

theorem isProductionForm_body (p : Production) : p.body.IsProductionForm := by
  refine isProductionForm_ofAlternatives fun e he => ?_
  obtain ⟨rule, -, rfl⟩ := List.mem_map.1 he
  refine isRow_ofItems fun i hi => ?_
  obtain ⟨element, -, rfl⟩ := List.mem_map.1 hi
  cases element <;> rfl

end Rows

section Trivial

variable {policy : InlinePolicy} {e : Expr} {es : List Expr}

theorem writtenDepth_of_isAtom (h : e.isAtom = true) (required : Nat) (hrequired : required ≤ 3) :
    writtenDepth required e = 0 := by
  cases e with
  | ref | term =>
    have hle : ¬3 < required := by omega
    simp [writtenDepth, enclosedDepth, precedence, bareDepth, hle]
  | alt | seq | quant => exact absurd h (by simp [isAtom])

theorem allAtomOrTrivial_eq_true_iff : allAtomOrTrivial policy es = true ↔
    ∀ e ∈ es, e.isAtom = true ∨ e.isTrivial policy = true := by
  induction es with
  | nil => simp [allAtomOrTrivial]
  | cons e es ih => simp [allAtomOrTrivial, ih]

/-- What may stand in a trivial sequence is in one group at most. -/
theorem writtenDepth_le_of_isTrivial (h : e.isTrivial policy = true) (hplain : e.isSeq = false) :
    writtenDepth 2 e ≤ 1 := by
  cases e with
  | alt as =>
    have hatoms := (Bool.and_eq_true_iff.1 h).2
    have hflat : bareDepthAll 1 as ≤ 0 := bareDepthAll_le_iff.2 fun a ha =>
      (writtenDepth_of_isAtom (List.all_eq_true.1 hatoms a ha) 1 (by decide)).le
    exact (writtenDepth_le_succ 2 (.alt as)).trans (Nat.succ_le_succ hflat)
  | seq es => exact absurd hplain (by simp [isSeq])
  | quant operand mark =>
    rw [writtenDepth_two_quant, writtenDepth_of_isAtom h 3 (Nat.le_refl 3)]
    exact Nat.zero_le 1
  | ref | term => exact absurd h (by simp [isTrivial])

/-- A trivial body may stand in a sequence with one group for each of its items. -/
theorem itemsWithin_of_isTrivial (h : e.isTrivial policy = true) (hnormal : e.IsNormal) :
    ItemsWithin 1 e := by
  cases hnormal with
  | @seq es length_ne normal plain =>
    intro i hi
    have hitem : i.isAtom = true ∨ i.isTrivial policy = true := by
      rw [isTrivial] at h
      split_ifs at h with hatoms
      · exact .inl (List.all_eq_true.1 hatoms i hi)
      · exact allAtomOrTrivial_eq_true_iff.1 h i hi
    rcases hitem with hatom | htrivial
    · exact (writtenDepth_of_isAtom hatom 2 (by decide)).le.trans (Nat.zero_le 1)
    · exact writtenDepth_le_of_isTrivial htrivial (plain i hi)
  | alt => exact itemsWithin_of_writtenDepth_le (writtenDepth_le_of_isTrivial h rfl)
  | quant => exact itemsWithin_of_writtenDepth_le (writtenDepth_le_of_isTrivial h rfl)
  | ref | term => exact absurd h (by simp [isTrivial])

end Trivial

section Pass

variable {bodies : Table Expr} {depth : Nat} {e r : Expr}

theorem ItemsWithin.alternativesWithin (h : ItemsWithin depth e) : AlternativesWithin depth e :=
  alternativesWithin_of_writtenDepth_le h.writtenDepth_le

theorem IsRow.itemsWithin (h : e.IsRow) : ItemsWithin depth e :=
  fun i hi => (writtenDepth_of_isAtom (h i hi) 2 (by decide)).le.trans (Nat.zero_le depth)

theorem AlternativesWithin.bareDepth_le (h : AlternativesWithin depth e) : bareDepth e ≤ depth := by
  cases e with
  | alt as => exact bareDepthAll_le_iff.2 h
  | _ => exact (bareDepth_le_writtenDepth 1 _).trans (h _ List.mem_cons_self)

theorem IsChoiceOfRows.bareDepth_le (h : e.IsChoiceOfRows) : bareDepth e ≤ depth :=
  AlternativesWithin.bareDepth_le fun a ha => (h a ha).itemsWithin.writtenDepth_le

/-- A pass over a row puts the bodies of its names side by side. -/
theorem IsRow.itemsWithin_substitute (hbodies : NormalBodies bodies)
    (hdepth : ∀ n b, bodies.find? n = some b → ItemsWithin depth b) (h : e.IsRow) (he : e.IsNormal)
    (hr : substitute bodies e = .ok r) : ItemsWithin depth r := by
  refine substitute_induct hbodies (motive := fun e r => e.IsRow → ItemsWithin depth r)
    ?alt ?seq ?blocked ?vanished ?replaced ?body (fun _ _ h => h.itemsWithin)
    (fun _ h => h.itemsWithin) he hr h
  case seq =>
    intro es rs _ _ hpairs hrow
    exact ItemsWithin.ofItems (forall_of_forall₂ hpairs fun e he r h =>
      h.2 (isRow_of_isAtom (hrow e he)))
  case body => exact fun name b hb _ => hdepth name b hb
  case alt => exact fun as _ _ _ _ hrow => absurd hrow (not_isRow_alt as)
  case blocked => exact fun operand mark _ _ hrow => absurd hrow (not_isRow_quant operand mark)
  case vanished => exact fun operand mark _ _ hrow => absurd hrow (not_isRow_quant operand mark)
  case replaced =>
    exact fun operand mark _ _ _ _ _ hrow => absurd hrow (not_isRow_quant operand mark)

/-- A pass over a choice joins what it makes of the alternatives. -/
theorem exists_of_substitute_alt (hbodies : NormalBodies bodies) {as : List Expr}
    (he : IsNormal (.alt as)) (hr : substitute bodies (.alt as) = .ok r) :
    ∃ rs, List.Forall₂ (fun a r => substitute bodies a = .ok r) as rs ∧ (∀ r ∈ rs, r.IsNormal) ∧
      r = ofAlternatives rs := by
  obtain ⟨rs, hrs, hr⟩ := bind_eq_ok_iff.1 hr
  have hpairs := substituteAll_eq_ok_iff.1 hrs
  have hnormal : ∀ r ∈ rs, r.IsNormal := by
    refine forall_of_forall₂ hpairs fun a ha r hr => ?_
    obtain ⟨r', hr', hnormal⟩ := exists_substitute hbodies (he.of_mem_members ha).1
    rwa [Except.ok.inj (hr.symm.trans hr')]
  refine ⟨rs, hpairs, hnormal, ?_⟩
  rw [normalize, normalizeAll_eq_of_forall fun r hr => (hnormal r hr).normalize_eq,
    Except.map] at hr
  exact (Except.ok.inj hr).symm

/-- A pass over a choice of rows needs the groups of the bodies, and one more only for what is
quantified then. -/
theorem IsChoiceOfRows.bareDepth_substitute_le (hbodies : NormalBodies bodies)
    (hdepth : ∀ n b, bodies.find? n = some b → ItemsWithin depth b) (h : e.IsChoiceOfRows)
    (he : e.IsNormal) (hr : substitute bodies e = .ok r) :
    bareDepth r ≤ depth ∨ r.isQuant = true ∧ bareDepth r ≤ depth + 1 := by
  by_cases hrow : e.IsRow
  · exact .inl (hrow.itemsWithin_substitute hbodies hdepth he hr).alternativesWithin.bareDepth_le
  cases e with
  | alt as =>
    obtain ⟨rs, hpairs, hnormal, rfl⟩ := exists_of_substitute_alt hbodies he hr
    have hwithin : ∀ r ∈ rs, AlternativesWithin depth r := forall_of_forall₂ hpairs fun a ha r hr =>
      ((h a ha).itemsWithin_substitute hbodies hdepth
        (he.of_mem_members ha).1 hr).alternativesWithin
    exact (bareDepth_ofAlternatives_le hnormal hwithin).imp_right And.right
  | _ => exact absurd (h _ List.mem_cons_self) hrow

/-- A pass over the body of a production needs one group more than the bodies that are put in. -/
theorem IsProductionForm.bareDepth_substitute_le (hbodies : NormalBodies bodies)
    (hdepth : ∀ n b, bodies.find? n = some b → ItemsWithin depth b) (h : e.IsProductionForm)
    (he : e.IsNormal) (hr : substitute bodies e = .ok r) : bareDepth r ≤ depth + 1 := by
  cases h with
  | plain rows =>
    rcases rows.bareDepth_substitute_le hbodies hdepth he hr with hle | ⟨-, hle⟩ <;> omega
  | @marked operand mark rows =>
    obtain ⟨hoperand, -⟩ := he.operand
    obtain ⟨inner, hinner, hr⟩ := bind_eq_ok_iff.1 hr
    by_cases hquant : inner.isQuant = true
    · rw [if_pos hquant, he.normalize_eq] at hr
      obtain rfl := Except.ok.inj hr
      exact (writtenDepth_le_succ 3 operand).trans (Nat.succ_le_succ rows.bareDepth_le)
    · have hdeep : bareDepth inner ≤ depth := by
        rcases rows.bareDepth_substitute_le hbodies hdepth hoperand hinner with hle | ⟨htrue, -⟩
        · exact hle
        · exact absurd htrue hquant
      obtain ⟨inner', hinner', hnormal⟩ := exists_substitute hbodies hoperand
      obtain rfl := Except.ok.inj (hinner.symm.trans hinner')
      rw [if_neg hquant, normalize, hnormal.normalize_eq] at hr
      obtain ⟨-, ⟨-, rfl⟩ | ⟨-, rfl⟩⟩ := ofQuantified_cases hr
      · exact Nat.zero_le _
      · exact (writtenDepth_le_succ 3 inner).trans (Nat.succ_le_succ hdeep)

theorem IsLexical.substitute (hbodies : NormalBodies bodies)
    (hlexical : ∀ n b, bodies.find? n = some b → b.IsLexical) (h : e.IsLexical) (he : e.IsNormal)
    (hr : substitute bodies e = .ok r) : r.IsLexical := by
  refine substitute_induct hbodies (motive := fun e r => e.IsLexical → r.IsLexical) ?alt ?seq
    (fun _ _ _ _ h => h) (fun _ _ _ _ _ => hereditary_isLexical.empty) ?replaced
    (fun name b hb _ => hlexical name b hb) (fun _ _ h => h) (fun _ h => h) he hr h
  case alt =>
    intro as rs _ _ hpairs has
    exact hereditary_isLexical.ofAlternatives (forall_of_forall₂ hpairs fun a ha r h =>
      h.2 ((hereditary_isLexical.alt_iff as).1 has a ha))
  case seq =>
    intro es rs _ _ hpairs hes
    exact hereditary_isLexical.ofItems (forall_of_forall₂ hpairs fun e he r h =>
      h.2 ((hereditary_isLexical.seq_iff es).1 hes e he))
  case replaced =>
    intro operand mark inner _ _ _ hinner h
    obtain ⟨hoperand, hmark⟩ := (isLexical_quant_iff operand mark).1 h
    exact .quant (hinner hoperand) hmark

end Pass

end Expr

namespace Conversion

/-- A settled body consists of lexemes, and its groups nest two deep at most. -/
structure IsShallow (body : Expr) : Prop where
  isLexical : body.IsLexical
  bareDepth_le : body.bareDepth ≤ 2

/-- The body of a production that consists of lexemes is shallow when it is settled. -/
theorem Settled.keeps_body (policy : InlinePolicy) {p : Production} (h : p.expr.IsLexical) :
    Settled.Keeps policy IsShallow p.body := by
  intro table r hnormal htable hr
  have hbody : p.body.IsNormal := Expr.isNormal_of_normalize p.normalize_expr
  constructor
  case isLexical =>
    exact (h.normalize p.normalize_expr).substitute hnormal
      (fun n b hb => (htable n b hb).1.isLexical) hbody hr
  case bareDepth_le =>
    exact (Expr.isProductionForm_body p).bareDepth_substitute_le hnormal
      (fun n b hb => Expr.itemsWithin_of_isTrivial (htable n b hb).2 (hnormal n b hb)) hbody hr

end Conversion

end GrammarOutline
