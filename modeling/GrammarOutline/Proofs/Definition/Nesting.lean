import GrammarOutline.Proofs.Definition.RoundTrip

/-!
# Groups of normal forms

The text of a normal form needs no more groups one inside the other than the tokens of the
expression had, with one exception: where an alternative of a whole body stands for nothing, the
others become optional, and what was not in a group before may come into one.
-/
namespace GrammarOutline

namespace Expr

section Depths

variable {required : Nat} {e : Expr} {es : List Expr} {depth : Nat}

theorem writtenDepth_zero (e : Expr) : writtenDepth 0 e = bareDepth e := rfl

theorem bareDepth_le_writtenDepth (required : Nat) (e : Expr) :
    bareDepth e ≤ writtenDepth required e := by
  simp only [writtenDepth, enclosedDepth]
  split <;> omega

theorem writtenDepth_le_succ (required : Nat) (e : Expr) :
    writtenDepth required e ≤ bareDepth e + 1 := by
  simp only [writtenDepth, enclosedDepth]
  split <;> omega

theorem writtenDepth_le_of_le {required' : Nat} (h : required ≤ required') (e : Expr) :
    writtenDepth required e ≤ writtenDepth required' e := by
  simp only [writtenDepth, enclosedDepth]
  split <;> split <;> omega

theorem writtenDepth_two_quant (operand : Expr) (mark : String) :
    writtenDepth 2 (.quant operand mark) = writtenDepth 3 operand := rfl

theorem bareDepthAll_le_iff :
    bareDepthAll required es ≤ depth ↔ ∀ e ∈ es, writtenDepth required e ≤ depth := by
  induction es with
  | nil => simp [bareDepthAll]
  | cons e es ih => rw [bareDepthAll, Nat.max_le, ih, List.forall_mem_cons, writtenDepth]

/-- The alternatives of an expression, each in its place, need groups no deeper than `depth`. -/
def AlternativesWithin (depth : Nat) (e : Expr) : Prop :=
  ∀ a ∈ e.alternatives, writtenDepth 1 a ≤ depth

/-- The items of an expression, each in its place, need groups no deeper than `depth`. -/
def ItemsWithin (depth : Nat) (e : Expr) : Prop := ∀ i ∈ e.items, writtenDepth 2 i ≤ depth

/-- The alternatives of what stands as an alternative need no deeper groups. -/
theorem alternativesWithin_of_writtenDepth_le (h : writtenDepth 1 e ≤ depth) :
    AlternativesWithin depth e := by
  intro a ha
  cases e with
  | alt as =>
    have hbare : writtenDepth 1 a ≤ bareDepth (.alt as) := writtenDepth_le_of_mem ha
    exact hbare.trans ((bareDepth_le_writtenDepth 1 _).trans h)
  | _ => rwa [List.mem_singleton.1 ha]

theorem itemsWithin_of_writtenDepth_le (h : writtenDepth 2 e ≤ depth) : ItemsWithin depth e := by
  intro i hi
  cases e with
  | seq es =>
    have hbare : writtenDepth 2 i ≤ bareDepth (.seq es) := writtenDepth_le_of_mem hi
    exact hbare.trans ((bareDepth_le_writtenDepth 2 _).trans h)
  | _ => rwa [List.mem_singleton.1 hi]

/-- A sequence stands as an alternative as it is. -/
theorem ItemsWithin.writtenDepth_le (h : ItemsWithin depth e) : writtenDepth 1 e ≤ depth := by
  cases e with
  | seq es =>
    have hall : bareDepthAll 2 es ≤ depth := bareDepthAll_le_iff.2 h
    exact hall
  | _ => exact (writtenDepth_le_of_le (by decide) _).trans (h _ List.mem_cons_self)

theorem bareDepth_choose_le (h : ∀ e ∈ es, writtenDepth 1 e ≤ depth) :
    bareDepth (choose es) ≤ depth := by
  match es with
  | [] => exact Nat.zero_le _
  | [e] => exact (bareDepth_le_writtenDepth 1 e).trans (h e List.mem_cons_self)
  | a :: b :: es =>
    have hall : bareDepthAll 1 (a :: b :: es) ≤ depth := bareDepthAll_le_iff.2 h
    exact hall

/-- An expression that becomes optional may come into a group, and then it is quantified. -/
theorem bareDepth_optional_le (e : Expr) : bareDepth e.optional ≤ bareDepth e ∨
    e.optional.isQuant = true ∧ bareDepth e.optional ≤ bareDepth e + 1 := by
  obtain ⟨operand, mark, rfl, hsame⟩ | ⟨rfl, hsame⟩ | ⟨-, -, hsame⟩ := optional_cases e
  · rw [hsame]
    exact .inl (Nat.le_refl _)
  · rw [hsame]
    exact .inl (Nat.le_refl _)
  · rw [hsame]
    exact .inr ⟨rfl, writtenDepth_le_succ 3 e⟩

theorem ItemsWithin.ofItems (h : ∀ e ∈ es, ItemsWithin depth e) :
    ItemsWithin depth (ofItems es) := by
  have hspliced : ∀ i ∈ es.flatMap items, writtenDepth 2 i ≤ depth := by
    intro i hi
    obtain ⟨e, he, hi⟩ := List.mem_flatMap.1 hi
    exact h e he i hi
  obtain ⟨i, hi, hsame⟩ | ⟨-, hseq⟩ := ofItems_cases es
  · rw [hsame]
    exact itemsWithin_of_writtenDepth_le (hspliced i (hi ▸ List.mem_cons_self))
  · rw [hseq]
    exact hspliced

/-- Joined alternatives need deeper groups than each of them only if one is nothing at all. Then
they are quantified. -/
theorem bareDepth_ofAlternatives_le (hnormal : ∀ e ∈ es, e.IsNormal)
    (h : ∀ e ∈ es, AlternativesWithin depth e) : bareDepth (ofAlternatives es) ≤ depth ∨
      empty ∈ es ∧ (ofAlternatives es).isQuant = true ∧
        bareDepth (ofAlternatives es) ≤ depth + 1 := by
  have hspliced : ∀ a ∈ es.flatMap alternatives, writtenDepth 1 a ≤ depth := by
    intro a ha
    obtain ⟨e, he, ha⟩ := List.mem_flatMap.1 ha
    exact h e he a ha
  by_cases hempty : empty ∈ es
  · rw [ofAlternatives_of_mem hempty]
    have hchoose : bareDepth (choose ((es.flatMap alternatives).filter (· ≠ empty))) ≤ depth :=
      bareDepth_choose_le fun a ha => hspliced a (List.mem_of_mem_filter ha)
    rcases bareDepth_optional_le (choose ((es.flatMap alternatives).filter (· ≠ empty))) with
      hle | ⟨hquant, hle⟩
    · exact .inl (hle.trans hchoose)
    · exact .inr ⟨hempty, hquant, by omega⟩
  · rw [ofAlternatives_of_not_mem hnormal hempty]
    exact .inl (bareDepth_choose_le hspliced)

end Depths

end Expr

namespace Definition

open GrammarOutline.Expr

/-- The normal form of a tree, or those of its parts, need no deeper groups in their places than the
tokens had. What is quantified already cannot stand under a further mark. -/
def Fits (depth : Nat) : Level → Expr → Prop
  | .alternation, e => ∀ a ∈ e.alternatives, ∀ n, a.normalize = .ok n → writtenDepth 1 n ≤ depth
  | .sequence, e => ∀ i ∈ e.items, ∀ n, i.normalize = .ok n → writtenDepth 2 n ≤ depth
  | .quantified, e | .atom, e => ∀ n, e.normalize = .ok n →
      writtenDepth 2 n ≤ depth ∧ (n.isQuant = false → writtenDepth 3 n ≤ depth)

section Levels

variable {depth : Nat} {e n : Expr} {es : List Expr}

theorem Fits.sequence (h : Fits depth .sequence (.seq es)) (hn : (Expr.seq es).normalize = .ok n) :
    writtenDepth 1 n ≤ depth := by
  obtain ⟨ns, hns, rfl⟩ := map_eq_ok_iff.1 hn
  have hitems : ∀ m ∈ ns, ItemsWithin depth m := forall_of_forall₂ (normalizeAll_eq_ok_iff.1 hns)
    fun i hi m hm => itemsWithin_of_writtenDepth_le (h i hi m hm)
  exact (ItemsWithin.ofItems hitems).writtenDepth_le

theorem Fits.alternation (h : Fits depth .alternation (.alt es))
    (hn : (Expr.alt es).normalize = .ok n) : bareDepth n ≤ depth ∨
      (∃ a ∈ es, a.normalize = .ok empty) ∧ n.isQuant = true ∧ bareDepth n ≤ depth + 1 := by
  obtain ⟨ns, hns, rfl⟩ := map_eq_ok_iff.1 hn
  have hns := normalizeAll_eq_ok_iff.1 hns
  have hnormal : ∀ m ∈ ns, m.IsNormal := forall_of_forall₂ hns fun _ _ _ => isNormal_of_normalize
  have halternatives : ∀ m ∈ ns, AlternativesWithin depth m := forall_of_forall₂ hns
    fun a ha m hm => alternativesWithin_of_writtenDepth_le (h a ha m hm)
  rcases bareDepth_ofAlternatives_le hnormal halternatives with hle | ⟨hempty, hmore⟩
  · exact .inl hle
  · exact .inr ⟨exists_mem_of_forall₂ hns hempty, hmore⟩

/-- Another mark needs no other group: the operand was in one, or did not need one. -/
theorem Fits.quant (h : Fits depth .quantified e) (mark : String) :
    Fits depth .quantified (.quant e mark) := by
  intro n hn
  obtain ⟨inner, hinner, hn⟩ := bind_eq_ok_iff.1 hn
  obtain ⟨-, htight⟩ := h inner hinner
  obtain ⟨hquant, hcases⟩ := ofQuantified_cases hn
  have htight : writtenDepth 3 inner ≤ depth := htight hquant
  obtain ⟨rfl, rfl⟩ | ⟨-, rfl⟩ := hcases
  · exact ⟨htight, fun _ => htight⟩
  · exact ⟨htight, fun hfalse => absurd hfalse (by simp [isQuant])⟩

theorem Fits.marks (h : Fits depth .quantified e) (marks : List Token) :
    Fits depth .quantified (marks.foldl (fun e t => .quant e t.text) e) := by
  induction marks generalizing e with
  | nil => exact h
  | cons t marks ih => exact ih (h.quant t.text)

theorem Fits.group (h : Fits depth .alternation (.alt es)) : Fits (depth + 1) .atom (.alt es) := by
  intro n hn
  rcases h.alternation hn with hle | ⟨-, hquant, hle⟩
  · have htight : writtenDepth 3 n ≤ depth + 1 := (writtenDepth_le_succ 3 n).trans (by omega)
    exact ⟨(writtenDepth_le_of_le (by decide) n).trans htight, fun _ => htight⟩
  · cases n with
    | quant operand mark => exact ⟨hle, fun hfalse => absurd hfalse (by simp [isQuant])⟩
    | _ => exact absurd hquant (by simp [isQuant])

theorem fits_atom (hn : e.normalize = .ok e) (hatom : writtenDepth 3 e = 0) :
    Fits depth .atom e := by
  intro n h
  obtain rfl := Except.ok.inj (hn.symm.trans h)
  have htight : writtenDepth 3 e ≤ depth := by omega
  exact ⟨(writtenDepth_le_of_le (by decide) e).trans htight, fun _ => htight⟩

theorem Derives.fits {level : Level} {ts : List Token} (h : Derives depth level ts e) :
    Fits depth level e := by
  have hsequence : ∀ {depth : Nat} {ts : List Token} {e : Expr}, Derives depth .sequence ts e →
      Fits depth .sequence e → ∀ n, e.normalize = .ok n → writtenDepth 1 n ≤ depth := by
    intro depth ts e hderives hfits n hn
    cases hderives with
    | nothing => exact hfits.sequence hn
    | item => exact hfits.sequence hn
  induction h with
  | last sequence ih =>
    intro a ha
    rw [List.mem_singleton.1 ha]
    exact hsequence sequence ih
  | bar sequence _ _ ih ihs => exact List.forall_mem_cons.2 ⟨hsequence sequence ih, ihs⟩
  | nothing => exact fun i hi => absurd hi List.not_mem_nil
  | item _ _ ih ihs => exact List.forall_mem_cons.2 ⟨fun n hn => (ih n hn).1, ihs⟩
  | marked _ _ ih => exact Fits.marks ih _
  | name => exact fits_atom rfl rfl
  | terminal => exact fits_atom rfl rfl
  | group _ inner _ ih =>
    cases inner with
    | last => exact ih.group
    | bar => exact ih.group

/-- The text of a body in normal form needs deeper groups than the body had only if an alternative
of the body stands for nothing. Then it is quantified, and it needs one more. -/
theorem Derives.bareDepth_le {ts : List Token} (h : Derives depth .alternation ts e)
    (hn : e.normalize = .ok n) : bareDepth n ≤ depth ∨
      (∃ a ∈ e.alternatives, a.normalize = .ok empty) ∧ n.isQuant = true ∧
        bareDepth n ≤ depth + 1 := by
  have hfits := h.fits
  cases h with
  | last => exact hfits.alternation hn
  | bar => exact hfits.alternation hn

end Levels

end Definition

end GrammarOutline
