import GrammarOutline.Expr.Normal
import Mathlib.Data.List.Forall2
import Mathlib.Logic.Relation
import Mathlib.Tactic.Common

/-!
# Expressions in normal form

A normal form has no choice or sequence directly inside one of its kind, no choice or sequence of
one, no mark over a mark, and nothing at all only as the whole. Bringing an expression to normal
form gives such an expression, and leaves such an expression alone. A property that choices and
sequences share with their members is kept on the way to the normal form.
-/
namespace GrammarOutline

section Outcomes

variable {ε α β : Type}

theorem bind_eq_ok_iff {x : Except ε α} {f : α → Except ε β} {b : β} :
    x.bind f = .ok b ↔ ∃ a, x = .ok a ∧ f a = .ok b := by
  cases x <;> simp [Except.bind]

theorem map_eq_ok_iff {x : Except ε α} {f : α → β} {b : β} :
    x.map f = .ok b ↔ ∃ a, x = .ok a ∧ f a = b := by
  cases x <;> simp [Except.map]

theorem bind_eq_error_iff {x : Except ε α} {f : α → Except ε β} {c : ε} :
    x.bind f = .error c ↔ x = .error c ∨ ∃ a, x = .ok a ∧ f a = .error c := by
  cases x <;> simp [Except.bind]

theorem map_eq_error_iff {x : Except ε α} {f : α → β} {c : ε} :
    x.map f = .error c ↔ x = .error c := by
  cases x <;> simp [Except.map]

end Outcomes

section Pairs

variable {α β : Type} {r q : α → β → Prop} {es : List α} {ns : List β}

theorem exists_forall₂ (h : ∀ e ∈ es, ∃ n, r e n) : ∃ ns, List.Forall₂ r es ns := by
  induction es with
  | nil => exact ⟨[], .nil⟩
  | cons e es ih =>
    simp only [List.mem_cons, forall_eq_or_imp] at h
    obtain ⟨n, hn⟩ := h.1
    obtain ⟨ns, hns⟩ := ih h.2
    exact ⟨n :: ns, .cons hn hns⟩

theorem exists_mem_of_forall₂ (h : List.Forall₂ r es ns) {n : β} (hn : n ∈ ns) :
    ∃ e ∈ es, r e n := by
  induction h with
  | nil => exact absurd hn List.not_mem_nil
  | cons hr _ ih =>
    rcases List.mem_cons.1 hn with rfl | hn
    · exact ⟨_, List.mem_cons_self, hr⟩
    · obtain ⟨e, he, hr⟩ := ih hn
      exact ⟨e, List.mem_cons_of_mem _ he, hr⟩

theorem forall_of_forall₂ {p : β → Prop} (h : List.Forall₂ r es ns)
    (hp : ∀ e ∈ es, ∀ n, r e n → p n) : ∀ n ∈ ns, p n := by
  intro n hn
  obtain ⟨e, he, hr⟩ := exists_mem_of_forall₂ h hn
  exact hp e he n hr

/-- A relation between two lists may be weakened with the members of the first at hand. -/
theorem forall₂_imp_of_mem (h : List.Forall₂ r es ns) (himp : ∀ e ∈ es, ∀ n, r e n → q e n) :
    List.Forall₂ q es ns := by
  induction h with
  | nil => exact .nil
  | cons hr _ ih =>
    simp only [List.mem_cons, forall_eq_or_imp] at himp
    exact .cons (himp.1 _ hr) (ih himp.2)

end Pairs

namespace Expr

/-- The expressions that `normalize` leaves alone. -/
inductive IsNormal : Expr → Prop where
  | alt {as : List Expr} (length_ge : 2 ≤ as.length) (normal : ∀ a ∈ as, a.IsNormal)
      (plain : ∀ a ∈ as, a.isAlt = false ∧ a ≠ empty) : IsNormal (.alt as)
  | seq {es : List Expr} (length_ne : es.length ≠ 1) (normal : ∀ e ∈ es, e.IsNormal)
      (plain : ∀ e ∈ es, e.isSeq = false) : IsNormal (.seq es)
  | quant {operand : Expr} {mark : String} (normal : operand.IsNormal)
      (plain : operand.isQuant = false ∧ operand ≠ empty) : IsNormal (.quant operand mark)
  | ref (name : String) : IsNormal (.ref name)
  | term (text : String) : IsNormal (.term text)

theorem IsNormal.operand {operand : Expr} {mark : String} (h : IsNormal (.quant operand mark)) :
    operand.IsNormal ∧ operand.isQuant = false ∧ operand ≠ empty := by
  cases h with
  | quant normal plain => exact ⟨normal, plain⟩

theorem isNormal_empty : empty.IsNormal := .seq (by simp) (by simp) (by simp)

theorem ne_empty_of_isSeq {e : Expr} (h : e.isSeq = false) : e ≠ empty := by
  rintro rfl
  simp [empty, isSeq] at h

theorem normalizeAll_eq_ok_iff {es ns : List Expr} :
    normalizeAll es = .ok ns ↔ List.Forall₂ (fun e n => normalize e = .ok n) es ns := by
  induction es generalizing ns with
  | nil => simp [normalizeAll, eq_comm]
  | cons e es ih =>
    simp only [normalizeAll, bind_eq_ok_iff, map_eq_ok_iff, ih, List.forall₂_cons_left_iff]
    constructor
    · rintro ⟨n, hn, ns, hns, rfl⟩
      exact ⟨n, ns, hn, hns, rfl⟩
    · rintro ⟨n, ns, hn, hns, rfl⟩
      exact ⟨n, hn, ns, hns, rfl⟩

section Choice

theorem isNormal_of_mem_alternatives {e a : Expr} (he : e.IsNormal) (ha : a ∈ e.alternatives) :
    a.IsNormal ∧ a.isAlt = false := by
  cases he with
  | alt _ hnormal hplain => exact ⟨hnormal a ha, (hplain a ha).1⟩
  | seq hlength hnormal hplain =>
    rw [List.mem_singleton.1 ha]
    exact ⟨.seq hlength hnormal hplain, rfl⟩
  | quant hnormal hplain =>
    rw [List.mem_singleton.1 ha]
    exact ⟨.quant hnormal hplain, rfl⟩
  | ref name =>
    rw [List.mem_singleton.1 ha]
    exact ⟨.ref name, rfl⟩
  | term text =>
    rw [List.mem_singleton.1 ha]
    exact ⟨.term text, rfl⟩

theorem isNormal_choose {es : List Expr} (hnormal : ∀ e ∈ es, e.IsNormal)
    (hplain : ∀ e ∈ es, e.isAlt = false ∧ e ≠ empty) : (choose es).IsNormal := by
  match es with
  | [] => exact isNormal_empty
  | [e] => exact hnormal e List.mem_cons_self
  | a :: b :: es => exact .alt (by simp) hnormal hplain

theorem isNormal_optional {e : Expr} (he : e.IsNormal) : e.optional.IsNormal := by
  by_cases hempty : e = empty
  · rw [hempty]
    exact isNormal_empty
  cases he with
  | quant hnormal hplain =>
    simp only [optional]
    split <;> exact .quant hnormal hplain
  | alt hlength hnormal hplain =>
    exact .quant (.alt hlength hnormal hplain) ⟨rfl, by simp [empty]⟩
  | seq hlength hnormal hplain =>
    rw [optional, if_neg hempty]
    · exact .quant (.seq hlength hnormal hplain) ⟨rfl, hempty⟩
    · simp
  | ref name => exact .quant (.ref name) ⟨rfl, by simp [empty]⟩
  | term text => exact .quant (.term text) ⟨rfl, by simp [empty]⟩

theorem ne_empty_of_mem_alternatives {e a : Expr} (he : e.IsNormal) (hne : e ≠ empty)
    (ha : a ∈ e.alternatives) : a ≠ empty := by
  cases he with
  | alt _ _ hplain => exact (hplain a ha).2
  | _ =>
    rw [List.mem_singleton.1 ha]
    exact hne

/-- Normal forms of which none is nothing at all are only spliced. -/
theorem ofAlternatives_of_not_mem {ns : List Expr} (hnormal : ∀ n ∈ ns, n.IsNormal)
    (hempty : empty ∉ ns) : ofAlternatives ns = choose (ns.flatMap alternatives) := by
  have hpresent : (ns.flatMap alternatives).filter (· ≠ empty) = ns.flatMap alternatives := by
    refine List.filter_eq_self.2 fun a ha => ?_
    obtain ⟨n, hn, ha⟩ := List.mem_flatMap.1 ha
    have hne : n ≠ empty := fun e => hempty (e ▸ hn)
    simpa using ne_empty_of_mem_alternatives (hnormal n hn) hne ha
  simp only [ofAlternatives, hpresent, if_neg (Nat.lt_irrefl _)]

/-- Normal forms of which one is nothing at all make the others optional. -/
theorem ofAlternatives_of_mem {ns : List Expr} (hempty : empty ∈ ns) :
    ofAlternatives ns = optional (choose ((ns.flatMap alternatives).filter (· ≠ empty))) := by
  have hspliced : empty ∈ ns.flatMap alternatives :=
    List.mem_flatMap.2 ⟨empty, hempty, List.mem_singleton.2 rfl⟩
  have hless : ((ns.flatMap alternatives).filter (· ≠ empty)).length <
      (ns.flatMap alternatives).length := by
    refine List.length_filter_lt_length_iff_exists.2 ⟨empty, hspliced, by simp⟩
  simp only [ofAlternatives, if_pos hless]

theorem isNormal_of_mem_flatMap_alternatives {ns : List Expr} (h : ∀ n ∈ ns, n.IsNormal) :
    ∀ a ∈ ns.flatMap alternatives, a.IsNormal ∧ a.isAlt = false := by
  intro a ha
  obtain ⟨n, hn, ha⟩ := List.mem_flatMap.1 ha
  exact isNormal_of_mem_alternatives (h n hn) ha

theorem isNormal_ofAlternatives {ns : List Expr} (h : ∀ n ∈ ns, n.IsNormal) :
    (ofAlternatives ns).IsNormal := by
  have hspliced := isNormal_of_mem_flatMap_alternatives h
  have hchoose : (choose ((ns.flatMap alternatives).filter (· ≠ empty))).IsNormal := by
    apply isNormal_choose
    · exact fun a ha => (hspliced a (List.mem_of_mem_filter ha)).1
    · intro a ha
      have hne := List.of_mem_filter ha
      exact ⟨(hspliced a (List.mem_of_mem_filter ha)).2, by simpa using hne⟩
  simp only [ofAlternatives]
  split
  · exact isNormal_optional hchoose
  · exact hchoose

end Choice

section Sequence

theorem isNormal_of_mem_items {e i : Expr} (he : e.IsNormal) (hi : i ∈ e.items) :
    i.IsNormal ∧ i.isSeq = false := by
  cases he with
  | seq _ hnormal hplain => exact ⟨hnormal i hi, hplain i hi⟩
  | alt hlength hnormal hplain =>
    rw [List.mem_singleton.1 hi]
    exact ⟨.alt hlength hnormal hplain, rfl⟩
  | quant hnormal hplain =>
    rw [List.mem_singleton.1 hi]
    exact ⟨.quant hnormal hplain, rfl⟩
  | ref name =>
    rw [List.mem_singleton.1 hi]
    exact ⟨.ref name, rfl⟩
  | term text =>
    rw [List.mem_singleton.1 hi]
    exact ⟨.term text, rfl⟩

theorem isNormal_ofItems {ns : List Expr} (h : ∀ n ∈ ns, n.IsNormal) : (ofItems ns).IsNormal := by
  have hspliced : ∀ i ∈ ns.flatMap items, i.IsNormal ∧ i.isSeq = false := by
    intro i hi
    obtain ⟨n, hn, hi⟩ := List.mem_flatMap.1 hi
    exact isNormal_of_mem_items (h n hn) hi
  obtain ⟨e, he, hsame⟩ | ⟨hlength, hseq⟩ := ofItems_cases ns
  · rw [hsame]
    exact (hspliced e (he ▸ List.mem_cons_self)).1
  · rw [hseq]
    exact .seq hlength (fun i hi => (hspliced i hi).1) fun i hi => (hspliced i hi).2

end Sequence

theorem isNormal_ofQuantified {operand inner n : Expr} {mark : String} (hinner : inner.IsNormal)
    (h : ofQuantified operand mark inner = .ok n) : n.IsNormal := by
  obtain ⟨hquant, ⟨-, rfl⟩ | ⟨hempty, rfl⟩⟩ := ofQuantified_cases h
  · exact isNormal_empty
  · exact .quant hinner ⟨hquant, hempty⟩

theorem isNormal_of_normalize {e n : Expr} (h : e.normalize = .ok n) : n.IsNormal := by
  induction e using induct generalizing n with
  | alt as ih =>
    obtain ⟨ns, hns, rfl⟩ := map_eq_ok_iff.1 h
    exact isNormal_ofAlternatives
      (forall_of_forall₂ (normalizeAll_eq_ok_iff.1 hns) fun a ha n hn => ih a ha hn)
  | seq es ih =>
    obtain ⟨ns, hns, rfl⟩ := map_eq_ok_iff.1 h
    exact isNormal_ofItems
      (forall_of_forall₂ (normalizeAll_eq_ok_iff.1 hns) fun e he n hn => ih e he hn)
  | quant operand mark ih =>
    obtain ⟨inner, hinner, hn⟩ := bind_eq_ok_iff.1 h
    exact isNormal_ofQuantified (ih hinner) hn
  | ref name => rw [← Except.ok.inj h]; exact .ref name
  | term text => rw [← Except.ok.inj h]; exact .term text

theorem flatMap_alternatives_eq {as : List Expr} (h : ∀ a ∈ as, a.isAlt = false) :
    as.flatMap alternatives = as := by
  induction as with
  | nil => rfl
  | cons a as ih =>
    simp only [List.mem_cons, forall_eq_or_imp] at h
    rw [List.flatMap_cons, ih h.2]
    cases a <;> simp_all [alternatives, isAlt]

theorem flatMap_items_eq {es : List Expr} (h : ∀ e ∈ es, e.isSeq = false) :
    es.flatMap items = es := by
  induction es with
  | nil => rfl
  | cons e es ih =>
    simp only [List.mem_cons, forall_eq_or_imp] at h
    rw [List.flatMap_cons, ih h.2]
    cases e <;> simp_all [items, isSeq]

theorem ofAlternatives_eq {as : List Expr} (hlength : 2 ≤ as.length)
    (hplain : ∀ a ∈ as, a.isAlt = false ∧ a ≠ empty) : ofAlternatives as = .alt as := by
  have hpresent : as.filter (· ≠ empty) = as :=
    List.filter_eq_self.2 fun a ha => by simpa using (hplain a ha).2
  simp only [ofAlternatives, flatMap_alternatives_eq fun a ha => (hplain a ha).1, hpresent]
  rw [if_neg (Nat.lt_irrefl _)]
  match as with
  | a :: b :: as => rfl

theorem ofItems_eq {es : List Expr} (hlength : es.length ≠ 1)
    (hplain : ∀ e ∈ es, e.isSeq = false) : ofItems es = .seq es := by
  have hitems : es.flatMap items = es := flatMap_items_eq hplain
  obtain ⟨e, he, -⟩ | ⟨-, hseq⟩ := ofItems_cases es
  · rw [← hitems, he] at hlength
    exact absurd rfl hlength
  · rw [hseq, hitems]

theorem ofQuantified_eq {operand inner : Expr} {mark : String}
    (hplain : inner.isQuant = false ∧ inner ≠ empty) :
    ofQuantified operand mark inner = .ok (.quant inner mark) := by
  simp [ofQuantified, hplain]

theorem normalizeAll_eq_of_forall {es : List Expr} (h : ∀ e ∈ es, e.normalize = .ok e) :
    normalizeAll es = .ok es := by
  rw [normalizeAll_eq_ok_iff, List.forall₂_same]
  exact h

theorem IsNormal.normalize_eq {e : Expr} (h : e.IsNormal) : e.normalize = .ok e := by
  induction h with
  | alt hlength _ hplain ih =>
    rw [normalize, normalizeAll_eq_of_forall ih, Except.map, ofAlternatives_eq hlength hplain]
  | seq hlength _ hplain ih =>
    rw [normalize, normalizeAll_eq_of_forall ih, Except.map, ofItems_eq hlength hplain]
  | quant _ hplain ih => rw [normalize, ih, Except.bind, ofQuantified_eq hplain]
  | ref => rfl
  | term => rfl

section Wrapping

/-- A normal form that stands alone in a sequence is the whole sequence. -/
theorem IsNormal.ofItems_singleton {e : Expr} (h : e.IsNormal) : ofItems [e] = e := by
  cases h with
  | @seq es length_ne normal plain =>
    have hitems : [Expr.seq es].flatMap items = es := List.append_nil es
    obtain ⟨e, he, -⟩ | ⟨-, hseq⟩ := ofItems_cases [.seq es]
    · rw [← hitems, he] at length_ne
      exact absurd rfl length_ne
    · rw [hseq, hitems]
  | _ => rfl

theorem IsNormal.ofAlternatives_singleton {e : Expr} (h : e.IsNormal) : ofAlternatives [e] = e := by
  cases h with
  | @alt as length_ge normal plain =>
    have hsame : ofAlternatives [.alt as] = ofAlternatives as := by
      simp only [ofAlternatives, List.flatMap_cons, List.flatMap_nil, List.append_nil, alternatives,
        flatMap_alternatives_eq fun a ha => (plain a ha).1]
    rw [hsame, ofAlternatives_eq length_ge plain]
  | @seq es length_ne normal plain =>
    by_cases hempty : Expr.seq es = empty
    · rw [hempty]
      rfl
    · simp [ofAlternatives, alternatives, choose, hempty]
  | quant normal plain => simp [ofAlternatives, alternatives, choose, empty]
  | ref name => simp [ofAlternatives, alternatives, choose, empty]
  | term text => simp [ofAlternatives, alternatives, choose, empty]

/-- Two expressions have the same normal form, or neither has one. -/
def SameNormal (t e : Expr) : Prop := ∀ n, t.normalize = .ok n ↔ e.normalize = .ok n

variable {t e : Expr} {ts es : List Expr}

theorem SameNormal.refl (e : Expr) : SameNormal e e := fun _ => Iff.rfl

theorem SameNormal.trans {u : Expr} (h : SameNormal t u) (h' : SameNormal u e) : SameNormal t e :=
  fun n => (h n).trans (h' n)

theorem normalizeAll_iff_of_sameNormal (h : List.Forall₂ SameNormal ts es) {ns : List Expr} :
    normalizeAll ts = .ok ns ↔ normalizeAll es = .ok ns := by
  induction h generalizing ns with
  | nil => rfl
  | cons hsame _ ih => simp only [normalizeAll, bind_eq_ok_iff, map_eq_ok_iff, hsame _, ih]

theorem SameNormal.alt (h : List.Forall₂ SameNormal ts es) : SameNormal (.alt ts) (.alt es) := by
  intro n
  simp only [normalize, map_eq_ok_iff, normalizeAll_iff_of_sameNormal h]

theorem SameNormal.seq (h : List.Forall₂ SameNormal ts es) : SameNormal (.seq ts) (.seq es) := by
  intro n
  simp only [normalize, map_eq_ok_iff, normalizeAll_iff_of_sameNormal h]

theorem ofQuantified_eq_ok_iff {operand operand' inner n : Expr} {mark : String} :
    ofQuantified operand mark inner = .ok n ↔ ofQuantified operand' mark inner = .ok n := by
  unfold ofQuantified
  split <;> simp

theorem SameNormal.quant (h : SameNormal t e) (mark : String) :
    SameNormal (.quant t mark) (.quant e mark) := by
  intro n
  simp only [normalize, bind_eq_ok_iff, h _]
  exact exists_congr fun inner => and_congr_right fun _ => ofQuantified_eq_ok_iff

theorem sameNormal_seq_singleton (e : Expr) : SameNormal (.seq [e]) e := by
  intro n
  simp only [normalize, normalizeAll, map_eq_ok_iff, bind_eq_ok_iff]
  constructor
  · rintro ⟨ns, ⟨m, hm, rest, hrest, rfl⟩, rfl⟩
    rw [← Except.ok.inj hrest, (isNormal_of_normalize hm).ofItems_singleton, hm]
  · intro hn
    exact ⟨[n], ⟨n, hn, [], rfl, rfl⟩, (isNormal_of_normalize hn).ofItems_singleton⟩

theorem sameNormal_alt_singleton (e : Expr) : SameNormal (.alt [e]) e := by
  intro n
  simp only [normalize, normalizeAll, map_eq_ok_iff, bind_eq_ok_iff]
  constructor
  · rintro ⟨ns, ⟨m, hm, rest, hrest, rfl⟩, rfl⟩
    rw [← Except.ok.inj hrest, (isNormal_of_normalize hm).ofAlternatives_singleton, hm]
  · intro hn
    exact ⟨[n], ⟨n, hn, [], rfl, rfl⟩, (isNormal_of_normalize hn).ofAlternatives_singleton⟩

theorem sameNormal_alt_empty : SameNormal (.alt [.seq []]) (.alt []) := fun _ => Iff.rfl

end Wrapping

section Hereditary

/-- A property that choices and sequences share with all their members, and that an expression does
not lose when it becomes optional. -/
structure Hereditary (p : Expr → Prop) : Prop where
  alt_iff : ∀ as, p (.alt as) ↔ ∀ a ∈ as, p a
  seq_iff : ∀ es, p (.seq es) ↔ ∀ e ∈ es, p e
  optional : ∀ e, p e → p e.optional

namespace Hereditary

variable {p : Expr → Prop} (h : Hereditary p)
include h

theorem empty : p empty := (h.seq_iff []).2 (by simp)

theorem of_mem_alternatives {e a : Expr} (he : p e) (ha : a ∈ e.alternatives) : p a := by
  cases e with
  | alt as => exact (h.alt_iff as).1 he a ha
  | _ => exact List.mem_singleton.1 ha ▸ he

theorem of_mem_items {e i : Expr} (he : p e) (hi : i ∈ e.items) : p i := by
  cases e with
  | seq es => exact (h.seq_iff es).1 he i hi
  | _ => exact List.mem_singleton.1 hi ▸ he

theorem choose {es : List Expr} (hes : ∀ e ∈ es, p e) : p (choose es) := by
  match es with
  | [] => exact h.empty
  | [e] => exact hes e List.mem_cons_self
  | a :: b :: es => exact (h.alt_iff (a :: b :: es)).2 hes

theorem ofAlternatives {es : List Expr} (hes : ∀ e ∈ es, p e) : p (ofAlternatives es) := by
  have hpresent : ∀ a ∈ (es.flatMap alternatives).filter (· ≠ Expr.empty), p a := by
    intro a ha
    obtain ⟨e, he, ha⟩ := List.mem_flatMap.1 (List.mem_of_mem_filter ha)
    exact h.of_mem_alternatives (hes e he) ha
  simp only [Expr.ofAlternatives]
  split
  · exact h.optional _ (h.choose hpresent)
  · exact h.choose hpresent

theorem ofItems {es : List Expr} (hes : ∀ e ∈ es, p e) : p (ofItems es) := by
  have hspliced : ∀ i ∈ es.flatMap items, p i := by
    intro i hi
    obtain ⟨e, he, hi⟩ := List.mem_flatMap.1 hi
    exact h.of_mem_items (hes e he) hi
  obtain ⟨e, he, hsame⟩ | ⟨-, hseq⟩ := ofItems_cases es
  · rw [hsame]
    exact hspliced e (he ▸ List.mem_cons_self)
  · rw [hseq]
    exact (h.seq_iff _).2 hspliced

/-- The normal form of an expression has the property, if a mark asks no more than itself. -/
theorem normalize {isMark : String → Prop}
    (quant_iff : ∀ operand mark, p (.quant operand mark) ↔ p operand ∧ isMark mark) {e n : Expr}
    (he : p e) (hn : e.normalize = .ok n) : p n := by
  induction e using induct generalizing n with
  | alt as ih =>
    obtain ⟨ns, hns, rfl⟩ := map_eq_ok_iff.1 hn
    have has := (h.alt_iff as).1 he
    exact h.ofAlternatives
      (forall_of_forall₂ (normalizeAll_eq_ok_iff.1 hns) fun a ha n hn => ih a ha (has a ha) hn)
  | seq es ih =>
    obtain ⟨ns, hns, rfl⟩ := map_eq_ok_iff.1 hn
    have hes := (h.seq_iff es).1 he
    exact h.ofItems
      (forall_of_forall₂ (normalizeAll_eq_ok_iff.1 hns) fun e he n hn => ih e he (hes e he) hn)
  | quant operand mark ih =>
    obtain ⟨inner, hinner, hn⟩ := bind_eq_ok_iff.1 hn
    obtain ⟨hoperand, hmark⟩ := (quant_iff operand mark).1 he
    obtain ⟨-, ⟨-, rfl⟩ | ⟨-, rfl⟩⟩ := ofQuantified_cases hn
    · exact h.empty
    · exact (quant_iff inner mark).2 ⟨ih hoperand hinner, hmark⟩
  | ref name => exact Except.ok.inj hn ▸ he
  | term text => exact Except.ok.inj hn ▸ he

end Hereditary

/-- A property that asks for certain marks, `?` and `*` among them, is kept by optional
expressions. -/
theorem hereditary_of_quant_iff {p : Expr → Prop} {isMark : String → Prop}
    (alt_iff : ∀ as, p (.alt as) ↔ ∀ a ∈ as, p a) (seq_iff : ∀ es, p (.seq es) ↔ ∀ e ∈ es, p e)
    (quant_iff : ∀ operand mark, p (.quant operand mark) ↔ p operand ∧ isMark mark)
    (hoption : isMark "?") (hstar : isMark "*") : Hereditary p where
  alt_iff := alt_iff
  seq_iff := seq_iff
  optional e he := by
    obtain ⟨operand, mark, rfl, hsame⟩ | ⟨rfl, hsame⟩ | ⟨-, -, hsame⟩ := optional_cases e
    · obtain ⟨hoperand, hmark⟩ := (quant_iff operand mark).1 he
      rw [hsame, quant_iff]
      by_cases hplus : mark = "+" <;> simp [hplus, hoperand, hstar, hmark]
    · exact hsame ▸ he
    · rw [hsame]
      exact (quant_iff e "?").2 ⟨he, hoption⟩

end Hereditary

section Members

/-- The expressions that stand directly in an expression. -/
def members : Expr → List Expr
  | .alt as => as
  | .seq es => es
  | .quant operand _ => [operand]
  | .ref _ | .term _ => []

/-- An expression stands in another one, directly or further inside. -/
def Inside : Expr → Expr → Prop := Relation.TransGen fun inner outer => inner ∈ outer.members

theorem inside_iff {s e : Expr} : s.Inside e ↔ ∃ m ∈ e.members, s = m ∨ s.Inside m := by
  rw [Inside, Relation.TransGen.tail'_iff]
  refine exists_congr fun m => ?_
  rw [and_comm, Relation.reflTransGen_iff_eq_or_transGen, eq_comm]

theorem IsNormal.of_mem_members {e m : Expr} (he : e.IsNormal) (hm : m ∈ e.members) :
    m.IsNormal ∧ m ≠ empty := by
  cases he with
  | alt _ normal plain => exact ⟨normal m hm, (plain m hm).2⟩
  | seq _ normal plain => exact ⟨normal m hm, ne_empty_of_isSeq (plain m hm)⟩
  | quant normal plain => exact List.mem_singleton.1 hm ▸ ⟨normal, plain.2⟩
  | ref | term => exact absurd hm List.not_mem_nil

/-- Whatever stands in a normal form is a normal form and not nothing at all. -/
theorem IsNormal.of_inside {e s : Expr} (he : e.IsNormal) (h : s.Inside e) :
    s.IsNormal ∧ s ≠ empty := by
  induction h with
  | single hm => exact he.of_mem_members hm
  | tail _ hm ih => exact ih (he.of_mem_members hm).1

end Members

/-- Normal forms are exactly what `normalize` gives, and exactly what it leaves alone. Bringing an
expression to normal form a second time changes nothing and never fails, and nothing at all is a
normal form only as the whole. -/
theorem normalize_gives_normal_forms (e n : Expr) :
    (e.normalize = .ok n → n.IsNormal ∧ n.normalize = .ok n) ∧
    (n.IsNormal → n.normalize = .ok n ∧ ∀ s, s.Inside n → s ≠ empty) ∧
    e.normalize.bind normalize = e.normalize := by
  refine ⟨fun h => ?_, fun h => ⟨h.normalize_eq, fun s hs => (h.of_inside hs).2⟩, ?_⟩
  · have hnormal := isNormal_of_normalize h
    exact ⟨hnormal, hnormal.normalize_eq⟩
  · cases h : e.normalize with
    | error marks => rfl
    | ok m => exact (isNormal_of_normalize h).normalize_eq

/-- Choices in each other are spliced, and what is optional inside stays so. -/
theorem normalize_gives_normal_forms_spliced :
    let e := Expr.seq [.alt [.seq [], .alt [.ref "a", .alt [.ref "b", .seq []]]],
      .seq [.term "'x'"]]
    let n := Expr.seq [.quant (.alt [.ref "a", .quant (.ref "b") "?"]) "?", .term "'x'"]
    e.normalize = .ok n ∧ n.IsNormal ∧ n.normalize = .ok n ∧ (∀ s, s.Inside n → s ≠ empty) ∧
      e.normalize.bind normalize = e.normalize := by
  intro e n
  have hn : e.normalize = .ok n := by rfl
  obtain ⟨hgives, hleaves, htwice⟩ := normalize_gives_normal_forms e n
  obtain ⟨hnormal, hsame⟩ := hgives hn
  exact ⟨hn, hnormal, hsame, (hleaves hnormal).2, htwice⟩

end Expr

end GrammarOutline
