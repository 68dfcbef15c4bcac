import GrammarOutline.Proofs.Parsing.Wording
import Mathlib.Data.List.Induction

/-!
# What joined failures come down to

Failures that are joined one after the other come down to one at the place of the furthest. It
expects all that is expected there, each text once and in the order in which the texts first come
up. A failure whose text is listed already is left out as a whole, so a commitment is only kept from
failures that bring a text of their own.
-/
namespace GrammarOutline.Parsing

section Lists

variable {α : Type} [BEq α] [LawfulBEq α] {items : List α} {x : α}

theorem eraseDups_concat_of_mem (h : x ∈ items) : (items ++ [x]).eraseDups = items.eraseDups := by
  simp [List.eraseDups_append, List.removeAll, h]

theorem eraseDups_concat_of_not_mem (h : x ∉ items) :
    (items ++ [x]).eraseDups = items.eraseDups ++ [x] := by
  simp [List.eraseDups_append, List.removeAll, List.eraseDups_cons, h]

end Lists

namespace Failure

/-- What failures expect at a position, in order and with repeats. -/
def expectedAt (failures : List Failure) (position : Int) : List String :=
  (failures.filter (·.position = position)).map expected

/-- The failure is what some failures come down to. -/
structure IsJoinOf (failures : List Failure) (f : Failure) : Prop where
  /-- It is where one of them is. -/
  reached : ∃ g ∈ failures, g.position = f.position
  /-- None of them is further. -/
  furthest : ∀ g ∈ failures, g.position ≤ f.position
  /-- It lists what they expect there. -/
  expected_eq : f.expected = disjunction.intercalate (expectedAt failures f.position).eraseDups
  /-- It is committed if one of them there is, unless an earlier one there expects the same. -/
  committed_iff : f.committed = true ↔ ∃ before g after, failures = before ++ g :: after ∧
    g.position = f.position ∧ g.committed = true ∧ g.expected ∉ expectedAt before f.position

variable {failures : List Failure} {f g : Failure} {position : Int} {text : String}

section ExpectedAt

theorem mem_expectedAt : text ∈ expectedAt failures position ↔
    ∃ g ∈ failures, g.position = position ∧ g.expected = text := by
  simp [expectedAt, and_assoc]

theorem expectedAt_append_of_eq (h : g.position = position) :
    expectedAt (failures ++ [g]) position = expectedAt failures position ++ [g.expected] := by
  simp [expectedAt, h]

theorem expectedAt_append_of_ne (h : g.position ≠ position) :
    expectedAt (failures ++ [g]) position = expectedAt failures position := by
  simp [expectedAt, h]

theorem expectedAt_of_forall_lt (h : ∀ g ∈ failures, g.position < position) :
    expectedAt failures position = [] := by
  rw [expectedAt, List.map_eq_nil_iff, List.filter_eq_nil_iff]
  intro g hg
  have hlt := h g hg
  simp only [decide_eq_true_eq]
  omega

end ExpectedAt

theorem exists_split_concat_iff {holds : List Failure → Failure → Prop} :
    (∃ before g' after, failures ++ [g] = before ++ g' :: after ∧ holds before g') ↔
      (∃ before g' after, failures = before ++ g' :: after ∧ holds before g') ∨
        holds failures g := by
  constructor
  · rintro ⟨before, g', after, hsplit, hholds⟩
    rcases List.eq_nil_or_concat after with rfl | ⟨after, last, rfl⟩
    · obtain ⟨rfl, hlast⟩ := List.append_inj' hsplit rfl
      obtain rfl := List.head_eq_of_cons_eq hlast
      exact .inr hholds
    · rw [List.concat_eq_append, ← List.cons_append, ← List.append_assoc] at hsplit
      exact .inl ⟨before, g', after, (List.append_inj' hsplit rfl).1, hholds⟩
  · rintro (⟨before, g', after, rfl, hholds⟩ | hholds)
    · exact ⟨before, g', after ++ [g], by simp, hholds⟩
    · exact ⟨failures, g, [], rfl, hholds⟩

section Steps

theorem isJoinOf_singleton (g : Failure) : IsJoinOf [g] g where
  reached := ⟨g, List.mem_singleton_self g, rfl⟩
  furthest := by simp
  expected_eq := by simp [expectedAt, List.eraseDups_cons]
  committed_iff := by
    rw [← List.nil_append [g], exists_split_concat_iff]
    simp [expectedAt]

/-- A further failure takes the place of all before it. -/
theorem IsJoinOf.further (h : IsJoinOf failures f) (hfurther : f.position < g.position) :
    IsJoinOf (failures ++ [g]) g := by
  have hbefore : ∀ g' ∈ failures, g'.position < g.position := fun g' hg' =>
    Int.lt_of_le_of_lt (h.furthest g' hg') hfurther
  constructor
  case reached => exact ⟨g, by simp, rfl⟩
  case furthest =>
    exact List.forall_mem_append.2 ⟨fun g' hg' => Int.le_of_lt (hbefore g' hg'),
      List.forall_mem_singleton.2 (Int.le_refl _)⟩
  case expected_eq =>
    rw [expectedAt_append_of_eq rfl, expectedAt_of_forall_lt hbefore]
    simp [List.eraseDups_cons]
  case committed_iff =>
    have hnone : ¬∃ before g' after, failures = before ++ g' :: after ∧ g'.position = g.position ∧
        g'.committed = true ∧ g'.expected ∉ expectedAt before g.position := by
      rintro ⟨before, g', after, rfl, hplace, -⟩
      have hlt := hbefore g' (by simp)
      omega
    rw [exists_split_concat_iff, or_iff_right hnone, expectedAt_of_forall_lt hbefore]
    simp

/-- A failure from before the furthest place adds nothing. -/
theorem IsJoinOf.nearer (h : IsJoinOf failures f) (hnearer : g.position < f.position) :
    IsJoinOf (failures ++ [g]) f := by
  constructor
  case reached =>
    obtain ⟨g', hg', hplace⟩ := h.reached
    exact ⟨g', List.mem_append_left _ hg', hplace⟩
  case furthest =>
    exact List.forall_mem_append.2 ⟨h.furthest, List.forall_mem_singleton.2 (Int.le_of_lt hnearer)⟩
  case expected_eq => rw [expectedAt_append_of_ne (Int.ne_of_lt hnearer), h.expected_eq]
  case committed_iff =>
    rw [exists_split_concat_iff, or_iff_left (fun hlast => absurd hlast.1 (Int.ne_of_lt hnearer)),
      h.committed_iff]

/-- A failure that expects what is listed already adds nothing, not even its commitment. -/
theorem IsJoinOf.listed (h : IsJoinOf failures f) (hplace : g.position = f.position)
    (hlisted : g.expected ∈ expectedAt failures f.position) : IsJoinOf (failures ++ [g]) f := by
  constructor
  case reached => exact ⟨g, by simp, hplace⟩
  case furthest =>
    exact List.forall_mem_append.2 ⟨h.furthest, List.forall_mem_singleton.2 (Int.le_of_eq hplace)⟩
  case expected_eq =>
    rw [expectedAt_append_of_eq hplace, eraseDups_concat_of_mem hlisted, ← h.expected_eq]
  case committed_iff =>
    rw [exists_split_concat_iff, or_iff_left (fun hlast => hlast.2.2 hlisted), h.committed_iff]

/-- A failure at the furthest place with a text of its own is added. -/
theorem IsJoinOf.added (h : IsJoinOf failures f) (hplace : g.position = f.position)
    (hnew : g.expected ∉ expectedAt failures f.position) :
    IsJoinOf (failures ++ [g])
      ⟨f.expected ++ disjunction ++ g.expected, f.position, f.committed || g.committed, none⟩ := by
  have hne : (expectedAt failures f.position).eraseDups ≠ [] := by
    obtain ⟨g', hg', hreached⟩ := h.reached
    exact List.ne_nil_of_mem (List.mem_eraseDups.2 (mem_expectedAt.2 ⟨g', hg', hreached, rfl⟩))
  constructor
  case reached => exact ⟨g, by simp, hplace⟩
  case furthest =>
    exact List.forall_mem_append.2 ⟨h.furthest, List.forall_mem_singleton.2 (Int.le_of_eq hplace)⟩
  case expected_eq =>
    rw [expectedAt_append_of_eq hplace, eraseDups_concat_of_not_mem hnew,
      String.intercalate_append_of_ne_nil hne (by simp), String.intercalate_singleton,
      ← h.expected_eq]
  case committed_iff =>
    rw [exists_split_concat_iff, Bool.or_eq_true, h.committed_iff]
    simp [hplace, hnew]

/-- One failure more is joined to what the failures before it come down to. -/
theorem IsJoinOf.merge (h : IsJoinOf failures f) (hsingle : ∀ g ∈ failures, IsSingle g.expected)
    (g : Failure) : IsJoinOf (failures ++ [g]) (f.merge g) := by
  have hlisted : g.expected ∈ alternatives f.expected ↔
      g.expected ∈ expectedAt failures f.position := by
    obtain ⟨g', hg', hreached⟩ := h.reached
    have hmem := mem_expectedAt.2 ⟨g', hg', hreached, rfl⟩
    rw [h.expected_eq, alternatives_intercalate (List.ne_nil_of_mem (List.mem_eraseDups.2 hmem)),
      List.mem_eraseDups]
    intro text htext
    obtain ⟨g', hg', -, rfl⟩ := mem_expectedAt.1 (List.mem_eraseDups.1 htext)
    exact hsingle g' hg'
  rw [Failure.merge]
  split_ifs with hfurther hkept
  · exact h.further hfurther
  · rw [Bool.or_eq_true, decide_eq_true_eq, List.contains_iff_mem, hlisted] at hkept
    by_cases hplace : g.position = f.position
    · exact h.listed hplace (hkept.resolve_left (by omega))
    · exact h.nearer (by omega)
  · rw [Bool.or_eq_true, decide_eq_true_eq, List.contains_iff_mem, hlisted, not_or] at hkept
    exact h.added (by omega) hkept.2

end Steps

section Runs

/-- What comes up at last when failures are joined one after the other is what they fold to. -/
theorem getLast?_joinAll {failures : List (Option Failure)} (hne : failures ≠ []) :
    (joinAll failures).getLast? = some (failures.foldl join none) := by
  obtain ⟨before, f, rfl⟩ := (List.eq_nil_or_concat failures).resolve_left hne
  simp only [joinAll, List.concat_eq_append, List.foldl_append, List.foldl_cons, List.foldl_nil,
    List.getLast?_reverse, List.head?_cons]
  exact congrArg (fun last => some (join last f)) (List.foldl_hom Prod.snd fun _ _ => rfl).symm

/-- What single expectations come down to when they are joined. -/
theorem exists_isJoinOf (hne : failures ≠ []) (hsingle : ∀ f ∈ failures, IsSingle f.expected) :
    ∃ f, (failures.map some).foldl join none = some f ∧ IsJoinOf failures f := by
  induction failures using List.reverseRecOn with
  | nil => exact absurd rfl hne
  | append_singleton failures g ih =>
    rw [List.map_append, List.foldl_append]
    by_cases hfirst : failures = []
    · subst hfirst
      exact ⟨g, rfl, isJoinOf_singleton g⟩
    · have hsingle := (List.forall_mem_append.1 hsingle).1
      obtain ⟨f, hfold, hf⟩ := ih hfirst hsingle
      exact ⟨f.merge g, by rw [hfold]; rfl, hf.merge hsingle g⟩

/-- Where nothing that is committed repeats what is not, every commitment at the furthest place is
kept. -/
theorem IsJoinOf.committed_iff_exists (h : IsJoinOf failures f)
    (hrepeats : failures.Pairwise fun g g' => g.position = f.position → g'.position = f.position →
      g.expected = g'.expected → g'.committed = true → g.committed = true) :
    f.committed = true ↔ ∃ g ∈ failures, g.position = f.position ∧ g.committed = true := by
  rw [h.committed_iff]
  constructor
  · rintro ⟨before, g, after, rfl, hplace, hcommitted, -⟩
    exact ⟨g, by simp, hplace, hcommitted⟩
  · rintro ⟨g, hg, hplace, hcommitted⟩
    let same (g' : Failure) : Bool := g'.position = f.position ∧ g'.expected = g.expected
    obtain ⟨first, hfirst⟩ : ∃ first, failures.find? same = some first :=
      Option.isSome_iff_exists.1 (List.find?_isSome.2 ⟨g, hg, by simp [same, hplace]⟩)
    obtain ⟨hsame, before, after, rfl, hbefore⟩ := List.find?_eq_some_iff_append.1 hfirst
    simp only [same, Bool.decide_and, Bool.and_eq_true, decide_eq_true_eq] at hsame
    refine ⟨before, first, after, rfl, hsame.1, ?_, fun hlisted => ?_⟩
    · rcases List.mem_append.1 hg with hg | hg
      · exact absurd (hbefore g hg) (by simp [same, hplace])
      · rcases List.mem_cons.1 hg with rfl | hg
        · exact hcommitted
        · have hlater := (List.pairwise_cons.1 (List.pairwise_append.1 hrepeats).2.1).1 g hg
          exact hlater hsame.1 hplace hsame.2 hcommitted
    · obtain ⟨g', hg', hplace', htext⟩ := mem_expectedAt.1 hlisted
      exact absurd (hbefore g' hg') (by simp [same, hplace', htext, hsame.2])

/-- Failures that are joined come down to the furthest ones. The last that comes up is at their
place, lists each text that is expected there once, and is committed if one of them is that brings a
text of its own. So no commitment is lost as long as none of them repeats the text of an earlier one
that is not committed. -/
theorem joinAll_keeps_furthest (hne : failures ≠ [])
    (hsingle : ∀ f ∈ failures, IsSingle f.expected) :
    ∃ f, (joinAll (failures.map some)).getLast? = some (some f) ∧ IsJoinOf failures f ∧
      ((failures.Pairwise fun g g' => g.position = f.position → g'.position = f.position →
        g.expected = g'.expected → g'.committed = true → g.committed = true) →
        (f.committed = true ↔ ∃ g ∈ failures, g.position = f.position ∧ g.committed = true)) := by
  obtain ⟨f, hfold, hf⟩ := exists_isJoinOf hne hsingle
  have hlast : (joinAll (failures.map some)).getLast? = some (some f) := by
    rw [getLast?_joinAll (by simpa using hne), hfold]
  exact ⟨f, hlast, hf, hf.committed_iff_exists⟩

/-- Failures before, at and after the furthest place that has been reached, with a text that comes
up again. -/
theorem joinAll_keeps_furthest_ties :
    let failures : List Failure := [⟨"a", 1, true, none⟩, ⟨"b", 2, false, none⟩,
      ⟨"a", 2, false, none⟩, ⟨"c", 1, true, none⟩, ⟨"b", 2, false, none⟩, ⟨"d", 2, true, none⟩]
    failures ≠ [] ∧ (∀ f ∈ failures, IsSingle f.expected) ∧
      IsJoinOf failures ⟨"b or a or d", 2, true, none⟩ := by
  intro failures
  have hne : failures ≠ [] := by decide
  have hsingle : ∀ f ∈ failures, IsSingle f.expected := by decide
  obtain ⟨f, hlast, hf, -⟩ := joinAll_keeps_furthest hne hsingle
  have hjoined : (joinAll (failures.map some)).getLast? =
      some (some ⟨"b or a or d", 2, true, none⟩) := by
    decide +kernel
  obtain rfl := Option.some.inj (Option.some.inj (hjoined.symm.trans hlast))
  exact ⟨hne, hsingle, hf⟩

/-- A commitment is lost where a committed failure expects what an earlier one expects that is
not. -/
theorem not_joinAll_keeps_commitments :
    ¬∀ failures : List Failure, failures ≠ [] →
      (∀ f ∈ failures, ¬disjunction.toList <:+: [' '] ++ f.expected.toList ++ [' ']) →
      ∃ f, (joinAll (failures.map some)).getLast? = some (some f) ∧
        ((∃ g ∈ failures, g.position = f.position) ∧ ∀ g ∈ failures, g.position ≤ f.position) ∧
        (f.committed = true ↔ ∃ g ∈ failures, g.position = f.position ∧ g.committed = true) ∧
        f.expected = disjunction.intercalate (expectedAt failures f.position).eraseDups := by
  intro h
  obtain ⟨f, hlast, -, hcommitted, -⟩ :=
    h [⟨"a", 0, false, none⟩, ⟨"a", 0, true, none⟩] (by decide) (by decide)
  have hjoined : (joinAll [some ⟨"a", 0, false, none⟩, some ⟨"a", 0, true, none⟩]).getLast? =
      some (some ⟨"a", 0, false, none⟩) := by decide +kernel
  obtain rfl := Option.some.inj (Option.some.inj (hjoined.symm.trans hlast))
  exact absurd (hcommitted.2 ⟨⟨"a", 0, true, none⟩, by simp, rfl, rfl⟩) (by decide)

end Runs

end Failure

end GrammarOutline.Parsing
