import GrammarOutline.Proofs.Expr.Language

/-!
# Groups without effect

A sequence in a sequence and a choice in a choice are groups that say nothing. Taking such a group
apart, wherever it stands, changes neither the normal form of the whole nor whether there is one. A
choice in a choice must have an alternative for this, and none that stands for nothing at all: these
make the group optional, and only the group.
-/
namespace GrammarOutline.Expr

/-- One group is taken apart somewhere in an expression: its members stand in its place. -/
inductive Ungroups : Expr → Expr → Prop where
  | seq (before inner after : List Expr) :
      Ungroups (.seq (before ++ .seq inner :: after)) (.seq (before ++ inner ++ after))
  | alt (before inner after : List Expr) (ne_nil : inner ≠ [])
      (present : ∀ a ∈ inner, a.normalize ≠ .ok empty) :
      Ungroups (.alt (before ++ .alt inner :: after)) (.alt (before ++ inner ++ after))
  | inSeq (before after : List Expr) {e e' : Expr} (member : Ungroups e e') :
      Ungroups (.seq (before ++ e :: after)) (.seq (before ++ e' :: after))
  | inAlt (before after : List Expr) {e e' : Expr} (member : Ungroups e e') :
      Ungroups (.alt (before ++ e :: after)) (.alt (before ++ e' :: after))
  | inQuant (mark : String) {e e' : Expr} (operand : Ungroups e e') :
      Ungroups (.quant e mark) (.quant e' mark)

section Joined

variable {ns ms ks : List Expr}

/-- The items of joined normal forms are the items of all of them. -/
theorem items_ofItems (hnormal : ∀ n ∈ ns, n.IsNormal) : (ofItems ns).items = ns.flatMap items := by
  obtain ⟨e, he, hof⟩ | ⟨-, hseq⟩ := ofItems_cases ns
  · have hmem : e ∈ ns.flatMap items := by simp [he]
    obtain ⟨n, hn, hi⟩ := List.mem_flatMap.1 hmem
    have hplain := (isNormal_of_mem_items (hnormal n hn) hi).2
    have hsame : [e].flatMap items = [e] := flatMap_items_eq (by simpa using hplain)
    rw [hof, he, ← hsame, List.flatMap_singleton]
  · rw [hseq, items]

/-- The alternatives of joined normal forms are the alternatives of all of them, unless there are
none or one of them is nothing at all. -/
theorem alternatives_ofAlternatives (hnormal : ∀ n ∈ ns, n.IsNormal) (hne : ns ≠ [])
    (hempty : empty ∉ ns) : (ofAlternatives ns).alternatives = ns.flatMap alternatives := by
  have hspliced := isNormal_of_mem_flatMap_alternatives hnormal
  have hsome := flatMap_alternatives_ne_nil hne fun n hn => (hnormal n hn).hasAlternatives
  rw [ofAlternatives_of_not_mem hnormal hempty]
  match hl : ns.flatMap alternatives with
  | [] => exact absurd hl hsome
  | [e] =>
    have hplain := (hspliced e (by simp [hl])).2
    have hsame : [e].flatMap alternatives = [e] := flatMap_alternatives_eq (by simpa using hplain)
    simpa [choose] using hsame
  | a :: b :: others => rfl

theorem ofItems_congr (h : ns.flatMap items = ms.flatMap items) : ofItems ns = ofItems ms := by
  simp only [ofItems, h]

theorem ofAlternatives_congr (h : ns.flatMap alternatives = ms.flatMap alternatives) :
    ofAlternatives ns = ofAlternatives ms := by
  simp only [ofAlternatives, h]

/-- Normal forms that are joined among themselves first are joined to the same. -/
theorem ofItems_append_ofItems (hnormal : ∀ m ∈ ms, m.IsNormal) :
    ofItems (ns ++ ofItems ms :: ks) = ofItems (ns ++ ms ++ ks) :=
  ofItems_congr (by simp [items_ofItems hnormal])

theorem ofAlternatives_append_ofAlternatives (hnormal : ∀ m ∈ ms, m.IsNormal) (hne : ms ≠ [])
    (hempty : empty ∉ ms) :
    ofAlternatives (ns ++ ofAlternatives ms :: ks) = ofAlternatives (ns ++ ms ++ ks) :=
  ofAlternatives_congr (by simp [alternatives_ofAlternatives hnormal hne hempty])

end Joined

section Members

variable {before inner after : List Expr}

theorem normalizeAll_append (es es' : List Expr) :
    normalizeAll (es ++ es') =
      (normalizeAll es).bind fun ns => (normalizeAll es').map fun ms => ns ++ ms := by
  induction es with
  | nil => cases h : normalizeAll es' <;> simp [normalizeAll, h, Except.bind, Except.map]
  | cons e es ih =>
    rw [List.cons_append, normalizeAll, normalizeAll, ih]
    cases normalize e <;> cases normalizeAll es <;> cases normalizeAll es' <;> rfl

theorem normalizeAll_append_cons (before : List Expr) (e : Expr) (after : List Expr) :
    normalizeAll (before ++ e :: after) = (normalizeAll before).bind fun ns =>
      e.normalize.bind fun n => (normalizeAll after).map fun ks => ns ++ n :: ks := by
  rw [normalizeAll_append, normalizeAll]
  cases normalizeAll before <;> cases normalize e <;> cases normalizeAll after <;> rfl

theorem isNormal_of_normalizeAll {es ns : List Expr} (h : normalizeAll es = .ok ns) :
    ∀ n ∈ ns, n.IsNormal :=
  forall_of_forall₂ (normalizeAll_eq_ok_iff.1 h) fun _ _ _ hn => isNormal_of_normalize hn

/-- A sequence in a sequence is brought to normal form like its items. -/
theorem normalize_seq_group (before inner after : List Expr) :
    normalize (.seq (before ++ .seq inner :: after)) =
      normalize (.seq (before ++ inner ++ after)) := by
  rw [normalize, normalize, normalizeAll_append_cons, normalizeAll_append,
    normalizeAll_append, normalize]
  cases normalizeAll before with
  | error marks => rfl
  | ok ns =>
    cases hinner : normalizeAll inner with
    | error marks => rfl
    | ok ms =>
      cases normalizeAll after with
      | error marks => rfl
      | ok ks => exact congrArg Except.ok (ofItems_append_ofItems (isNormal_of_normalizeAll hinner))

/-- A choice in a choice is brought to normal form like its alternatives. -/
theorem normalize_alt_group (before after : List Expr) (hne : inner ≠ [])
    (hpresent : ∀ a ∈ inner, a.normalize ≠ .ok empty) :
    normalize (.alt (before ++ .alt inner :: after)) =
      normalize (.alt (before ++ inner ++ after)) := by
  rw [normalize, normalize, normalizeAll_append_cons, normalizeAll_append,
    normalizeAll_append, normalize]
  cases normalizeAll before with
  | error marks => rfl
  | ok ns =>
    cases hinner : normalizeAll inner with
    | error marks => rfl
    | ok ms =>
      have hpairs := normalizeAll_eq_ok_iff.1 hinner
      have hms : ms ≠ [] := by
        rintro rfl
        exact hne (List.forall₂_nil_right_iff.1 hpairs)
      have hempty : empty ∉ ms := fun hmem => by
        obtain ⟨a, ha, hnormal⟩ := exists_mem_of_forall₂ hpairs hmem
        exact hpresent a ha hnormal
      cases normalizeAll after with
      | error marks => rfl
      | ok ks =>
        exact congrArg Except.ok
          (ofAlternatives_append_ofAlternatives (isNormal_of_normalizeAll hinner) hms hempty)

end Members

section Contexts

variable {ε ε' α β : Type} {x y : Except ε α} {f g : α → Except ε β} {view : ε → ε'}

/-- Two runs that go on alike from alike outcomes have alike outcomes. -/
theorem mapError_bind_congr (hxy : x.mapError view = y.mapError view)
    (hfg : ∀ a, (f a).mapError view = (g a).mapError view) :
    (x.bind f).mapError view = (y.bind g).mapError view := by
  cases x <;> cases y <;> simp_all [Except.mapError, Except.bind]

theorem mapError_map_congr (hxy : x.mapError view = y.mapError view) (h : α → β) :
    (x.map h).mapError view = (y.map h).mapError view := by
  cases x <;> cases y <;> simp_all [Except.mapError, Except.map]

/-- Both expressions have the same normal form, or the same reduced expression is refused in
both. -/
def SameOutcome (e e' : Expr) : Prop :=
  e.normalize.mapError DoubleQuantification.reduced =
    e'.normalize.mapError DoubleQuantification.reduced

variable {e e' : Expr}

theorem SameOutcome.normalizeAll (h : SameOutcome e e') (before after : List Expr) :
    (normalizeAll (before ++ e :: after)).mapError DoubleQuantification.reduced =
      (normalizeAll (before ++ e' :: after)).mapError DoubleQuantification.reduced := by
  rw [normalizeAll_append_cons, normalizeAll_append_cons]
  exact mapError_bind_congr rfl fun ns => mapError_bind_congr h fun n => rfl

theorem SameOutcome.quant (h : SameOutcome e e') (mark : String) :
    SameOutcome (.quant e mark) (.quant e' mark) := by
  have hrefused : ∀ n, (ofQuantified e mark n).mapError DoubleQuantification.reduced =
      (ofQuantified e' mark n).mapError DoubleQuantification.reduced := by
    intro n
    unfold ofQuantified
    split <;> rfl
  rw [SameOutcome, normalize, normalize]
  exact mapError_bind_congr h hrefused

/-- A group may be taken apart in any context. -/
theorem Ungroups.sameOutcome (h : Ungroups e e') : SameOutcome e e' := by
  induction h with
  | seq before inner after => rw [SameOutcome, normalize_seq_group]
  | alt before inner after ne_nil present =>
    rw [SameOutcome, normalize_alt_group before after ne_nil present]
  | inSeq before after _ ih => exact mapError_map_congr (ih.normalizeAll before after) ofItems
  | inAlt before after _ ih =>
    exact mapError_map_congr (ih.normalizeAll before after) ofAlternatives
  | inQuant mark _ ih => exact ih.quant mark

end Contexts

/-- Taking a group apart, wherever it stands, leaves the normal form as it is. If there is none, a
second mark is refused in both expressions, over the same normal form of its operand. -/
theorem ungrouping_keeps_normal_form {e e' : Expr} (h : Ungroups e e') :
    (∃ n, e.normalize = .ok n ∧ e'.normalize = .ok n) ∨
      ∃ marks marks', e.normalize = .error marks ∧ e'.normalize = .error marks' ∧
        marks.reduced = marks'.reduced := by
  have houtcome : e.normalize.mapError DoubleQuantification.reduced =
    e'.normalize.mapError DoubleQuantification.reduced := h.sameOutcome
  cases he : e.normalize with
  | ok n =>
    cases he' : e'.normalize with
    | ok n' =>
      rw [he, he'] at houtcome
      exact .inl ⟨n, rfl, by rw [Except.ok.inj houtcome]⟩
    | error marks => simp [he, he', Except.mapError] at houtcome
  | error marks =>
    cases he' : e'.normalize with
    | ok n => simp [he, he', Except.mapError] at houtcome
    | error marks' =>
      rw [he, he'] at houtcome
      exact .inr ⟨marks, marks', rfl, rfl, Except.error.inj houtcome⟩

/-- In `('x' | (a | (b c)*))?` the choice in the choice may be taken apart under the mark. -/
theorem ungrouping_keeps_normal_form_choice :
    let e := Expr.quant (.alt [.term "'x'",
      .alt [.ref "a", .quant (.seq [.ref "b", .ref "c"]) "*"]]) "?"
    let n := Expr.quant (.alt [.term "'x'", .ref "a", .quant (.seq [.ref "b", .ref "c"]) "*"]) "?"
    Ungroups e n ∧ e.normalize = .ok n ∧ n.normalize = .ok n := by
  intro e n
  have hungroups : Ungroups e n :=
    .inQuant "?" (.alt [.term "'x'"] [.ref "a", .quant (.seq [.ref "b", .ref "c"]) "*"] []
      (by simp) (by decide))
  have he : e.normalize = .ok n := by rfl
  rcases ungrouping_keeps_normal_form hungroups with ⟨m, hm, hm'⟩ | ⟨marks, _, herror, -⟩
  · rw [he] at hm
    exact ⟨hungroups, he, Except.ok.inj hm ▸ hm'⟩
  · simp [he] at herror

/-- An alternative that stands for nothing at all makes its own group optional, and not the choice
around it. -/
example : normalize (.alt [.alt [.seq [], .ref "a"], .ref "b"]) =
      .ok (.alt [.quant (.ref "a") "?", .ref "b"]) ∧
    normalize (.alt [.seq [], .ref "a", .ref "b"]) = .ok (.quant (.alt [.ref "a", .ref "b"]) "?") :=
  ⟨rfl, rfl⟩

end GrammarOutline.Expr
