import GrammarOutline.Expr.Inline
import GrammarOutline.Proofs.Expr.Language
import GrammarOutline.Proofs.Expr.References

/-!
# Substitution into normal forms

One pass of substitution takes normal forms to a normal form and never puts a mark over a mark. What
is left of the substituted names stands under marks whose operand would become quantified. A second
pass changes nothing, so repeating the pass is the same as making it once.
-/
namespace GrammarOutline.Expr

def NormalBodies (bodies : Table Expr) : Prop := ∀ n b, bodies.find? n = some b → b.IsNormal

/-- A pass over an operand gives a quantified expression, so the operand stays as it is. -/
def Blocked (bodies : Table Expr) (operand : Expr) : Prop :=
  ∃ inner, operand.substitute bodies = .ok inner ∧ inner.isQuant = true

/-- Every mention of a name of the table stands under a mark with a blocked operand. -/
inductive IsInlined (bodies : Table Expr) : Expr → Prop where
  | alt {as : List Expr} (members : ∀ a ∈ as, IsInlined bodies a) : IsInlined bodies (.alt as)
  | seq {es : List Expr} (members : ∀ e ∈ es, IsInlined bodies e) : IsInlined bodies (.seq es)
  | quant {operand : Expr} {mark : String} (member : IsInlined bodies operand) :
      IsInlined bodies (.quant operand mark)
  | kept {operand : Expr} {mark : String} (blocked : Blocked bodies operand) :
      IsInlined bodies (.quant operand mark)
  | ref {name : String} (absent : bodies.find? name = none) : IsInlined bodies (.ref name)
  | term (text : String) : IsInlined bodies (.term text)

/-- Every mention of one of the names stands in the operand of a mark that may keep it. -/
inductive OnlyUnder (names : List String) (keeps : Expr → Prop) : Expr → Prop where
  | alt {as : List Expr} (members : ∀ a ∈ as, OnlyUnder names keeps a) :
      OnlyUnder names keeps (.alt as)
  | seq {es : List Expr} (members : ∀ e ∈ es, OnlyUnder names keeps e) :
      OnlyUnder names keeps (.seq es)
  | quant {operand : Expr} {mark : String} (member : OnlyUnder names keeps operand) :
      OnlyUnder names keeps (.quant operand mark)
  | kept {operand : Expr} {mark : String} (keeps_operand : keeps operand) :
      OnlyUnder names keeps (.quant operand mark)
  | ref {name : String} (absent : name ∉ names) : OnlyUnder names keeps (.ref name)
  | term (text : String) : OnlyUnder names keeps (.term text)

section Pass

variable {bodies : Table Expr}

theorem substituteAll_eq_ok_iff {es rs : List Expr} :
    substituteAll bodies es = .ok rs ↔
      List.Forall₂ (fun e r => substitute bodies e = .ok r) es rs := by
  induction es generalizing rs with
  | nil => simp [substituteAll, eq_comm]
  | cons e es ih =>
    simp only [substituteAll, bind_eq_ok_iff, map_eq_ok_iff, ih, List.forall₂_cons_left_iff]
    constructor
    · rintro ⟨r, hr, rs, hrs, rfl⟩
      exact ⟨r, rs, hr, hrs, rfl⟩
    · rintro ⟨r, rs, hr, hrs, rfl⟩
      exact ⟨r, hr, rs, hrs, rfl⟩

/-- A pass over a normal form succeeds, gives a normal form, and does what its cases do: members are
joined again, an operand is blocked, or else vanishes or is replaced, and names get their bodies. -/
theorem exists_substitute_and (hbodies : NormalBodies bodies) {motive : Expr → Expr → Prop}
    (alt : ∀ as rs, IsNormal (.alt as) → (∀ r ∈ rs, r.IsNormal) →
      List.Forall₂ (fun a r => substitute bodies a = .ok r ∧ motive a r) as rs →
      motive (.alt as) (ofAlternatives rs))
    (seq : ∀ es rs, IsNormal (.seq es) → (∀ r ∈ rs, r.IsNormal) →
      List.Forall₂ (fun e r => substitute bodies e = .ok r ∧ motive e r) es rs →
      motive (.seq es) (ofItems rs))
    (blocked : ∀ operand mark, IsNormal (.quant operand mark) → Blocked bodies operand →
      motive (.quant operand mark) (.quant operand mark))
    (vanished : ∀ operand mark, IsNormal (.quant operand mark) → motive operand empty →
      motive (.quant operand mark) empty)
    (replaced : ∀ operand mark inner, IsNormal (.quant operand mark) →
      IsNormal (.quant inner mark) → ¬Blocked bodies operand → motive operand inner →
      motive (.quant operand mark) (.quant inner mark))
    (body : ∀ name b, bodies.find? name = some b → motive (.ref name) b)
    (ref : ∀ name, bodies.find? name = none → motive (.ref name) (.ref name))
    (term : ∀ text, motive (.term text) (.term text)) {e : Expr} (he : e.IsNormal) :
    ∃ r, substitute bodies e = .ok r ∧ r.IsNormal ∧ motive e r := by
  induction he with
  | @alt as hlength hnormal hplain ih =>
    obtain ⟨rs, hrs⟩ := exists_forall₂ ih
    have hnormals : ∀ r ∈ rs, r.IsNormal := forall_of_forall₂ hrs fun _ _ _ h => h.2.1
    have hall : substituteAll bodies as = .ok rs :=
      substituteAll_eq_ok_iff.2 (hrs.imp fun _ _ h => h.1)
    refine ⟨ofAlternatives rs, ?_, isNormal_ofAlternatives hnormals,
      alt as rs (.alt hlength hnormal hplain) hnormals (hrs.imp fun _ _ h => ⟨h.1, h.2.2⟩)⟩
    rw [substitute, hall, Except.bind, normalize,
      normalizeAll_eq_of_forall fun r hr => (hnormals r hr).normalize_eq, Except.map]
  | @seq es hlength hnormal hplain ih =>
    obtain ⟨rs, hrs⟩ := exists_forall₂ ih
    have hnormals : ∀ r ∈ rs, r.IsNormal := forall_of_forall₂ hrs fun _ _ _ h => h.2.1
    have hall : substituteAll bodies es = .ok rs :=
      substituteAll_eq_ok_iff.2 (hrs.imp fun _ _ h => h.1)
    refine ⟨ofItems rs, ?_, isNormal_ofItems hnormals,
      seq es rs (.seq hlength hnormal hplain) hnormals (hrs.imp fun _ _ h => ⟨h.1, h.2.2⟩)⟩
    rw [substitute, hall, Except.bind, normalize,
      normalizeAll_eq_of_forall fun r hr => (hnormals r hr).normalize_eq, Except.map]
  | @quant operand mark hnormal hplain ih =>
    obtain ⟨inner, hinner, hinnerNormal, hmotive⟩ := ih
    by_cases hquant : inner.isQuant
    · refine ⟨.quant operand mark, ?_, .quant hnormal hplain,
        blocked operand mark (.quant hnormal hplain) ⟨inner, hinner, hquant⟩⟩
      rw [substitute, hinner, Except.bind, if_pos hquant]
      exact (IsNormal.quant hnormal hplain).normalize_eq
    · have hsubstitute : substitute bodies (.quant operand mark) =
          ofQuantified inner mark inner := by
        rw [substitute, hinner, Except.bind, if_neg hquant, normalize, hinnerNormal.normalize_eq,
          Except.bind]
      have hquant : inner.isQuant = false := by simpa using hquant
      rw [hsubstitute]
      by_cases hempty : inner = empty
      · subst hempty
        exact ⟨empty, by simp [ofQuantified, hquant], isNormal_empty,
          vanished operand mark (.quant hnormal hplain) hmotive⟩
      · have hresult : IsNormal (.quant inner mark) := .quant hinnerNormal ⟨hquant, hempty⟩
        have hfree : ¬Blocked bodies operand := by
          rintro ⟨inner', hinner', hquant'⟩
          rw [Except.ok.inj (hinner'.symm.trans hinner), hquant] at hquant'
          exact Bool.false_ne_true hquant'
        exact ⟨.quant inner mark, ofQuantified_eq ⟨hquant, hempty⟩, hresult,
          replaced operand mark inner (.quant hnormal hplain) hresult hfree hmotive⟩
  | ref name =>
    cases hfind : bodies.find? name with
    | none => exact ⟨.ref name, by rw [substitute, hfind]; rfl, .ref name, ref name hfind⟩
    | some b => exact ⟨b, by rw [substitute, hfind]; rfl, hbodies name b hfind, body name b hfind⟩
  | term text => exact ⟨.term text, rfl, .term text, term text⟩

theorem exists_substitute (hbodies : NormalBodies bodies) {e : Expr} (he : e.IsNormal) :
    ∃ r, substitute bodies e = .ok r ∧ r.IsNormal := by
  obtain ⟨r, hr, hnormal, -⟩ := exists_substitute_and hbodies (motive := fun _ _ => True)
    (fun _ _ _ _ _ => trivial) (fun _ _ _ _ _ => trivial) (fun _ _ _ _ => trivial)
    (fun _ _ _ _ => trivial) (fun _ _ _ _ _ _ _ => trivial) (fun _ _ _ => trivial)
    (fun _ _ => trivial) (fun _ => trivial) he
  exact ⟨r, hr, hnormal⟩

/-- Induction over what a pass does to a normal form. -/
theorem substitute_induct (hbodies : NormalBodies bodies) {motive : Expr → Expr → Prop}
    (alt : ∀ as rs, IsNormal (.alt as) → (∀ r ∈ rs, r.IsNormal) →
      List.Forall₂ (fun a r => substitute bodies a = .ok r ∧ motive a r) as rs →
      motive (.alt as) (ofAlternatives rs))
    (seq : ∀ es rs, IsNormal (.seq es) → (∀ r ∈ rs, r.IsNormal) →
      List.Forall₂ (fun e r => substitute bodies e = .ok r ∧ motive e r) es rs →
      motive (.seq es) (ofItems rs))
    (blocked : ∀ operand mark, IsNormal (.quant operand mark) → Blocked bodies operand →
      motive (.quant operand mark) (.quant operand mark))
    (vanished : ∀ operand mark, IsNormal (.quant operand mark) → motive operand empty →
      motive (.quant operand mark) empty)
    (replaced : ∀ operand mark inner, IsNormal (.quant operand mark) →
      IsNormal (.quant inner mark) → ¬Blocked bodies operand → motive operand inner →
      motive (.quant operand mark) (.quant inner mark))
    (body : ∀ name b, bodies.find? name = some b → motive (.ref name) b)
    (ref : ∀ name, bodies.find? name = none → motive (.ref name) (.ref name))
    (term : ∀ text, motive (.term text) (.term text)) {e r : Expr} (he : e.IsNormal)
    (hr : substitute bodies e = .ok r) : motive e r := by
  obtain ⟨r', hr', -, hmotive⟩ :=
    exists_substitute_and hbodies alt seq blocked vanished replaced body ref term he
  rwa [Except.ok.inj (hr.symm.trans hr')]

/-- A pass looks at those names only that the expression mentions. -/
theorem substitute_congr {bodies' : Table Expr} {e : Expr}
    (h : ∀ n ∈ e.references, bodies.find? n = bodies'.find? n) :
    substitute bodies e = substitute bodies' e := by
  have hall : ∀ es : List Expr, (∀ e ∈ es, (∀ n ∈ e.references, bodies.find? n = bodies'.find? n) →
      substitute bodies e = substitute bodies' e) →
      (∀ n ∈ referencesAll es, bodies.find? n = bodies'.find? n) →
      substituteAll bodies es = substituteAll bodies' es := by
    intro es ih hes
    induction es with
    | nil => rfl
    | cons e es ihes =>
      simp only [List.mem_cons, forall_eq_or_imp] at ih
      simp only [referencesAll, List.mem_append] at hes
      rw [substituteAll, substituteAll, ih.1 fun n hn => hes n (.inl hn),
        ihes ih.2 fun n hn => hes n (.inr hn)]
  induction e using induct with
  | alt as ih => rw [substitute, substitute, hall as ih h]
  | seq es ih => rw [substitute, substitute, hall es ih h]
  | quant operand mark ih => rw [substitute, substitute, ih h]
  | ref name => rw [substitute, substitute, h name (by simp [references])]
  | term text => rfl

end Pass

section References

/-- A pass brings in no names but those that the bodies of mentioned names mention. -/
theorem references_substitute {bodies : Table Expr} (hbodies : NormalBodies bodies) {e r : Expr}
    (he : e.IsNormal) (hr : substitute bodies e = .ok r) : ∀ m ∈ r.references, m ∈ e.references ∨
      ∃ n ∈ e.references, ∃ b, bodies.find? n = some b ∧ m ∈ b.references := by
  have hlist : ∀ {es rs : List Expr}, List.Forall₂ (fun e r => substitute bodies e = .ok r ∧
      ∀ m ∈ r.references, m ∈ e.references ∨
        ∃ n ∈ e.references, ∃ b, bodies.find? n = some b ∧ m ∈ b.references) es rs →
      ∀ m ∈ rs.flatMap references, m ∈ referencesAll es ∨
        ∃ n ∈ referencesAll es, ∃ b, bodies.find? n = some b ∧ m ∈ b.references := by
    intro es rs h m hm
    obtain ⟨r, hmem, hm⟩ := List.mem_flatMap.1 hm
    obtain ⟨e, he, -, hmotive⟩ := exists_mem_of_forall₂ h hmem
    rcases hmotive m hm with hm | ⟨n, hn, b, hb, hm⟩
    · exact .inl (mem_referencesAll he hm)
    · exact .inr ⟨n, mem_referencesAll he hn, b, hb, hm⟩
  refine substitute_induct hbodies (motive := fun e r => ∀ m ∈ r.references, m ∈ e.references ∨
    ∃ n ∈ e.references, ∃ b, bodies.find? n = some b ∧ m ∈ b.references)
    ?alt ?seq (fun _ _ _ _ m hm => .inl hm) (fun _ _ _ _ m hm => ?vanished) (fun _ _ _ _ _ _ h => h)
    ?body (fun _ _ m hm => .inl hm) (fun _ m hm => .inl hm) he hr
  case alt =>
    intro as rs _ _ h m hm
    rw [references_ofAlternatives] at hm
    exact hlist h m hm
  case seq =>
    intro es rs _ _ h m hm
    rw [references_ofItems] at hm
    exact hlist h m hm
  case vanished => exact absurd hm List.not_mem_nil
  case body =>
    intro name b hb m hm
    exact .inr ⟨name, by simp [references], b, hb, hm⟩

/-- A pass keeps the mentions of a name that has no body. -/
theorem mem_references_substitute {bodies : Table Expr} (hbodies : NormalBodies bodies) {e r : Expr}
    (he : e.IsNormal) (hr : substitute bodies e = .ok r) {m : String} (hm : m ∈ e.references)
    (hnone : bodies.find? m = none) : m ∈ r.references := by
  have hlist : ∀ {es rs : List Expr}, List.Forall₂ (fun e r => substitute bodies e = .ok r ∧
      (m ∈ e.references → m ∈ r.references)) es rs → m ∈ referencesAll es →
      m ∈ rs.flatMap references := by
    intro es rs h hm
    rw [referencesAll_eq] at hm
    obtain ⟨e, he, hm⟩ := List.mem_flatMap.1 hm
    obtain ⟨r, hr, -, hmotive⟩ := exists_mem_of_forall₂ h.flip he
    exact List.mem_flatMap.2 ⟨r, hr, hmotive hm⟩
  refine substitute_induct hbodies (motive := fun e r => m ∈ e.references → m ∈ r.references)
    ?alt ?seq (fun _ _ _ _ hm => hm) (fun _ _ _ h hm => h hm) (fun _ _ _ _ _ _ h hm => h hm)
    ?body (fun _ _ hm => hm) (fun _ hm => hm) he hr hm
  case alt =>
    intro as rs _ _ h hm
    rw [references_ofAlternatives]
    exact hlist h hm
  case seq =>
    intro es rs _ _ h hm
    rw [references_ofItems]
    exact hlist h hm
  case body =>
    intro name b hb hm
    obtain rfl : m = name := by simpa [references] using hm
    exact absurd hb (by simp [hnone])

end References

section Mentions

variable {names : List String} {keeps : Expr → Prop}

theorem onlyUnder_optional {e : Expr} (he : OnlyUnder names keeps e) :
    OnlyUnder names keeps e.optional := by
  obtain ⟨operand, mark, rfl, hsame⟩ | ⟨rfl, hsame⟩ | ⟨-, -, hsame⟩ := optional_cases e
  · rw [hsame]
    cases he with
    | quant member => exact .quant member
    | kept keeps_operand => exact .kept keeps_operand
  · exact hsame ▸ he
  · exact hsame ▸ .quant he

theorem hereditary_onlyUnder (names : List String) (keeps : Expr → Prop) :
    Hereditary (OnlyUnder names keeps) where
  alt_iff as := by
    refine ⟨fun h => ?_, .alt⟩
    cases h with
    | alt members => exact members
  seq_iff es := by
    refine ⟨fun h => ?_, .seq⟩
    cases h with
    | seq members => exact members
  optional e he := onlyUnder_optional he

theorem onlyUnder_of_forall_not_mem {e : Expr} (h : ∀ n ∈ e.references, n ∉ names) :
    OnlyUnder names keeps e := by
  induction e using induct with
  | alt as ih => exact .alt fun a ha => ih a ha fun n hn => h n (mem_referencesAll ha hn)
  | seq es ih => exact .seq fun e he => ih e he fun n hn => h n (mem_referencesAll he hn)
  | quant operand mark ih => exact .quant (ih h)
  | ref name => exact .ref (h name List.mem_cons_self)
  | term text => exact .term text

end Mentions

section Repeated

variable {bodies : Table Expr}

/-- A pass moves on from `high` names to `low` ones when this is so for the bodies of all names that
are not high. -/
theorem OnlyUnder.substitute {high low : List String} (hbodies : NormalBodies bodies)
    (hlow : ∀ n ∈ low, n ∈ bodies.names)
    (hunder : ∀ n b, bodies.find? n = some b → n ∉ high → OnlyUnder low (Blocked bodies) b)
    {e r : Expr} (h : OnlyUnder high (Blocked bodies) e) (he : e.IsNormal)
    (hr : substitute bodies e = .ok r) : OnlyUnder low (Blocked bodies) r := by
  have hhigh := hereditary_onlyUnder high (Blocked bodies)
  have hlower := hereditary_onlyUnder low (Blocked bodies)
  refine substitute_induct hbodies
    (motive := fun e r => OnlyUnder high (Blocked bodies) e → OnlyUnder low (Blocked bodies) r)
    ?alt ?seq (fun _ _ _ hblocked _ => .kept hblocked) (fun _ _ _ _ _ => hlower.empty)
    ?replaced ?body ?ref (fun text _ => .term text) he hr h
  case alt =>
    intro as rs _ _ hpairs has
    exact hlower.ofAlternatives
      (forall_of_forall₂ hpairs fun a ha r h => h.2 ((hhigh.alt_iff as).1 has a ha))
  case seq =>
    intro es rs _ _ hpairs hes
    exact hlower.ofItems (forall_of_forall₂ hpairs fun e he r h =>
      h.2 ((hhigh.seq_iff es).1 hes e he))
  case replaced =>
    intro operand mark inner _ _ hfree hinner h
    cases h with
    | quant member => exact .quant (hinner member)
    | kept blocked => exact absurd blocked hfree
  case body =>
    intro name b hb h
    cases h with
    | ref absent => exact hunder name b hb absent
  case ref =>
    intro name hnone _
    exact .ref fun hname => Table.find?_eq_none_iff.1 hnone (hlow name hname)

theorem isInlined_iff_onlyUnder {e : Expr} :
    IsInlined bodies e ↔ OnlyUnder bodies.names (Blocked bodies) e := by
  constructor
  · intro h
    induction h with
    | alt _ ih => exact .alt ih
    | seq _ ih => exact .seq ih
    | quant _ ih => exact .quant ih
    | kept blocked => exact .kept blocked
    | ref absent => exact .ref (Table.find?_eq_none_iff.1 absent)
    | term text => exact .term text
  · intro h
    induction h with
    | alt _ ih => exact .alt ih
    | seq _ ih => exact .seq ih
    | quant _ ih => exact .quant ih
    | kept blocked => exact .kept blocked
    | ref absent => exact .ref (Table.find?_eq_none_iff.2 absent)
    | term text => exact .term text

/-- One pass with inlined bodies leaves nothing to substitute except under blocked marks. -/
theorem isInlined_substitute (hbodies : NormalBodies bodies)
    (hinlined : ∀ n b, bodies.find? n = some b → IsInlined bodies b) {e r : Expr}
    (he : e.IsNormal) (hr : substitute bodies e = .ok r) : IsInlined bodies r := by
  have hnone : OnlyUnder [] (Blocked bodies) e :=
    onlyUnder_of_forall_not_mem fun _ _ => List.not_mem_nil
  rw [isInlined_iff_onlyUnder]
  exact hnone.substitute hbodies (fun _ hn => hn)
    (fun n b hb _ => isInlined_iff_onlyUnder.1 (hinlined n b hb)) he hr

theorem substituteAll_eq_of_forall {es : List Expr} (h : ∀ e ∈ es, substitute bodies e = .ok e) :
    substituteAll bodies es = .ok es := by
  rw [substituteAll_eq_ok_iff, List.forall₂_same]
  exact h

theorem IsInlined.substitute_eq {e : Expr} (h : IsInlined bodies e) (he : e.IsNormal) :
    substitute bodies e = .ok e := by
  have hnormal := he.normalize_eq
  induction h with
  | alt _ ih =>
    cases he with
    | alt _ members _ =>
      rw [substitute, substituteAll_eq_of_forall fun a ha =>
        ih a ha (members a ha) (members a ha).normalize_eq]
      exact hnormal
  | seq _ ih =>
    cases he with
    | seq _ members _ =>
      rw [substitute, substituteAll_eq_of_forall fun e he =>
        ih e he (members e he) (members e he).normalize_eq]
      exact hnormal
  | quant _ ih =>
    cases he with
    | quant operand plain =>
      rw [substitute, ih operand operand.normalize_eq, Except.bind, if_neg (by simp [plain.1])]
      exact hnormal
  | kept blocked =>
    obtain ⟨inner, hinner, hquant⟩ := blocked
    rw [substitute, hinner, Except.bind, if_pos hquant]
    exact hnormal
  | ref absent => rw [substitute, absent]; rfl
  | term => rfl

/-- Repeating the pass with inlined bodies is the same as making it once. -/
theorem inline_eq_substitute (hbodies : NormalBodies bodies)
    (hinlined : ∀ n b, bodies.find? n = some b → IsInlined bodies b) {e : Expr} (he : e.IsNormal) :
    e.inline bodies = e.substitute bodies := by
  obtain ⟨r, hr, hnormal⟩ := exists_substitute hbodies he
  have hstable := (isInlined_substitute hbodies hinlined he hr).substitute_eq hnormal
  rw [inline, inlineWithin, hr, Except.bind]
  by_cases hre : r = e
  · rw [if_pos hre, hre]
  · rw [if_neg hre, inlineWithin, hstable, Except.bind, if_pos rfl]

/-- An expression that does not mention a name stays inlined when the name gets a body. -/
theorem IsInlined.insert {e : Expr} (h : IsInlined bodies e) {name : String} (body : Expr)
    (hname : name ∉ e.references) : IsInlined (bodies.insert name body) e := by
  have hfind : ∀ {n : String}, n ≠ name → bodies.find? n = (bodies.insert name body).find? n := by
    intro n hn
    rw [Table.find?_insert, if_neg hn]
  have hmember : ∀ {es : List Expr} {e : Expr}, name ∉ referencesAll es → e ∈ es →
      name ∉ e.references := by
    exact fun hname he hmem => hname (mem_referencesAll he hmem)
  induction h with
  | alt _ ih => exact .alt fun a ha => ih a ha (hmember hname ha)
  | seq _ ih => exact .seq fun e he => ih e he (hmember hname he)
  | quant _ ih => exact .quant (ih hname)
  | kept blocked =>
    obtain ⟨inner, hinner, hquant⟩ := blocked
    refine .kept ⟨inner, ?_, hquant⟩
    rw [← hinner]
    refine (substitute_congr fun n hn => hfind ?_).symm
    rintro rfl
    exact hname hn
  | @ref n absent =>
    have hn : n ≠ name := fun e => hname (by simp [references, e])
    exact .ref (by rw [← hfind hn, absent])
  | term text => exact .term text

end Repeated

section Meaning

variable {α : Type} {bodies : Table Expr} {terms names : String → Language α}

theorem language_substitute (hbodies : NormalBodies bodies)
    (hnames : ∀ n b, bodies.find? n = some b → names n = language terms names b) {e r : Expr}
    (he : e.IsNormal) (hr : substitute bodies e = .ok r) :
    language terms names r = language terms names e := by
  refine substitute_induct hbodies
    (motive := fun e r => language terms names r = language terms names e) ?alt ?seq
    (fun _ _ _ _ => rfl) ?vanished ?replaced (fun n b h => (hnames n b h).symm) (fun _ _ => rfl)
    (fun _ => rfl) he hr
  case alt =>
    intro as rs hnormal hrs h
    cases hnormal with
    | alt hlength _ _ =>
      have hne : rs ≠ [] := by
        rintro rfl
        rw [List.forall₂_nil_right_iff.1 h] at hlength
        simp at hlength
      rw [language_ofAlternatives
        (flatMap_alternatives_ne_nil hne fun r hr => (hrs r hr).hasAlternatives), language_alt,
        map_language_eq (h.imp fun _ _ h => h.2)]
  case seq =>
    intro es rs _ _ h
    rw [language_ofItems, language_seq, map_language_eq (h.imp fun _ _ h => h.2)]
  case vanished =>
    intro operand mark _ h
    rw [language_quant, ← h, language_empty, marked_one]
  case replaced =>
    intro operand mark inner _ _ _ h
    rw [language_quant, language_quant, h]

end Meaning

section Kept

variable {bodies : Table Expr}

theorem length_le_flatMap {f : Expr → List Expr} {rs : List Expr} (h : ∀ r ∈ rs, f r ≠ []) :
    rs.length ≤ (rs.flatMap f).length := by
  induction rs with
  | nil => exact Nat.le_refl 0
  | cons r rs ih =>
    have hr := List.length_pos_iff.2 (h r List.mem_cons_self)
    have hrs := ih fun r' hr' => h r' (List.mem_cons_of_mem r hr')
    simp only [List.flatMap_cons, List.length_append, List.length_cons]
    omega

/-- Joined alternatives vanish, or become quantified, only if one of them is nothing at all. -/
theorem exists_empty_of_ofAlternatives {rs : List Expr} (hlength : 2 ≤ rs.length)
    (hnormal : ∀ r ∈ rs, r.IsNormal)
    (h : ofAlternatives rs = empty ∨ (ofAlternatives rs).isQuant = true) : empty ∈ rs := by
  by_contra hempty
  have hspliced : 2 ≤ (rs.flatMap alternatives).length :=
    hlength.trans (length_le_flatMap fun r hr => alternatives_ne_nil (hnormal r hr).hasAlternatives)
  have halt : ofAlternatives rs = .alt (rs.flatMap alternatives) := by
    rw [ofAlternatives_of_not_mem hnormal hempty]
    rcases hl : rs.flatMap alternatives with _ | ⟨a, _ | ⟨b, l⟩⟩
    · simp [hl] at hspliced
    · simp [hl] at hspliced
    · rfl
  rw [halt] at h
  rcases h with h | h
  · simp [empty] at h
  · simp [isQuant] at h

theorem items_ne_nil {e : Expr} (h : e ≠ empty) : e.items ≠ [] := by
  cases e with
  | seq es =>
    rintro rfl
    exact h rfl
  | _ => simp [items]

theorem exists_empty_of_ofItems {rs : List Expr} (hlength : 2 ≤ rs.length)
    (h : ofItems rs = empty ∨ (ofItems rs).isQuant = true) : empty ∈ rs := by
  by_contra hempty
  have hspliced : 2 ≤ (rs.flatMap items).length :=
    hlength.trans (length_le_flatMap fun r hr => items_ne_nil fun e => hempty (e ▸ hr))
  obtain ⟨e, he, -⟩ | ⟨-, hseq⟩ := ofItems_cases rs
  · simp [he] at hspliced
  · rw [hseq] at h
    rcases h with h | h
    · simp only [empty, Expr.seq.injEq] at h
      simp [h] at hspliced
    · simp [isQuant] at h

/-- An expression vanishes in a pass only if it mentions a name whose body is nothing at all. -/
theorem exists_empty_body_of_vanished (hbodies : NormalBodies bodies) {e : Expr} (he : e.IsNormal)
    (hne : e ≠ empty) (h : substitute bodies e = .ok empty) :
    ∃ n ∈ e.references, bodies.find? n = some empty := by
  refine substitute_induct hbodies (motive := fun e r => e ≠ empty → r = empty →
    ∃ n ∈ e.references, bodies.find? n = some empty) ?alt ?seq ?blocked ?vanished ?replaced ?body
    (fun _ _ _ hr => by simp [empty] at hr) (fun _ _ hr => by simp [empty] at hr) he h hne rfl
  case alt =>
    intro as rs hnormal hrs hpairs _ hr
    cases hnormal with
    | alt hlength _ hplain =>
      have hempty := exists_empty_of_ofAlternatives (hpairs.length_eq ▸ hlength) hrs (.inl hr)
      obtain ⟨a, ha, -, hmotive⟩ := exists_mem_of_forall₂ hpairs hempty
      obtain ⟨n, hn, hbody⟩ := hmotive (hplain a ha).2 rfl
      exact ⟨n, mem_referencesAll ha hn, hbody⟩
  case seq =>
    intro es rs hnormal _ hpairs hne hr
    cases hnormal with
    | seq hlength _ hplain =>
      have hpos : es.length ≠ 0 := fun h => hne (by rw [List.length_eq_zero_iff.1 h, empty])
      have hrs := hpairs.length_eq
      have hempty := exists_empty_of_ofItems (by omega) (.inl hr)
      obtain ⟨e, he, -, hmotive⟩ := exists_mem_of_forall₂ hpairs hempty
      obtain ⟨n, hn, hbody⟩ := hmotive (ne_empty_of_isSeq (hplain e he)) rfl
      exact ⟨n, mem_referencesAll he hn, hbody⟩
  case blocked => exact fun _ _ _ _ _ hr => by simp [empty] at hr
  case vanished =>
    exact fun _ _ hnormal hmotive _ _ => hmotive hnormal.operand.2.2 rfl
  case replaced => exact fun _ _ _ _ _ _ _ _ hr => by simp [empty] at hr
  case body =>
    intro name b hb _ hr
    exact ⟨name, by simp [references], by rw [hb, hr]⟩

/-- An operand is blocked when it is a name with a quantified body, or when it is made up of several
parts of which some vanish. -/
theorem Blocked.exists_body (hbodies : NormalBodies bodies) {operand : Expr} {mark : String}
    (hnormal : IsNormal (.quant operand mark)) (h : Blocked bodies operand) :
    (∃ n b, operand = .ref n ∧ bodies.find? n = some b ∧ b.isQuant = true) ∨
      operand.isAtom = false ∧ ∃ n ∈ operand.references, bodies.find? n = some empty := by
  obtain ⟨inner, hinner, hquant⟩ := h
  obtain ⟨hoperand, hplain⟩ := hnormal.operand
  refine substitute_induct hbodies (motive := fun e r => e.isQuant = false ∧ e ≠ empty →
    r.isQuant = true → (∃ n b, e = .ref n ∧ bodies.find? n = some b ∧ b.isQuant = true) ∨
      e.isAtom = false ∧ ∃ n ∈ e.references, bodies.find? n = some empty) ?alt ?seq ?blocked
    ?vanished ?replaced ?body (fun _ _ _ hr => by simp [isQuant] at hr)
    (fun _ _ hr => by simp [isQuant] at hr) hoperand hinner hplain hquant
  case alt =>
    intro as rs hnormal hrs hpairs _ hr
    cases hnormal with
    | alt hlength hnormal hplain =>
      have hempty := exists_empty_of_ofAlternatives (hpairs.length_eq ▸ hlength) hrs (.inr hr)
      obtain ⟨a, ha, hsub, -⟩ := exists_mem_of_forall₂ hpairs hempty
      obtain ⟨n, hn, hbody⟩ :=
        exists_empty_body_of_vanished hbodies (hnormal a ha) (hplain a ha).2 hsub
      exact .inr ⟨rfl, n, mem_referencesAll ha hn, hbody⟩
  case seq =>
    intro es rs hnormal _ hpairs hne hr
    cases hnormal with
    | seq hlength hnormal hplain =>
      have hpos : es.length ≠ 0 := fun h => hne.2 (by rw [List.length_eq_zero_iff.1 h, empty])
      have hrs := hpairs.length_eq
      have hempty := exists_empty_of_ofItems (by omega) (.inr hr)
      obtain ⟨e, he, hsub, -⟩ := exists_mem_of_forall₂ hpairs hempty
      obtain ⟨n, hn, hbody⟩ := exists_empty_body_of_vanished hbodies (hnormal e he)
        (ne_empty_of_isSeq (hplain e he)) hsub
      exact .inr ⟨rfl, n, mem_referencesAll he hn, hbody⟩
  case blocked => exact fun _ _ _ _ hplain => by simp [isQuant] at hplain
  case vanished => exact fun _ _ _ _ hplain => by simp [isQuant] at hplain
  case replaced => exact fun _ _ _ _ _ _ _ hplain => by simp [isQuant] at hplain
  case body => exact fun name b hb _ hr => .inl ⟨name, b, rfl, hb, hr⟩

end Kept

end GrammarOutline.Expr
