import GrammarOutline.Proofs.Definition.Expected

/-!
# The first token that cannot come

Tokens run from context to context as long as some text starts with them, and the roles of a context
are those that may follow. So a text without a derivation is refused at the first token with which
no text goes on, and the fault lists the roles that may follow the tokens before it, each of them
once.
-/
namespace GrammarOutline.Definition

open Parsing

section Contexts

variable {ts front : List Token} {roles : List Role} {role : Role} {context : Context}

/-- Tokens are read to the end, or the reading gets stuck. -/
theorem run_definitions_cases (tokens : List Token) :
    (∃ raw next hint, definitions.run rules tokens 0 = .success raw next hint) ∨
    ∃ front rest roles context f, definitions.run rules tokens 0 = .failure f ∧
      tokens = front ++ rest ∧ Run .top front roles context ∧ context ≠ .finished ∧
      (∀ t ∈ rest.head?, ∀ role stop, ¬Step context t role stop) ∧
      f.expected = (expecting context.roles front.length).expected ∧ f.position = front.length := by
  have hne := Parsing.notLeftRecursive_definition.run_ne_exhausted definitions
    (Nat.zero_le tokens.length)
  have hensures : (definitions.run rules tokens 0).Ensures (fun _ _ => True)
      (Stuck .top (Cursor.ofPosition tokens 0)) := ensures_definitions (alternationEnsures _) _
  cases hrun : definitions.run rules tokens 0 with
  | success raw next hint => exact .inl ⟨raw, next, hint, rfl⟩
  | exhausted => exact absurd hrun hne
  | failure f =>
    rw [hrun, Reply.ensures_failure] at hensures
    obtain ⟨context, next, ⟨front, rest, roles, hrest, rfl, hrun'⟩, hhalts, hcontext,
      hexpected, hposition⟩ := hensures
    have hplace : ((Cursor.ofPosition tokens 0).advance front.length).position = front.length := by
      rw [position_advance, Cursor.position_ofPosition, Nat.zero_add]
    rw [hplace] at hexpected hposition
    rw [Halts, Cursor.rest_advance hrest] at hhalts
    exact .inr ⟨front, rest, roles, context, f, rfl, hrest, hrun', hcontext, hhalts,
      hexpected, hposition⟩

theorem Run.exists_derivation (h : Run .top ts roles .finished) :
    ∃ d : TextDerivation, d.tokens = ts ∧ d.roles = roles := by
  rcases run_definitions_cases ts with ⟨raw, next, hint, hrun⟩ |
    ⟨front, rest, roles', context, f, -, rfl, hfront, hcontext, hhalts, -⟩
  · obtain ⟨d, htokens, -⟩ := exists_derivation_of_accepts ⟨hint, hrun⟩
    have hts : ts = d.tokens ++ next.rest := htokens
    rw [hts] at h
    obtain ⟨roles', mid, back, rfl, hd, hback⟩ := h.exists_of_append
    obtain ⟨rfl, rfl⟩ := hd.unique d.run
    obtain hnil := hback.eq_nil_of_finished
    rw [hnil] at hback hts
    cases hback
    exact ⟨d, by rw [hts, List.append_nil], by rw [List.append_nil]⟩
  · obtain ⟨front', mid, back, -, hfront', hback⟩ := h.exists_of_append
    obtain ⟨-, rfl⟩ := hfront.unique hfront'
    cases hback with
    | nil => exact absurd rfl hcontext
    | cons first _ => exact absurd first (hhalts _ rfl _ _)

theorem viable_iff : Viable front ↔ ∃ roles context, Run .top front roles context := by
  constructor
  · rintro ⟨d, more, hmore⟩
    have hrun := d.run
    rw [← hmore] at hrun
    obtain ⟨roles, context, -, -, hfront, -⟩ := hrun.exists_of_append
    exact ⟨roles, context, hfront⟩
  · rintro ⟨roles, context, hfront⟩
    obtain ⟨ts, roles', hmore⟩ := exists_run_finished context
    obtain ⟨d, htokens, -⟩ := (hfront.append hmore).exists_derivation
    exact ⟨d, ts, htokens.symm⟩

theorem mayFollow_iff (h : Run .top front roles context) :
    MayFollow front role ↔ role ∈ context.roles := by
  constructor
  · rintro ⟨d, ⟨more, hmore⟩, hrole⟩
    have hrun := d.run
    rw [← hmore] at hrun
    obtain ⟨before, mid, back, hroles, hfront, hback⟩ := hrun.exists_of_append
    obtain ⟨-, rfl⟩ := h.unique hfront
    rw [hroles, ← hfront.length_eq, List.getElem?_append_right (Nat.le_refl _),
      Nat.sub_self] at hrole
    cases hback with
    | nil => simp at hrole
    | cons first _ =>
      obtain rfl := Option.some.inj hrole
      exact first.role_mem
  · intro hmem
    obtain ⟨t, stop, hstep⟩ := exists_step_of_mem hmem
    obtain ⟨ts, roles', hmore⟩ := exists_run_finished stop
    obtain ⟨d, htokens, hroles⟩ := (h.append (.cons hstep hmore)).exists_derivation
    refine ⟨d, ⟨t :: ts, htokens.symm⟩, ?_⟩
    rw [hroles, ← h.length_eq, List.getElem?_append_right (Nat.le_refl _), Nat.sub_self]
    rfl

end Contexts

section Texts

variable {source : List Char} {roles : List Role} {context : Context}

/-- The end of a text leads to the last context. -/
theorem Run.eq_finished_of_scan (h : Run .top (Token.scan source) roles context)
    (hlexical : ∀ t ∈ Token.scan source, t.kind ≠ .malformed) : context = .finished := by
  obtain ⟨ts, last, hscan, -, hlast⟩ := Token.exists_scanFrom 0 source
  rw [Token.scan, hscan] at h hlexical
  have hfinish : last.kind = .finish := hlast.resolve_right (hlexical last (by simp))
  obtain ⟨_, mid, _, -, -, hback⟩ := h.exists_of_append
  cases hback with
  | cons first others =>
    cases others
    cases first <;> simp_all [IsSign, IsMark, IsTerminal]

theorem offsetAt_append (front rest : List Token) (t : Token) :
    offsetAt (front ++ t :: rest) front.length = t.offset := by
  simp [offsetAt]

theorem read_eq_error {f : Failure} (hlexical : ∀ t ∈ Token.scan source, t.kind ≠ .malformed)
    (hdepth : tooDeep? 0 (Token.scan source) = none)
    (hrun : definitions.run rules (Token.scan source) 0 = .failure f) :
    Definitions.read source = .error (.unexpected f.expected
      (Place.inSource source (offsetAt (Token.scan source) f.position))) := by
  have hfault := (Token.fault?_scan_eq_none_iff source).2 hlexical
  simp only [Definitions.read, readRaw, hfault, hdepth, hrun, Except.bind]

/-- The text is refused at its first impossible token: some text starts with the tokens before it,
and none goes on with it. The fault expects the roles that may follow the tokens before, each of
them once and in the order of the context to which these lead. -/
structure RefusedAt (source : List Char) (expected : String) (front : List Token) (t : Token)
    (rest : List Token) : Prop where
  scan_eq : Token.scan source = front ++ t :: rest
  read_eq :
    Definitions.read source = .error (.unexpected expected (Place.inSource source t.offset))
  viable : Viable front
  impossible : ¬Viable (front ++ [t])
  nodup : (alternatives expected).Nodup
  mem_iff : ∀ text, text ∈ alternatives expected ↔
    ∃ role : Role, role.expectation = text ∧ MayFollow front role
  eq_roles : ∃ roles context, Run .top front roles context ∧
    alternatives expected = context.roles.map Role.expectation

/-- A text of proper tokens, with no group too deep, that has no derivation is refused at its first
impossible token. -/
theorem read_refuses_first_impossible (hlexical : ∀ t ∈ Token.scan source, t.kind ≠ .malformed)
    (hdepth : tooDeep? 0 (Token.scan source) = none)
    (hnone : ¬∃ d : TextDerivation, d.tokens = Token.scan source) :
    ∃ expected front t rest, RefusedAt source expected front t rest := by
  rcases run_definitions_cases (Token.scan source) with ⟨raw, next, hint, hrun⟩ |
    ⟨front, rest, roles, context, f, hrun, htokens, hfront, hcontext, hhalts, hexpected, hposition⟩
  · obtain ⟨d, hd, -⟩ := exists_derivation_of_accepts ⟨hint, hrun⟩
    have hscan : Token.scan source = d.tokens ++ next.rest := hd
    rw [eq_nil_of_scan d.isFinish hscan, List.append_nil] at hscan
    exact absurd ⟨d, hscan.symm⟩ hnone
  · cases rest with
    | nil =>
      rw [List.append_nil] at htokens
      exact absurd ((htokens ▸ hfront).eq_finished_of_scan hlexical) hcontext
    | cons t rest =>
      have hread := read_eq_error hlexical hdepth hrun
      rw [hposition, htokens, offsetAt_append] at hread
      have hlist : alternatives f.expected = context.roles.map Role.expectation := by
        rw [hexpected, alternatives_expecting (Context.roles_ne_nil hcontext)]
      refine ⟨f.expected, front, t, rest, ?_⟩
      constructor
      case scan_eq => exact htokens
      case read_eq => exact hread
      case viable => exact viable_iff.2 ⟨roles, context, hfront⟩
      case impossible =>
        rw [viable_iff]
        rintro ⟨_, stop, hrun'⟩
        obtain ⟨_, mid, _, -, hfront', hback⟩ := hrun'.exists_of_append
        obtain ⟨-, rfl⟩ := hfront.unique hfront'
        cases hback with
        | cons first _ => exact hhalts t rfl _ _ first
      case nodup =>
        rw [hlist, List.nodup_map_iff Role.expectation_injective]
        exact context.nodup_roles
      case mem_iff =>
        intro text
        rw [hlist, List.mem_map]
        exact exists_congr fun role => by rw [mayFollow_iff hfront, and_comm]
      case eq_roles => exact ⟨roles, context, hfront, hlist⟩

/-- A group that is still open where the definition ends. -/
theorem read_refuses_first_impossible_openGroup :
    let source := "a ::= ( b c ;".toList
    (∀ t ∈ Token.scan source, t.kind ≠ .malformed) ∧ tooDeep? 0 (Token.scan source) = none ∧
    (¬∃ d : TextDerivation, d.tokens = Token.scan source) ∧
    ∃ expected front t rest, RefusedAt source expected front t rest := by
  intro source
  have hlexical : ∀ t ∈ Token.scan source, t.kind ≠ .malformed := by decide +kernel
  have hdepth : tooDeep? 0 (Token.scan source) = none := by decide +kernel
  have hnone : ¬∃ d : TextDerivation, d.tokens = Token.scan source := by
    rintro ⟨d, hd⟩
    have hread := readRaw_eq_ok_iff.2 ⟨d, hd, d.shallow_of_tooDeep? (hd ▸ hdepth), rfl⟩
    have hrefused : (readRaw source).isOk = false := by decide +kernel
    rw [hread] at hrefused
    exact absurd hrefused (by simp [Except.isOk, Except.toBool])
  exact ⟨hlexical, hdepth, hnone, read_refuses_first_impossible hlexical hdepth hnone⟩

example : (readRaw "a ::= ( b c ;".toList).map (fun _ => ()) = .error (.unexpected
    "quantifier or atom or '|' or ')'" (Place.inSource "a ::= ( b c ;".toList 12)) := by
  decide +kernel

end Texts

end GrammarOutline.Definition
