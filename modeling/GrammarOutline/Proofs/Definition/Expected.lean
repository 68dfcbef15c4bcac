import GrammarOutline.Proofs.Definition.Acceptance
import GrammarOutline.Proofs.Definition.Roles
import GrammarOutline.Proofs.Parsing.Hints
import GrammarOutline.Proofs.Parsing.Replies

/-!
# What is expected where a text cannot go on

A parser of the grammar takes tokens from context to context. It gets stuck only at a token that
cannot come next in the context, and the hints that are left there list all the roles that could. So
a text that has no derivation is refused at the first token that no text has there, and the fault
names each role that may follow the tokens before it.
-/
namespace GrammarOutline.Definition

open Parsing

section Expectations

variable {roles : List Role} {role : Role} {position : Int}

/-- The failure that expects any of some roles, and can be backed out of. -/
def expecting (roles : List Role) (position : Int) : Failure :=
  Failure.expecting (roles.map Role.expectation) position

theorem Role.isSingle_expectation (role : Role) : IsSingle role.expectation := by
  cases role <;> decide +kernel

theorem Role.expectation_injective : Function.Injective Role.expectation := by
  intro a b h
  cases a <;> cases b <;> first | rfl | exact absurd h (by decide)

/-- The roles that are expected can be told from the wording. -/
theorem alternatives_expecting (hne : roles ≠ []) :
    alternatives (expecting roles position).expected = roles.map Role.expectation :=
  alternatives_intercalate (by simpa using hne) (by simp [Role.isSingle_expectation])

theorem merge_expecting (hne : roles ≠ []) (hnew : role ∉ roles) :
    (expecting roles position).merge (expecting [role] position) =
      expecting (roles ++ [role]) position := by
  have hnew : role.expectation ∉ roles.map Role.expectation := by
    rw [List.mem_map_of_injective Role.expectation_injective]
    exact hnew
  rw [expecting, expecting, expecting, List.map_singleton,
    Failure.merge_expecting (by simpa using hne) (by simp [Role.isSingle_expectation]) hnew,
    List.map_append, List.map_singleton]

end Expectations

section Places

variable {start mid stop : Context} {c cmid next : Cursor Token} {t : Token}
  {rest : List Token} {role : Role} {f : Failure} {groups : Nat} {operand : Bool}

/-- The tokens between two cursors lead from a context to another one. -/
def Leads (start : Context) (c : Cursor Token) (stop : Context) (next : Cursor Token) : Prop :=
  ∃ ts rest roles, c.rest = ts ++ rest ∧ next = c.advance ts.length ∧ Run start ts roles stop

theorem Leads.refl (context : Context) (c : Cursor Token) : Leads context c context c :=
  ⟨[], c.rest, [], rfl, (Cursor.advance_zero c).symm, .nil⟩

theorem Leads.trans (h : Leads start c mid cmid) (hmore : Leads mid cmid stop next) :
    Leads start c stop next := by
  obtain ⟨ts, rest, roles, hrest, rfl, hrun⟩ := h
  obtain ⟨us, rest', roles', hrest', rfl, hrun'⟩ := hmore
  rw [Cursor.rest_advance hrest] at hrest'
  subst hrest'
  refine ⟨ts ++ us, rest', roles ++ roles', by rw [hrest, List.append_assoc], ?_, hrun.append hrun'⟩
  rw [Cursor.advance_advance, List.length_append]

theorem Leads.of_step (hrest : c.rest = t :: rest) (h : Step start t role stop) :
    Leads start c stop (c.advance 1) :=
  ⟨[t], rest, [role], hrest, rfl, .single h⟩

theorem position_advance (c : Cursor Token) (count : Nat) :
    (c.advance count).position = c.position + count := by
  simp only [Cursor.position, Cursor.advance]
  omega

theorem Leads.position_le (h : Leads start c stop next) : c.position ≤ next.position := by
  obtain ⟨ts, -, -, -, rfl, -⟩ := h
  rw [position_advance]
  omega

theorem Leads.size_lt (h : Leads start c stop next) (hpast : c.position < next.position) :
    next.size < c.size := by
  obtain ⟨ts, rest, -, hrest, rfl, -⟩ := h
  rw [position_advance] at hpast
  refine Cursor.size_advance_lt (by omega) ?_
  rw [hrest, List.length_append]
  omega

/-- The next token cannot come in the context. -/
def Halts (context : Context) (c : Cursor Token) : Prop :=
  ∀ t ∈ c.rest.head?, ∀ role stop, ¬Step context t role stop

/-- The failure is at a token that cannot come next, and it expects the roles that can. -/
def Stuck (start : Context) (c : Cursor Token) (f : Failure) : Prop :=
  ∃ stop next, Leads start c stop next ∧ Halts stop next ∧ stop ≠ .finished ∧
    f.expected = (expecting stop.roles next.position).expected ∧ f.position = next.position

theorem Stuck.of_leads (h : Leads start c mid cmid) (hstuck : Stuck mid cmid f) :
    Stuck start c f := by
  obtain ⟨stop, next, hmore, hstuck⟩ := hstuck
  exact ⟨stop, next, h.trans hmore, hstuck⟩

/-- No operand starts at the cursor, and after an operand there is no mark. -/
def Closed (operand : Bool) (c : Cursor Token) : Prop :=
  ∀ t ∈ c.rest.head?, ¬StartsAtom t ∧ (operand = true → ¬IsMark t)

/-- A sign that closes the body or a group. -/
def IsCloser : (groups : Nat) → Token → Prop
  | 0 => IsSign ";"
  | _ + 1 => IsSign ")"

/-- A body goes on with marks, operands, bars and its closer only. -/
theorem Closed.halts (h : Closed operand c) (hbar : ∀ t ∈ c.rest.head?, ¬IsSign "|" t)
    (hcloser : ∀ t ∈ c.rest.head?, ¬IsCloser groups t) : Halts (.body groups operand) c := by
  intro t ht role stop hstep
  obtain ⟨hatom, hmark⟩ := h t ht
  cases hstep with
  | quantifier isMark => exact hmark rfl isMark
  | operand isOperand =>
    exact hatom (by rcases isOperand with h | h; exacts [.inl h, .inr (.inl h)])
  | opening opens => exact hatom (.inr (.inr opens))
  | bar isSign => exact hbar t ht isSign
  | closing closes => exact hcloser t ht closes
  | stop isStop => exact hcloser t ht isStop

end Places

section Tokens

variable {call : (i : Fin 1) → Cursor Token → Reply Token Expr} {c : Cursor Token}
  {start stop : Context} {role : Role} {failed : Failure → Prop}

theorem ensures_symbol_step {accepts : Token → Bool} {expected : String}
    (hstep : ∀ t, accepts t = true → Step start t role stop) :
    ((Parser.symbol accepts expected : TokenParser Token).runWith call c).Ensures
      (Past c (Leads start c stop))
      (Expects c failed [expected] (∀ t ∈ c.rest.head?, accepts t = false)) := by
  refine ensures_symbol (fun t rest hrest ht => ?_) fun hnone => ?_
  · refine ⟨.of_step hrest (hstep t ht), ?_, before_none⟩
    rw [position_advance]
    omega
  · rw [Expects, if_neg (by simp)]
    exact ⟨by simp [Failure.expecting], hnone⟩

theorem ensures_sign {text : String} (hstep : ∀ t, IsSign text t → Step start t role stop) :
    ((sign text).runWith call c).Ensures (Past c (Leads start c stop))
      (Expects c failed [Text.quote text] (∀ t ∈ c.rest.head?, ¬IsSign text t)) := by
  refine (ensures_symbol_step fun t ht => hstep t (by simpa [IsSign] using ht)).mono_failed
    fun f hf => hf.imp fun hnone t ht => ?_
  simpa [IsSign] using hnone t ht

theorem ensures_tokenOf {kind : Token.Kind} {expected : String}
    (hstep : ∀ t, t.kind = kind → Step start t role stop) :
    ((tokenOf kind expected).runWith call c).Ensures (Past c (Leads start c stop))
      (Expects c failed [expected] (∀ t ∈ c.rest.head?, t.kind ≠ kind)) := by
  refine (ensures_symbol_step fun t ht => hstep t (by simpa using ht)).mono_failed
    fun f hf => hf.imp fun hnone t ht => ?_
  simpa using hnone t ht

theorem ensures_quantifier (groups : Nat) (failed : Failure → Prop) :
    (quantifier.runWith call c).Ensures (Past c (Leads (.body groups true) c (.body groups true)))
    (Expects c failed ["quantifier"] (∀ t ∈ c.rest.head?, ¬IsMark t)) := by
  have hsign : ∀ text ∈ ["?", "*", "+"], ((sign text).runWith call c).Ensures
      (Past c (Leads (.body groups true) c (.body groups true)))
      (FailsAt c failed (∀ t ∈ c.rest.head?, ¬IsSign text t)) := by
    intro text htext
    refine (ensures_sign fun t ht => .quantifier ?_).mono_failed fun f hf => hf.failsAt
    simp only [List.mem_cons, List.not_mem_nil, or_false] at htext
    rcases htext with rfl | rfl | rfl
    exacts [.inl ht, .inr (.inl ht), .inr (.inr ht)]
  refine (ensures_label_at (ensures_either_at (ensures_either_at (hsign "?" (by simp))
    fun _ => hsign "*" (by simp)) fun _ => hsign "+" (by simp))).mono_failed fun f hf => hf.imp ?_
  rintro ⟨⟨hopt, hstar⟩, hplus⟩ t ht (hmark | hmark | hmark)
  exacts [hopt t ht hmark, hstar t ht hmark, hplus t ht hmark]

/-- All the marks after an operand are taken, and one more is expected. -/
theorem ensures_marks (groups : Nat) : ((Parser.many quantifier).runWith call c).Ensures
    (fun next hint => Leads (.body groups true) c (.body groups true) next ∧
      (∀ t ∈ next.rest.head?, ¬IsMark t) ∧ hint = some (expecting [.quantifier] next.position))
    fun _ => False := by
  refine ensures_many (fun mid hint => Leads (.body groups true) c (.body groups true) mid ∧
    Before hint mid) ["quantifier"] (fun mid => ∀ t ∈ mid.rest.head?, ¬IsMark t)
    (fun mid hint hmid => ?_) (fun mid hint hmid hnone => ?_) ⟨.refl _ _, before_none⟩
  · refine (ensures_quantifier groups _).mono (fun next hint' hnext => ?_) fun f hf => hf
    obtain ⟨hmore, hpast, hbefore⟩ := hnext
    exact ⟨hmore.size_lt hpast, hmid.1.trans hmore, hbefore⟩
  · exact ⟨hmid.1, hnone, congrArg some (hmid.2.mergeInto _)⟩

end Tokens

section Levels

variable {call : (i : Fin 1) → Cursor Token → Reply Token Expr} {c : Cursor Token}
  {start mid stop : Context} {groups : Nat}

theorem quote_signs : Text.quote "::=" = Role.expectation .definingSign ∧
    Text.quote "|" = Role.expectation .bar ∧ Text.quote ")" = Role.expectation .closing := by
  decide +kernel

/-- A commit point leaves a failure where it is stuck. -/
theorem ensures_commit_stuck {α : Type} {p : TokenParser α}
    {read : Cursor Token → Option Failure → Prop}
    (h : (p.runWith call c).Ensures read (Stuck start c)) :
    ((Parser.commit p).runWith call c).Ensures read
      fun f => Stuck start c f ∧ f.committed = true := by
  refine ensures_commit (h.mono_failed fun f hf => ?_)
  split_ifs with hcommitted
  · exact ⟨hf, hcommitted⟩
  · exact ⟨hf, rfl⟩

/-- A parser that gets stuck after another one gets stuck behind it: what was expected before plays
no part. -/
theorem ensures_both_stuck {α β : Type} {p : TokenParser α} {q : TokenParser β}
    {failed furthest : Failure → Prop}
    (hp : (p.runWith call c).Ensures (Past c (Leads start c mid)) failed)
    (hq : ∀ cmid, (q.runWith call cmid).Ensures (Past cmid (Leads mid cmid stop))
      fun f => Stuck mid cmid f ∧ furthest f)
    (hfailed : ∀ f, Stuck start c f → furthest f → failed f) :
    ((Parser.both p q).runWith call c).Ensures (Past c (Leads start c stop)) failed := by
  refine ensures_both (hp.mono (fun cmid hint hmid => ?_) fun f hf => hf)
  obtain ⟨hleads, hpast, hbefore⟩ := hmid
  refine (hq cmid).mono (fun next hint' hnext => ?_) fun f hf => ?_
  · obtain ⟨hmore, hpast', hbefore'⟩ := hnext
    exact ⟨hleads.trans hmore, Nat.lt_trans hpast hpast',
      (hbefore.mono (Nat.le_of_lt hpast')).join hbefore'⟩
  · obtain ⟨hstuck, hfurthest⟩ := hf
    have hmerge : Failure.mergeInto hint f = f := by
      obtain ⟨stop, next, hmore, -, -, -, hposition⟩ := hstuck
      refine Failure.mergeInto_of_forall_lt fun g hg => ?_
      rw [hposition]
      exact Int.lt_of_lt_of_le (hbefore g hg) (Int.ofNat_le.2 hmore.position_le)
    rw [hmerge, ite_self]
    exact hfailed f (hstuck.of_leads hleads) hfurthest

/-- What a choice leaves: nothing that goes on with it stands at the cursor, and what could stand
there is expected, but for the sign that closes it. -/
def AfterAlternation (groups : Nat) (c next : Cursor Token) (hint : Option Failure) : Prop :=
  ∃ operand, Leads (.body groups false) c (.body groups operand) next ∧ Closed operand next ∧
    (∀ t ∈ next.rest.head?, ¬IsSign "|" t) ∧
    hint = some (expecting (Role.ofOperand operand ++ [.bar]) next.position)

/-- A choice ends where it cannot go on, or it gets stuck in a group. -/
def AlternationEnsures (call : (i : Fin 1) → Cursor Token → Reply Token Expr) : Prop :=
  ∀ groups c, (alternation.runWith call c).Ensures (AfterAlternation groups c)
    fun f => Stuck (.body groups false) c f ∧ f.committed = true

/-- Where the sign that closes a choice is missing, all that could stand there is expected. -/
theorem ensures_closed (h : AlternationEnsures call) {closer : TokenParser Token}
    (hcloser : ∀ c operand failed, (closer.runWith call c).Ensures
      (Past c (Leads (.body groups operand) c stop))
      (Expects c failed [(Role.closer groups).expectation]
        (∀ t ∈ c.rest.head?, ¬IsCloser groups t))) :
    ((alternation.left closer).runWith call c).Ensures (Past c (Leads (.body groups false) c stop))
      (Stuck (.body groups false) c) := by
  refine ensures_map (ensures_both ((h groups c).mono (fun cmid hint hmid => ?_) fun f hf => hf.1))
  obtain ⟨operand, hleads, hclosed, hbar, rfl⟩ := hmid
  refine (hcloser cmid operand fun _ => False).mono (fun next hint' hnext => ?_) fun f hf => ?_
  · obtain ⟨hmore, hpast, hbefore⟩ := hnext
    exact ⟨hleads.trans hmore, Nat.lt_of_le_of_lt hleads.position_le hpast,
      (before_some rfl hpast).join hbefore⟩
  · rw [Expects] at hf
    split_ifs at hf ⊢
    obtain ⟨rfl, hnone⟩ := hf
    have hnew : Role.closer groups ∉ Role.ofOperand operand ++ [.bar] := by
      cases groups <;> cases operand <;> simp [Role.closer, Role.ofOperand]
    have hmerge : Failure.mergeInto
        (some (expecting (Role.ofOperand operand ++ [.bar]) cmid.position))
        (Failure.expecting [(Role.closer groups).expectation] cmid.position) =
          expecting (Context.body groups operand).roles cmid.position := by
      have hroles : (Context.body groups operand).roles =
          Role.ofOperand operand ++ [.bar] ++ [Role.closer groups] := by simp [Context.roles]
      rw [hroles]
      exact merge_expecting (by simp) hnew
    rw [hmerge]
    exact ⟨.body groups operand, cmid, hleads, hclosed.halts hbar hnone, by simp, rfl, rfl⟩

/-- A group is closed, or there is no way back out of it. -/
theorem ensures_group (h : AlternationEnsures call) (operand : Bool) :
    (group.runWith call c).Ensures (Past c (Leads (.body groups operand) c (.body groups true)))
    (FailsAt c (Stuck (.body groups operand) c) (∀ t ∈ c.rest.head?, ¬IsSign "(" t)) := by
  have hclosing : ∀ c operand failed, ((sign ")").runWith call c).Ensures
      (Past c (Leads (.body (groups + 1) operand) c (.body groups true)))
      (Expects c failed [(Role.closer (groups + 1)).expectation]
        (∀ t ∈ c.rest.head?, ¬IsCloser (groups + 1) t)) := by
    intro c operand failed
    rw [Role.closer, ← quote_signs.2.2]
    exact ensures_sign fun t ht => .closing ht
  refine ensures_map (ensures_both_stuck
    ((ensures_sign fun t ht => .opening ht).mono_failed fun f hf => hf.failsAt)
    (fun cmid => ensures_commit_stuck (ensures_closed h hclosing)) fun f hstuck hcommitted => ?_)
  rwa [FailsAt, if_pos hcommitted]

theorem ensures_atom (h : AlternationEnsures call) (groups : Nat) (operand : Bool)
    (c : Cursor Token) :
    (atom.runWith call c).Ensures (Past c (Leads (.body groups operand) c (.body groups true)))
      (Expects c (Stuck (.body groups operand) c) ["atom"]
        (∀ t ∈ c.rest.head?, ¬StartsAtom t)) := by
  have htoken : ∀ {kind : Token.Kind} {expected : String},
      (∀ t : Token, t.kind = kind → t.kind = .identifier ∨ IsTerminal t) →
      ((tokenOf kind expected).runWith call c).Ensures
        (Past c (Leads (.body groups operand) c (.body groups true)))
        (FailsAt c (Stuck (.body groups operand) c) (∀ t ∈ c.rest.head?, t.kind ≠ kind)) :=
    fun hkind => (ensures_tokenOf fun t ht => .operand (hkind t ht)).mono_failed
      fun f hf => hf.failsAt
  have hterminal : (terminal.runWith call c).Ensures _ _ :=
    ensures_map (ensures_either_at
      (ensures_either_at (htoken fun t ht => .inr (.inl ht))
        fun _ => htoken fun t ht => .inr (.inr (.inl ht)))
      fun _ => htoken fun t ht => .inr (.inr (.inr ht)))
  refine (ensures_label_at (ensures_either_at (ensures_either_at
    (ensures_map (htoken fun t ht => .inl ht)) fun _ => hterminal)
    fun _ => ensures_group h operand)).mono_failed fun f hf => hf.imp ?_
  rintro ⟨⟨hname, ⟨hcharacter, hstring⟩, hclass⟩, hopening⟩ t ht
    (hkind | (hkind | hkind | hkind) | hsign)
  exacts [hname t ht hkind, hcharacter t ht hkind, hstring t ht hkind, hclass t ht hkind,
    hopening t ht hsign]

theorem ensures_quantified (h : AlternationEnsures call) (groups : Nat) (operand : Bool)
    (c : Cursor Token) : (quantified.runWith call c).Ensures
      (fun next hint => Leads (.body groups operand) c (.body groups true) next ∧
        c.position < next.position ∧ (∀ t ∈ next.rest.head?, ¬IsMark t) ∧
        hint = some (expecting [.quantifier] next.position))
      (Expects c (Stuck (.body groups operand) c) ["atom"]
        (∀ t ∈ c.rest.head?, ¬StartsAtom t)) := by
  refine ensures_map (ensures_both ((ensures_atom h groups operand c).mono (fun mid hint hmid => ?_)
    fun f hf => hf))
  obtain ⟨hleads, hpast, hbefore⟩ := hmid
  refine (ensures_marks groups).mono (fun next hint' hnext => ?_) fun f hf => hf.elim
  obtain ⟨hmore, hnone, rfl⟩ := hnext
  have hle := hmore.position_le
  exact ⟨hleads.trans hmore, Nat.lt_of_lt_of_le hpast hle, hnone, (hbefore.mono hle).join_some _⟩

/-- A sequence ends where no operand follows, and it expects one. -/
theorem ensures_sequence (h : AlternationEnsures call) (groups : Nat) (c : Cursor Token) :
    (sequence.runWith call c).Ensures
      (fun next hint => ∃ operand, Leads (.body groups false) c (.body groups operand) next ∧
        Closed operand next ∧ hint = some (expecting (Role.ofOperand operand) next.position))
      fun f => Stuck (.body groups false) c f ∧ f.committed = true := by
  refine ensures_map (ensures_many
    (fun mid hint => ∃ operand, Leads (.body groups false) c (.body groups operand) mid ∧
      (operand = true → ∀ t ∈ mid.rest.head?, ¬IsMark t) ∧
      hint = if operand then some (expecting [.quantifier] mid.position) else none)
    ["atom"] (fun mid => ∀ t ∈ mid.rest.head?, ¬StartsAtom t)
    (fun mid hint hmid => ?_) (fun mid hint hmid hatom => ?_) ⟨false, .refl _ _, by simp, by simp⟩)
  · obtain ⟨operand, hleads, -, -⟩ := hmid
    refine (ensures_quantified h groups operand mid).mono (fun next hint' hnext => ?_) fun f hf =>
      hf.imp_failed fun hcommitted hstuck => ⟨hstuck.of_leads hleads, hcommitted⟩
    obtain ⟨hmore, hpast, hmark, rfl⟩ := hnext
    exact ⟨hmore.size_lt hpast, true, hleads.trans hmore, fun _ => hmark, rfl⟩
  · obtain ⟨operand, hleads, hmark, rfl⟩ := hmid
    refine ⟨operand, hleads, fun t ht => ⟨hatom t ht, fun ho => hmark ho t ht⟩, ?_⟩
    cases operand with
    | false => rfl
    | true =>
      have hmerge := @merge_expecting [.quantifier] .atom mid.position (by simp) (by simp)
      exact congrArg some hmerge

theorem ensures_bar (h : AlternationEnsures call) (groups : Nat) (operand : Bool)
    (c : Cursor Token) : (((sign "|").right sequence).runWith call c).Ensures
      (fun next hint => ∃ operand', Leads (.body groups operand) c (.body groups operand') next ∧
        c.position < next.position ∧ Closed operand' next ∧
        hint = some (expecting (Role.ofOperand operand') next.position))
      (Expects c (fun f => Stuck (.body groups operand) c f ∧ f.committed = true)
        [Role.expectation .bar] (∀ t ∈ c.rest.head?, ¬IsSign "|" t)) := by
  rw [← quote_signs.2.1]
  refine ensures_map (ensures_both ((ensures_sign fun t ht =>
    @Step.bar t groups operand ht).mono (fun mid hint hmid => ?_)
    fun f hf => hf))
  obtain ⟨hleads, hpast, hbefore⟩ := hmid
  refine (ensures_sequence h groups mid).mono (fun next hint' hnext => ?_) fun f hf => ?_
  · obtain ⟨operand', hmore, hclosed, rfl⟩ := hnext
    have hle := hmore.position_le
    exact ⟨operand', hleads.trans hmore, Nat.lt_of_lt_of_le hpast hle, hclosed,
      (hbefore.mono hle).join_some _⟩
  · obtain ⟨hstuck, hcommitted⟩ := hf
    rw [if_pos hcommitted, Expects, if_pos hcommitted]
    exact ⟨hstuck.of_leads hleads, hcommitted⟩

/-- The hint of the first sequence counts only while no bar has been taken. -/
theorem ensures_bars (h : AlternationEnsures call) {first : Bool} {cmid : Cursor Token}
    (hfirst : Leads (.body groups false) c (.body groups first) cmid)
    (hclosed : Closed first cmid) :
    ((Parser.many ((sign "|").right sequence)).runWith call cmid).Ensures
      (fun next hint => AfterAlternation groups c next
        (Failure.join (some (expecting (Role.ofOperand first) cmid.position)) hint))
      fun f => Stuck (.body groups false) c f ∧ f.committed = true := by
  refine ensures_many
    (fun next hint => ∃ operand, Leads (.body groups false) c (.body groups operand) next ∧
      Closed operand next ∧ (hint = none ∧ next = cmid ∧ operand = first ∨
        hint = some (expecting (Role.ofOperand operand) next.position) ∧
          cmid.position < next.position))
    [Role.expectation .bar] (fun next => ∀ t ∈ next.rest.head?, ¬IsSign "|" t)
    (fun next hint hnext => ?_) (fun next hint hnext hbar => ?_)
    ⟨first, hfirst, hclosed, .inl ⟨rfl, rfl, rfl⟩⟩
  · obtain ⟨operand, hleads, -, hhint⟩ := hnext
    refine (ensures_bar h groups operand next).mono (fun last hint' hlast => ?_) fun f hf =>
      hf.imp_failed fun _ hstuck => ⟨hstuck.1.of_leads hleads, hstuck.2⟩
    obtain ⟨operand', hmore, hpast, hclosed', rfl⟩ := hlast
    refine ⟨hmore.size_lt hpast, operand', hleads.trans hmore, hclosed', .inr ⟨rfl, ?_⟩⟩
    rcases hhint with ⟨-, rfl, -⟩ | ⟨-, hlt⟩
    · exact hpast
    · exact Nat.lt_trans hlt hpast
  · obtain ⟨operand, hleads, hclosed', hhint⟩ := hnext
    have hnew : .bar ∉ Role.ofOperand operand := by cases operand <;> decide
    have hne : Role.ofOperand operand ≠ [] := by cases operand <;> decide
    have hmerge : Failure.mergeInto (some (expecting (Role.ofOperand operand) next.position))
        (Failure.expecting [Role.expectation .bar] next.position) = _ := merge_expecting hne hnew
    refine ⟨operand, hleads, hclosed', hbar, ?_⟩
    rcases hhint with ⟨rfl, rfl, rfl⟩ | ⟨rfl, hlt⟩
    · exact congrArg some hmerge
    · rw [hmerge]
      exact (before_some rfl hlt).join_some _

/-- However often the rule may be entered, a choice gets stuck only at a token that cannot come
next. -/
theorem alternationEnsures (budget : Nat) : AlternationEnsures (callRule rules budget) := by
  induction budget with
  | zero => exact fun _ _ => trivial
  | succ budget ih =>
    intro groups c
    refine ensures_map (ensures_map (ensures_both ((ensures_sequence ih groups c).mono
      (fun mid hint hmid => ?_) fun f hf => hf)))
    obtain ⟨first, hfirst, hclosed, rfl⟩ := hmid
    exact (ensures_bars ih hfirst hclosed).mono_failed fun f hf => by rwa [if_pos hf.2]

end Levels

section Texts

variable {call : (i : Fin 1) → Cursor Token → Reply Token Expr}

/-- Behind its name a definition is read to its end, or it gets stuck. -/
theorem ensures_named (h : AlternationEnsures call) (c : Cursor Token) :
    (((sign "::=").right (alternation.left (.label (sign ";") "';' after definition"))).runWith
      call c).Ensures (Past c (Leads .named c .top)) (Stuck .named c) := by
  have hstop : ∀ c operand failed,
      ((Parser.label (sign ";") "';' after definition" : TokenParser Token).runWith call c).Ensures
        (Past c (Leads (.body 0 operand) c .top))
        (Expects c failed [(Role.closer 0).expectation] (∀ t ∈ c.rest.head?, ¬IsCloser 0 t)) :=
    fun c operand failed => ensures_label_at
      ((ensures_sign fun t ht => .stop ht).mono_failed fun f hf => hf.failsAt)
  have hclosed : ∀ c, ((alternation.left (.label (sign ";") "';' after definition")).runWith
      call c).Ensures (Past c (Leads (.body 0 false) c .top))
        fun f => Stuck (.body 0 false) c f ∧ True :=
    fun c => (ensures_closed h hstop).mono_failed fun f hf => ⟨hf, trivial⟩
  have hsign := @ensures_sign call c .named _ _ (fun _ => False) "::=" fun t ht => .definingSign ht
  refine ensures_map (ensures_both_stuck (hsign.mono_failed fun f hf => ?_) hclosed
    fun f hf _ => hf)
  rw [Expects, quote_signs.1] at hf
  split_ifs at hf
  obtain ⟨rfl, hnone⟩ := hf
  refine ⟨.named, c, .refl _ _, ?_, by simp, rfl, rfl⟩
  intro t ht role stop hstep
  cases hstep with
  | definingSign isSign => exact hnone t ht isSign

/-- A definition starts with its name. After that there is no way back. -/
theorem ensures_definition (h : AlternationEnsures call) (c : Cursor Token) :
    (definition.runWith call c).Ensures (Past c (Leads .top c .top))
      (Expects c (Stuck .top c) [Role.expectation .definitionName]
        (∀ t ∈ c.rest.head?, t.kind ≠ .identifier)) := by
  refine ensures_map (ensures_both_stuck
    (ensures_label_at ((ensures_tokenOf fun t ht => .definitionName ht).mono_failed
      fun f hf => hf.failsAt))
    (fun cmid => ensures_commit_stuck (ensures_named h cmid)) fun f hstuck hcommitted => ?_)
  rwa [Expects, if_pos hcommitted]

/-- Definitions are read to the end of the text, or they get stuck at a token that cannot come
next. -/
theorem ensures_definitions (h : AlternationEnsures call) (c : Cursor Token) :
    (definitions.runWith call c).Ensures (fun _ _ => True) (Stuck .top c) := by
  refine ensures_map (ensures_both (ensures_many
    (fun mid hint => Leads .top c .top mid ∧ Before hint mid) [Role.expectation .definitionName]
    (fun mid => ∀ t ∈ mid.rest.head?, t.kind ≠ .identifier)
    (fun mid hint hmid => ?_) (fun mid hint hmid hname => ?_) ⟨.refl _ _, before_none⟩))
  · refine (ensures_definition h mid).mono (fun next hint' hnext => ?_) fun f hf =>
      hf.imp_failed fun _ hstuck => hstuck.of_leads hmid.1
    obtain ⟨hmore, hpast, hbefore⟩ := hnext
    exact ⟨hmore.size_lt hpast, hmid.1.trans hmore, hbefore⟩
  · have hfinish := @ensures_tokenOf call mid .top _ _ (fun _ => False) .finish "end of input"
      fun t ht => .endOfInput ht
    refine hfinish.mono (fun _ _ _ => trivial) fun f hf => ?_
    rw [Expects] at hf
    split_ifs at hf ⊢
    obtain ⟨rfl, hnone⟩ := hf
    have hmerge : Failure.mergeInto
        (some (Failure.expecting [Role.expectation .definitionName] mid.position))
        (Failure.expecting ["end of input"] mid.position) =
        expecting Context.top.roles mid.position :=
      @merge_expecting [.definitionName] .endOfInput mid.position (by simp) (by simp)
    rw [hmid.2.mergeInto, hmerge]
    refine ⟨.top, mid, hmid.1, ?_, by simp, rfl, rfl⟩
    intro t ht role stop hstep
    cases hstep with
    | definitionName isName => exact hname t ht isName
    | endOfInput isFinish => exact hnone t ht isFinish

end Texts

end GrammarOutline.Definition
