import GrammarOutline.Proofs.Definition.Derivation

/-!
# Roles of tokens

Every token of a text has a role, which is read off the derivation of the text. The role of the next
token is one of a few, and these depend only on the context: whether a definition is begun, how many
groups are open and whether an operand has just ended. A text runs from context to context, with one
role for every token.
-/
namespace GrammarOutline.Definition

/-- What a token is in a text of definitions. -/
inductive Role where
  | definitionName
  | endOfInput
  | definingSign
  | quantifier
  | atom
  | bar
  | closing
  | stop
  deriving DecidableEq

/-- What a role is called where it is expected. -/
def Role.expectation : Role → String
  | .definitionName => "definition name"
  | .endOfInput => "end of input"
  | .definingSign => "'::='"
  | .quantifier => "quantifier"
  | .atom => "atom"
  | .bar => "'|'"
  | .closing => "')'"
  | .stop => "';' after definition"

/-- The roles of the tokens that are derived. The parenthesis that opens a group is the start of an
atom. -/
def Derivation.roles : {level : Level} → Derivation level → List Role
  | _, .last sequence => sequence.roles
  | _, .bar sequence _ _ others => sequence.roles ++ .bar :: others.roles
  | _, .nothing => []
  | _, .item quantified others => quantified.roles ++ others.roles
  | _, .marked atom marks _ => atom.roles ++ marks.map fun _ => .quantifier
  | _, .name _ _ => [.atom]
  | _, .terminal _ _ => [.atom]
  | _, .group _ _ inner _ _ => .atom :: (inner.roles ++ [.closing])

def Entry.roles (e : Entry) : List Role :=
  .definitionName :: .definingSign :: (e.body.roles ++ [.stop])

def TextDerivation.roles (d : TextDerivation) : List Role :=
  d.entries.flatMap Entry.roles ++ [.endOfInput]

/-- Some text starts with the tokens. -/
def Viable (front : List Token) : Prop := ∃ d : TextDerivation, front <+: d.tokens

/-- In some text that starts with the tokens, the next one has the role. -/
def MayFollow (front : List Token) (role : Role) : Prop :=
  ∃ d : TextDerivation, front <+: d.tokens ∧ d.roles[front.length]? = some role

/-- What is known of a text after some of its tokens. In a body some groups are open, and an operand
may just have ended. -/
inductive Context where
  | top
  | named
  | body (groups : Nat) (operand : Bool)
  | finished
  deriving DecidableEq

/-- The roles with which a body can go on. Only an operand can be marked. -/
def Role.ofOperand (operand : Bool) : List Role := if operand then [.quantifier, .atom] else [.atom]

/-- The role that closes a group, or the body when no group is open. -/
def Role.closer : (groups : Nat) → Role
  | 0 => .stop
  | _ + 1 => .closing

/-- The roles that the next token can have. -/
def Context.roles : Context → List Role
  | .top => [.definitionName, .endOfInput]
  | .named => [.definingSign]
  | .body groups operand => Role.ofOperand operand ++ [.bar, Role.closer groups]
  | .finished => []

/-- A token leads from a context to the next one, in a role. -/
inductive Step : Context → Token → Role → Context → Prop where
  | definitionName {t : Token} (isName : t.kind = .identifier) : Step .top t .definitionName .named
  | endOfInput {t : Token} (isFinish : t.kind = .finish) : Step .top t .endOfInput .finished
  | definingSign {t : Token} (isSign : IsSign "::=" t) : Step .named t .definingSign (.body 0 false)
  | quantifier {t : Token} {groups : Nat} (isMark : IsMark t) :
      Step (.body groups true) t .quantifier (.body groups true)
  | operand {t : Token} {groups : Nat} {operand : Bool}
      (isOperand : t.kind = .identifier ∨ IsTerminal t) :
      Step (.body groups operand) t .atom (.body groups true)
  | opening {t : Token} {groups : Nat} {operand : Bool} (opens : IsSign "(" t) :
      Step (.body groups operand) t .atom (.body (groups + 1) false)
  | bar {t : Token} {groups : Nat} {operand : Bool} (isSign : IsSign "|" t) :
      Step (.body groups operand) t .bar (.body groups false)
  | closing {t : Token} {groups : Nat} {operand : Bool} (closes : IsSign ")" t) :
      Step (.body (groups + 1) operand) t .closing (.body groups true)
  | stop {t : Token} {operand : Bool} (isStop : IsSign ";" t) : Step (.body 0 operand) t .stop .top

/-- The tokens lead from a context to another one, each in its role. -/
inductive Run : Context → List Token → List Role → Context → Prop where
  | nil {context : Context} : Run context [] [] context
  | cons {start mid stop : Context} {t : Token} {role : Role} {ts : List Token} {roles : List Role}
      (first : Step start t role mid) (others : Run mid ts roles stop) :
      Run start (t :: ts) (role :: roles) stop

section Steps

variable {start mid stop stop' : Context} {t : Token} {role role' : Role}

theorem Context.mem_roles_body {groups : Nat} {operand : Bool} :
    role ∈ (body groups operand).roles ↔ role = .quantifier ∧ operand = true ∨
      role = .atom ∨ role = .bar ∨ role = Role.closer groups := by
  cases operand <;> simp [roles, Role.ofOperand]

theorem Context.nodup_roles (context : Context) : context.roles.Nodup := by
  cases context with
  | top | named | finished => simp [roles]
  | body groups operand =>
    cases groups <;> cases operand <;> simp [roles, Role.ofOperand, Role.closer]

theorem Context.roles_ne_nil {context : Context} (h : context ≠ .finished) :
    context.roles ≠ [] := by
  cases context <;> simp_all [roles]

/-- A token has one role in a context. -/
theorem Step.unique (h : Step start t role stop) (h' : Step start t role' stop') :
    role = role' ∧ stop = stop' := by
  cases h <;> cases h' <;> grind [IsSign, IsMark, IsTerminal]

theorem Step.role_mem (h : Step start t role stop) : role ∈ start.roles := by
  cases h with
  | definitionName | endOfInput | definingSign => simp [Context.roles]
  | quantifier | operand | opening | bar | closing | stop =>
    simp [Context.mem_roles_body, Role.closer]

/-- Every role that is listed for a context is that of some token. -/
theorem exists_step_of_mem (h : role ∈ start.roles) : ∃ t stop, Step start t role stop := by
  cases start with
  | top =>
    simp only [Context.roles, List.mem_cons, List.not_mem_nil, or_false] at h
    rcases h with rfl | rfl
    · exact ⟨⟨.identifier, "a", 0⟩, _, .definitionName rfl⟩
    · exact ⟨⟨.finish, "", 0⟩, _, .endOfInput rfl⟩
  | named =>
    obtain rfl := List.mem_singleton.1 h
    exact ⟨⟨.punctuation, "::=", 0⟩, _, .definingSign ⟨rfl, rfl⟩⟩
  | body groups operand =>
    rcases Context.mem_roles_body.1 h with ⟨rfl, rfl⟩ | rfl | rfl | rfl
    · exact ⟨⟨.punctuation, "?", 0⟩, _, .quantifier (.inl ⟨rfl, rfl⟩)⟩
    · exact ⟨⟨.identifier, "a", 0⟩, _, .operand (.inl rfl)⟩
    · exact ⟨⟨.punctuation, "|", 0⟩, _, .bar ⟨rfl, rfl⟩⟩
    · cases groups with
      | zero => exact ⟨⟨.punctuation, ";", 0⟩, _, .stop ⟨rfl, rfl⟩⟩
      | succ groups => exact ⟨⟨.punctuation, ")", 0⟩, _, .closing ⟨rfl, rfl⟩⟩
  | finished => simp [Context.roles] at h

end Steps

namespace Run

variable {start mid stop stop' : Context} {ts us : List Token} {roles roles' : List Role}

theorem single {t : Token} {role : Role} (h : Step start t role stop) : Run start [t] [role] stop :=
  .cons h .nil

theorem append (h : Run start ts roles mid) (hmore : Run mid us roles' stop) :
    Run start (ts ++ us) (roles ++ roles') stop := by
  induction h with
  | nil => exact hmore
  | cons first _ ih => exact .cons first (ih hmore)

theorem exists_of_append (h : Run start (ts ++ us) roles stop) : ∃ front mid back,
    roles = front ++ back ∧ Run start ts front mid ∧ Run mid us back stop := by
  induction ts generalizing start roles with
  | nil => exact ⟨[], start, roles, rfl, .nil, h⟩
  | cons t ts ih =>
    cases h with
    | cons first others =>
      obtain ⟨front, mid, back, rfl, hfront, hback⟩ := ih others
      exact ⟨_ :: front, mid, back, rfl, .cons first hfront, hback⟩

theorem length_eq (h : Run start ts roles stop) : roles.length = ts.length := by
  induction h with
  | nil => rfl
  | cons _ _ ih => simp [ih]

theorem unique (h : Run start ts roles stop) (h' : Run start ts roles' stop') :
    roles = roles' ∧ stop = stop' := by
  induction h generalizing roles' with
  | nil =>
    cases h'
    exact ⟨rfl, rfl⟩
  | cons first _ ih =>
    cases h' with
    | cons first' others' =>
      obtain ⟨rfl, rfl⟩ := first.unique first'
      obtain ⟨rfl, rfl⟩ := ih others'
      exact ⟨rfl, rfl⟩

theorem eq_nil_of_finished (h : Run .finished ts roles stop) : ts = [] := by
  cases h with
  | nil => rfl
  | cons first _ => cases first

end Run

section Completion

/-- The groups that are open can be closed, and the body with them. -/
theorem exists_run_body (groups : Nat) (operand : Bool) :
    ∃ ts roles, Run (.body groups operand) ts roles .finished := by
  induction groups generalizing operand with
  | zero =>
    exact ⟨[⟨.punctuation, ";", 0⟩, ⟨.finish, "", 0⟩], _,
      .cons (.stop ⟨rfl, rfl⟩) (.single (.endOfInput rfl))⟩
  | succ groups ih =>
    obtain ⟨ts, roles, hrun⟩ := ih true
    exact ⟨⟨.punctuation, ")", 0⟩ :: ts, _, .cons (.closing ⟨rfl, rfl⟩) hrun⟩

/-- From every context there is a way to the end. -/
theorem exists_run_finished (context : Context) : ∃ ts roles, Run context ts roles .finished := by
  cases context with
  | top => exact ⟨[⟨.finish, "", 0⟩], _, .single (.endOfInput rfl)⟩
  | named =>
    obtain ⟨ts, roles, hrun⟩ := exists_run_body 0 false
    exact ⟨⟨.punctuation, "::=", 0⟩ :: ts, _, .cons (.definingSign ⟨rfl, rfl⟩) hrun⟩
  | body groups operand => exact exists_run_body groups operand
  | finished => exact ⟨[], [], .nil⟩

end Completion

section Derivations

theorem run_marks {marks : List Token} (h : ∀ t ∈ marks, IsMark t) (groups : Nat) :
    Run (.body groups true) marks (marks.map fun _ => .quantifier) (.body groups true) := by
  induction marks with
  | nil => exact .nil
  | cons t marks ih =>
    obtain ⟨ht, hmarks⟩ := List.forall_mem_cons.1 h
    exact .cons (.quantifier ht) (ih hmarks)

/-- What is derived in a body leaves as many groups open as there were, and it ends with an operand
if it is one. -/
theorem Derivation.run {level : Level} (d : Derivation level) (groups : Nat) (operand : Bool) :
    ∃ operand', Run (.body groups operand) d.tokens d.roles (.body groups operand') ∧
      (level = .atom → operand' = true) := by
  induction d generalizing groups operand with
  | last _ ih =>
    obtain ⟨operand', hrun, -⟩ := ih groups operand
    exact ⟨operand', hrun, by simp⟩
  | bar _ _ isSign _ ih ihs =>
    obtain ⟨_, hrun, -⟩ := ih groups operand
    obtain ⟨operand', hothers, -⟩ := ihs groups false
    exact ⟨operand', hrun.append (.cons (.bar isSign) hothers), by simp⟩
  | nothing => exact ⟨operand, .nil, by simp⟩
  | item _ _ ih ihs =>
    obtain ⟨mid, hrun, -⟩ := ih groups operand
    obtain ⟨operand', hothers, -⟩ := ihs groups mid
    exact ⟨operand', hrun.append hothers, by simp⟩
  | marked _ marks areMarks ih =>
    obtain ⟨_, hrun, hoperand⟩ := ih groups operand
    obtain rfl := hoperand rfl
    exact ⟨true, hrun.append (run_marks areMarks groups), by simp⟩
  | name _ isName => exact ⟨true, .single (.operand (.inl isName)), by simp⟩
  | terminal _ isTerminal => exact ⟨true, .single (.operand (.inr isTerminal)), by simp⟩
  | group _ opens _ _ closes ih =>
    obtain ⟨_, hrun, -⟩ := ih (groups + 1) false
    exact ⟨true, .cons (.opening opens) (hrun.append (.single (.closing closes))), by simp⟩

theorem Entry.run (e : Entry) : Run .top e.tokens e.roles .top := by
  obtain ⟨_, hrun, -⟩ := e.body.run 0 false
  exact .cons (.definitionName e.isName) (.cons (.definingSign e.isSign)
    (hrun.append (.single (.stop e.isStop))))

theorem TextDerivation.run (d : TextDerivation) : Run .top d.tokens d.roles .finished := by
  have hentries : Run .top (d.entries.flatMap Entry.tokens)
      (d.entries.flatMap Entry.roles) .top := by
    induction d.entries with
    | nil => exact .nil
    | cons e entries ih =>
      rw [List.flatMap_cons, List.flatMap_cons]
      exact e.run.append ih
  exact hentries.append (.single (.endOfInput d.isFinish))

end Derivations

end GrammarOutline.Definition
