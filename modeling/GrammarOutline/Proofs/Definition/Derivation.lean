import GrammarOutline.Proofs.Definition.Grammar

/-!
# Derivations of definitions

A derivation is a tree over tokens that follows the levels of the grammar. The tokens, the
expression and the depth of the groups are read off it. No two derivations have the same tokens: at
every level the next token decides how the derivation goes on, and the token after it decides where
it ends. So a flat count of open parentheses finds the depth of the groups.
-/
namespace GrammarOutline.Definition

/-- A derivation from a level of the grammar. -/
inductive Derivation : Level → Type where
  | last (sequence : Derivation .sequence) : Derivation .alternation
  | bar (sequence : Derivation .sequence) (sign : Token) (isSign : IsSign "|" sign)
      (others : Derivation .alternation) : Derivation .alternation
  | nothing : Derivation .sequence
  | item (quantified : Derivation .quantified) (others : Derivation .sequence) :
      Derivation .sequence
  | marked (atom : Derivation .atom) (marks : List Token) (areMarks : ∀ t ∈ marks, IsMark t) :
      Derivation .quantified
  | name (t : Token) (isName : t.kind = .identifier) : Derivation .atom
  | terminal (t : Token) (isTerminal : IsTerminal t) : Derivation .atom
  | group (opening : Token) (opens : IsSign "(" opening) (inner : Derivation .alternation)
      (closing : Token) (closes : IsSign ")" closing) : Derivation .atom

namespace Derivation

def tokens : {level : Level} → Derivation level → List Token
  | _, .last sequence => sequence.tokens
  | _, .bar sequence sign _ others => sequence.tokens ++ sign :: others.tokens
  | _, .nothing => []
  | _, .item quantified others => quantified.tokens ++ others.tokens
  | _, .marked atom marks _ => atom.tokens ++ marks
  | _, .name t _ => [t]
  | _, .terminal t _ => [t]
  | _, .group opening _ inner closing _ => opening :: (inner.tokens ++ [closing])

/-- The expression as it is written. Of the marks after an atom the first stands innermost, and a
group leaves only what is in it. -/
def expr : {level : Level} → Derivation level → Expr
  | _, .last sequence => .alt [sequence.expr]
  | _, .bar sequence _ _ others => .alt (sequence.expr :: others.expr.alternatives)
  | _, .nothing => .seq []
  | _, .item quantified others => .seq (quantified.expr :: others.expr.items)
  | _, .marked atom marks _ => marks.foldl (fun e t => .quant e t.text) atom.expr
  | _, .name t _ => .ref t.text
  | _, .terminal t _ => .term t.text
  | _, .group _ _ inner _ _ => inner.expr

/-- How many groups stand one inside the other. -/
def depth : {level : Level} → Derivation level → Nat
  | _, .last sequence => sequence.depth
  | _, .bar sequence _ _ others => max sequence.depth others.depth
  | _, .nothing => 0
  | _, .item quantified others => max quantified.depth others.depth
  | _, .marked atom _ _ => atom.depth
  | _, .name _ _ => 0
  | _, .terminal _ _ => 0
  | _, .group _ _ inner _ _ => inner.depth + 1

variable {level : Level}

theorem expr_alternation (d : Derivation .alternation) : d.expr = .alt d.expr.alternatives := by
  cases d <;> rfl

theorem expr_sequence (d : Derivation .sequence) : d.expr = .seq d.expr.items := by
  cases d <;> rfl

theorem derives (d : Derivation level) : Derives d.depth level d.tokens d.expr := by
  induction d with
  | last _ ih => exact .last ih
  | bar sequence sign isSign others ih ihs =>
    rw [others.expr_alternation] at ihs
    exact .bar (ih.mono (Nat.le_max_left _ _)) isSign (ihs.mono (Nat.le_max_right _ _))
  | nothing => exact .nothing
  | item quantified others ih ihs =>
    rw [others.expr_sequence] at ihs
    exact .item (ih.mono (Nat.le_max_left _ _)) (ihs.mono (Nat.le_max_right _ _))
  | marked _ _ areMarks ih => exact .marked ih areMarks
  | name _ isName => exact .name isName
  | terminal _ isTerminal => exact .terminal isTerminal
  | group _ opens _ _ closes ih => exact .group opens ih closes

end Derivation

theorem Derives.exists_derivation {depth : Nat} {level : Level} {ts : List Token} {e : Expr}
    (h : Derives depth level ts e) :
    ∃ d : Derivation level, d.tokens = ts ∧ d.expr = e ∧ d.depth ≤ depth := by
  induction h with
  | last _ ih =>
    obtain ⟨d, rfl, rfl, hdepth⟩ := ih
    exact ⟨.last d, rfl, rfl, hdepth⟩
  | @bar _ _ _ sign _ _ _ isSign _ ih ihs =>
    obtain ⟨d, rfl, rfl, hdepth⟩ := ih
    obtain ⟨others, rfl, hothers, hdepths⟩ := ihs
    refine ⟨.bar d sign isSign others, rfl, ?_, Nat.max_le.2 ⟨hdepth, hdepths⟩⟩
    rw [Derivation.expr, hothers, Expr.alternatives]
  | nothing => exact ⟨.nothing, rfl, rfl, Nat.zero_le _⟩
  | item _ _ ih ihs =>
    obtain ⟨d, rfl, rfl, hdepth⟩ := ih
    obtain ⟨others, rfl, hothers, hdepths⟩ := ihs
    refine ⟨.item d others, rfl, ?_, Nat.max_le.2 ⟨hdepth, hdepths⟩⟩
    rw [Derivation.expr, hothers, Expr.items]
  | @marked _ _ marks _ _ areMarks ih =>
    obtain ⟨d, rfl, rfl, hdepth⟩ := ih
    exact ⟨.marked d marks areMarks, rfl, rfl, hdepth⟩
  | @name _ t isName => exact ⟨.name t isName, rfl, rfl, Nat.zero_le _⟩
  | @terminal _ t isTerminal => exact ⟨.terminal t isTerminal, rfl, rfl, Nat.zero_le _⟩
  | @group _ _ opening closing _ opens _ closes ih =>
    obtain ⟨d, rfl, rfl, hdepth⟩ := ih
    exact ⟨.group opening opens d closing closes, rfl, rfl, Nat.succ_le_succ hdepth⟩

section Unique

/-- What follows does not go on at a level. -/
def Stops (level : Level) (rest : List Token) : Prop := ∀ t ∈ rest.head?, Ends t level

variable {level : Level} {rest rest' : List Token} {t : Token}

theorem stops_cons (h : Ends t level) : Stops level (t :: rest) := by
  rintro _ ⟨⟩
  exact h

theorem Stops.sequence (h : Stops .alternation rest) : Stops .sequence rest :=
  fun t ht => ⟨(h t ht).1, (h t ht).2.1⟩

theorem IsSign.ends_sequence (h : IsSign "|" t) : Ends t .sequence :=
  ⟨h.not_isMark (by decide), h.not_startsAtom (by decide)⟩

/-- What follows an operand in a sequence is no mark. -/
theorem Derivation.stops_quantified (others : Derivation .sequence) (h : Stops .sequence rest) :
    Stops .quantified (others.tokens ++ rest) := by
  have hderives := others.derives
  rw [others.expr_sequence] at hderives
  exact hderives.head_not_isMark h

/-- An operand is not there where a sequence stops. -/
theorem Derivation.append_ne_of_stops (d : Derivation .quantified) (h : Stops .sequence rest)
    (more : List Token) : rest ≠ d.tokens ++ more := by
  obtain ⟨t, others, htokens, hstarts⟩ := d.derives.startsAtom (.inl rfl)
  rintro rfl
  exact (h t (by rw [htokens]; rfl)).2 hstarts

theorem eq_of_marks_append {marks marks' : List Token} (hmarks : ∀ t ∈ marks, IsMark t)
    (hmarks' : ∀ t ∈ marks', IsMark t) (h : marks ++ rest = marks' ++ rest')
    (hrest : Stops .quantified rest) (hrest' : Stops .quantified rest') :
    marks = marks' ∧ rest = rest' := by
  induction marks generalizing marks' with
  | nil =>
    cases marks' with
    | nil => exact ⟨rfl, h⟩
    | cons t marks' =>
      rw [List.nil_append] at h
      exact absurd (hmarks' t List.mem_cons_self) (hrest t (by rw [h]; rfl))
  | cons t marks ih =>
    cases marks' with
    | nil =>
      rw [List.nil_append] at h
      exact absurd (hmarks t List.mem_cons_self) (hrest' t (by rw [← h]; rfl))
    | cons t' marks' =>
      simp only [List.cons_append, List.cons.injEq] at h
      simp only [List.mem_cons, forall_eq_or_imp] at hmarks hmarks'
      obtain ⟨hmarks, hrest⟩ := ih hmarks.2 hmarks'.2 h.2
      exact ⟨by rw [h.1, hmarks], hrest⟩

/-- Two derivations at the front of the same tokens are the same, if neither can go on after its
end: where they have different forms, their next tokens differ. -/
theorem Derivation.eq_of_append_eq {d d' : Derivation level}
    (h : d.tokens ++ rest = d'.tokens ++ rest') (hrest : Stops level rest)
    (hrest' : Stops level rest') : d = d' ∧ rest = rest' := by
  induction d generalizing rest rest' with
  | last s ih =>
    cases d' with
    | last s' =>
      obtain ⟨rfl, rfl⟩ := ih h hrest.sequence hrest'.sequence
      exact ⟨rfl, rfl⟩
    | bar s' sign' isSign' others' =>
      rw [tokens, tokens, List.append_assoc] at h
      obtain ⟨-, rfl⟩ := ih h hrest.sequence (stops_cons isSign'.ends_sequence)
      exact absurd isSign' (hrest sign' rfl).2.2
  | bar s sign isSign others ih ihs =>
    cases d' with
    | last s' =>
      rw [tokens, tokens, List.append_assoc] at h
      obtain ⟨-, rfl⟩ := ih h (stops_cons isSign.ends_sequence) hrest'.sequence
      exact absurd isSign (hrest' sign rfl).2.2
    | bar s' sign' isSign' others' =>
      rw [tokens, tokens, List.append_assoc, List.append_assoc] at h
      obtain ⟨rfl, hbar⟩ :=
        ih h (stops_cons isSign.ends_sequence) (stops_cons isSign'.ends_sequence)
      obtain ⟨rfl, hmore⟩ := List.cons.inj hbar
      obtain ⟨rfl, rfl⟩ := ihs hmore hrest hrest'
      exact ⟨rfl, rfl⟩
  | nothing =>
    cases d' with
    | nothing => exact ⟨rfl, h⟩
    | item q' others' =>
      rw [tokens, tokens, List.append_assoc] at h
      exact absurd h (q'.append_ne_of_stops hrest _)
  | item q others ih ihs =>
    cases d' with
    | nothing =>
      rw [tokens, tokens, List.append_assoc] at h
      exact absurd h.symm (q.append_ne_of_stops hrest' _)
    | item q' others' =>
      rw [tokens, tokens, List.append_assoc, List.append_assoc] at h
      obtain ⟨rfl, hmore⟩ :=
        ih h (others.stops_quantified hrest) (others'.stops_quantified hrest')
      obtain ⟨rfl, rfl⟩ := ihs hmore hrest hrest'
      exact ⟨rfl, rfl⟩
  | marked a marks areMarks ih =>
    cases d' with
    | marked a' marks' areMarks' =>
      rw [tokens, tokens, List.append_assoc, List.append_assoc] at h
      obtain ⟨rfl, hmore⟩ := ih h (fun _ _ => trivial) (fun _ _ => trivial)
      obtain ⟨rfl, rfl⟩ := eq_of_marks_append areMarks areMarks' hmore hrest hrest'
      exact ⟨rfl, rfl⟩
  | name t isName =>
    cases d' with
    | name t' isName' =>
      obtain ⟨rfl, rfl⟩ := List.cons.inj h
      exact ⟨rfl, rfl⟩
    | terminal t' isTerminal' =>
      obtain ⟨rfl, -⟩ := List.cons.inj h
      simp [IsTerminal, isName] at isTerminal'
    | group opening' opens' inner' closing' closes' =>
      obtain ⟨rfl, -⟩ := List.cons.inj h
      simp [IsSign, isName] at opens'
  | terminal t isTerminal =>
    cases d' with
    | name t' isName' =>
      obtain ⟨rfl, -⟩ := List.cons.inj h
      simp [IsTerminal, isName'] at isTerminal
    | terminal t' isTerminal' =>
      obtain ⟨rfl, rfl⟩ := List.cons.inj h
      exact ⟨rfl, rfl⟩
    | group opening' opens' inner' closing' closes' =>
      obtain ⟨rfl, -⟩ := List.cons.inj h
      simp [IsTerminal, opens'.1] at isTerminal
  | group opening opens inner closing closes ih =>
    cases d' with
    | name t' isName' =>
      obtain ⟨rfl, -⟩ := List.cons.inj h
      simp [IsSign, isName'] at opens
    | terminal t' isTerminal' =>
      obtain ⟨rfl, -⟩ := List.cons.inj h
      simp [IsTerminal, opens.1] at isTerminal'
    | group opening' opens' inner' closing' closes' =>
      rw [tokens, tokens, List.cons_append, List.cons_append, List.append_assoc,
        List.append_assoc] at h
      obtain ⟨rfl, hinner⟩ := List.cons.inj h
      obtain ⟨rfl, hclosing⟩ := ih hinner (stops_cons (closes.ends (by decide) _))
        (stops_cons (closes'.ends (by decide) _))
      obtain ⟨rfl, rfl⟩ := List.cons.inj hclosing
      exact ⟨rfl, rfl⟩

end Unique

section Nesting

variable {level : Level}

/-- When no parenthesis opens a group too deep, the groups of a derivation are not too deep. Each of
its parts leaves as many groups open as there were before it. -/
theorem Derivation.depth_le_of_tooDeep? (d : Derivation level) {opened : Nat} {rest : List Token}
    (hopened : opened ≤ maxDepth) (h : tooDeep? opened (d.tokens ++ rest) = none) :
    opened + d.depth ≤ maxDepth := by
  induction d generalizing opened rest with
  | last _ ih => exact ih hopened h
  | bar s sign isSign others ih ihs =>
    rw [tokens, List.append_assoc] at h
    have hs : opened + s.depth ≤ maxDepth := ih hopened h
    rw [s.derives.tooDeep? hs, List.cons_append, isSign.tooDeep?_cons (by decide) (by decide)] at h
    have hothers : opened + others.depth ≤ maxDepth := ihs hopened h
    rw [depth]
    omega
  | nothing => exact hopened
  | item q others ih ihs =>
    rw [tokens, List.append_assoc] at h
    have hq : opened + q.depth ≤ maxDepth := ih hopened h
    rw [q.derives.tooDeep? hq] at h
    have hothers : opened + others.depth ≤ maxDepth := ihs hopened h
    rw [depth]
    omega
  | marked a marks _ ih =>
    rw [tokens, List.append_assoc] at h
    exact ih hopened h
  | name => exact hopened
  | terminal => exact hopened
  | group opening opens inner closing closes ih =>
    rw [tokens, List.cons_append, List.append_assoc, opens.tooDeep?_opening] at h
    split_ifs at h with hdeep
    have hinner : opened + 1 + inner.depth ≤ maxDepth := ih (Nat.not_le.1 hdeep) h
    rw [depth]
    omega

end Nesting

/-- A definition with the derivation of its body. -/
structure Entry where
  name : Token
  isName : name.kind = .identifier
  sign : Token
  isSign : IsSign "::=" sign
  body : Derivation .alternation
  stop : Token
  isStop : IsSign ";" stop

namespace Entry

def tokens (e : Entry) : List Token := e.name :: e.sign :: (e.body.tokens ++ [e.stop])

def raw (e : Entry) : String × Expr := (e.name.text, e.body.expr)

theorem tokens_append (e : Entry) (rest : List Token) :
    e.tokens ++ rest = e.name :: e.sign :: (e.body.tokens ++ e.stop :: rest) := by
  simp [tokens]

theorem eq_of_append_eq {e e' : Entry} {rest rest' : List Token}
    (h : e.tokens ++ rest = e'.tokens ++ rest') : e = e' ∧ rest = rest' := by
  obtain ⟨name, isName, sign, isSign, body, stop, isStop⟩ := e
  obtain ⟨name', isName', sign', isSign', body', stop', isStop'⟩ := e'
  rw [tokens_append, tokens_append] at h
  obtain ⟨hname, h⟩ := List.cons.inj h
  obtain ⟨hsign, h⟩ := List.cons.inj h
  obtain ⟨hbody, h⟩ := Derivation.eq_of_append_eq h (stops_cons (isStop.ends (by decide) _))
    (stops_cons (isStop'.ends (by decide) _))
  obtain ⟨hstop, hrest⟩ := List.cons.inj h
  dsimp only at hname hsign hbody hstop
  subst hname hsign hbody hstop
  exact ⟨rfl, hrest⟩

end Entry

/-- A derivation of a whole text: definitions up to the end. -/
structure TextDerivation where
  entries : List Entry
  finish : Token
  isFinish : finish.kind = .finish

namespace TextDerivation

def tokens (d : TextDerivation) : List Token := d.entries.flatMap Entry.tokens ++ [d.finish]

def raw (d : TextDerivation) : List (String × Expr) := d.entries.map Entry.raw

/-- No group is nested too deep. -/
def Shallow (d : TextDerivation) : Prop := ∀ e ∈ d.entries, e.body.depth ≤ maxDepth

/-- The grammar is unambiguous: a text has at most one derivation. -/
theorem tokens_injective : Function.Injective tokens := by
  rintro ⟨entries, finish, isFinish⟩ ⟨entries', finish', isFinish'⟩ h
  dsimp only [tokens] at h
  obtain ⟨rfl, rfl⟩ : entries = entries' ∧ finish = finish' := by
    induction entries generalizing entries' with
    | nil =>
      cases entries' with
      | nil => exact ⟨rfl, (List.cons.inj h).1⟩
      | cons e' entries' =>
        obtain ⟨rfl, -⟩ := List.cons.inj h
        exact absurd (isFinish.symm.trans e'.isName) (by decide)
    | cons e entries ih =>
      cases entries' with
      | nil =>
        obtain ⟨rfl, -⟩ := List.cons.inj h
        exact absurd (isFinish'.symm.trans e.isName) (by decide)
      | cons e' entries' =>
        rw [List.flatMap_cons, List.flatMap_cons, List.append_assoc, List.append_assoc] at h
        obtain ⟨rfl, hmore⟩ := Entry.eq_of_append_eq h
        obtain ⟨rfl, rfl⟩ := ih entries' hmore
        exact ⟨rfl, rfl⟩
  rfl

theorem derivesAll (d : TextDerivation) {depth : Nat}
    (hdepth : ∀ e ∈ d.entries, e.body.depth ≤ depth) : DerivesAll depth d.tokens d.raw := by
  obtain ⟨entries, finish, isFinish⟩ := d
  dsimp only [tokens, raw] at hdepth ⊢
  induction entries with
  | nil => exact .nil isFinish
  | cons e entries ih =>
    simp only [List.mem_cons, forall_eq_or_imp] at hdepth
    rw [List.flatMap_cons, List.append_assoc, Entry.tokens_append]
    exact .cons e.isName e.isSign (e.body.derives.mono hdepth.1) e.isStop (ih hdepth.2)

end TextDerivation

end GrammarOutline.Definition
