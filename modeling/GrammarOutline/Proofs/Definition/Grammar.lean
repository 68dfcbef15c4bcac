import GrammarOutline.Definition.Reader
import Mathlib.Tactic.Common

/-!
# The grammar of definitions

Tokens are derived from the grammar level by level: alternatives with bars between them, sequences
of operands, operands with their marks, and atoms. Only groups lead back to alternatives, and a
derivation bounds how deep they are nested.
-/
namespace GrammarOutline.Definition

def IsSign (text : String) (t : Token) : Prop := t.kind = .punctuation ∧ t.text = text

instance (text : String) (t : Token) : Decidable (IsSign text t) :=
  inferInstanceAs (Decidable (_ ∧ _))

def IsMark (t : Token) : Prop := IsSign "?" t ∨ IsSign "*" t ∨ IsSign "+" t

instance (t : Token) : Decidable (IsMark t) := inferInstanceAs (Decidable (_ ∨ _ ∨ _))

def IsTerminal (t : Token) : Prop := t.kind = .character ∨ t.kind = .string ∨ t.kind = .charClass

/-- The levels of the grammar. -/
inductive Level where
  | alternation
  | sequence
  | quantified
  | atom
  deriving DecidableEq

/-- The tokens stand for a tree at a level of the grammar, with at most `depth` groups one inside
the other. -/
inductive Derives : (depth : Nat) → Level → List Token → Expr → Prop where
  | last {depth : Nat} {ts : List Token} {e : Expr} (sequence : Derives depth .sequence ts e) :
      Derives depth .alternation ts (.alt [e])
  | bar {depth : Nat} {ts us : List Token} {sign : Token} {e : Expr} {es : List Expr}
      (sequence : Derives depth .sequence ts e) (isSign : IsSign "|" sign)
      (others : Derives depth .alternation us (.alt es)) :
      Derives depth .alternation (ts ++ sign :: us) (.alt (e :: es))
  | nothing {depth : Nat} : Derives depth .sequence [] (.seq [])
  | item {depth : Nat} {ts us : List Token} {e : Expr} {es : List Expr}
      (quantified : Derives depth .quantified ts e)
      (others : Derives depth .sequence us (.seq es)) :
      Derives depth .sequence (ts ++ us) (.seq (e :: es))
  | marked {depth : Nat} {ts marks : List Token} {e : Expr} (atom : Derives depth .atom ts e)
      (areMarks : ∀ t ∈ marks, IsMark t) :
      Derives depth .quantified (ts ++ marks) (marks.foldl (fun e t => .quant e t.text) e)
  | name {depth : Nat} {t : Token} (isName : t.kind = .identifier) :
      Derives depth .atom [t] (.ref t.text)
  | terminal {depth : Nat} {t : Token} (isTerminal : IsTerminal t) :
      Derives depth .atom [t] (.term t.text)
  | group {depth : Nat} {ts : List Token} {opening closing : Token} {e : Expr}
      (opens : IsSign "(" opening) (inner : Derives depth .alternation ts e)
      (closes : IsSign ")" closing) :
      Derives (depth + 1) .atom (opening :: (ts ++ [closing])) e

def StartsAtom (t : Token) : Prop := t.kind = .identifier ∨ IsTerminal t ∨ IsSign "(" t

/-- A token after which nothing more is read at a level. -/
def Ends (t : Token) : Level → Prop
  | .alternation => ¬IsMark t ∧ ¬StartsAtom t ∧ ¬IsSign "|" t
  | .sequence => ¬IsMark t ∧ ¬StartsAtom t
  | .quantified => ¬IsMark t
  | .atom => True

section Tokens

variable {depth : Nat} {level : Level} {ts : List Token} {e : Expr}

theorem IsSign.eq_of_isSign {t : Token} {a b : String} (ha : IsSign a t)
    (hb : IsSign b t) : a = b :=
  ha.2.symm.trans hb.2

theorem IsSign.not_isMark {t : Token} {a : String} (h : IsSign a t) (ha : a ∉ ["?", "*", "+"]) :
    ¬IsMark t := by
  rintro (ht | ht | ht) <;> exact ha (by simp [h.eq_of_isSign ht])

theorem IsSign.not_startsAtom {t : Token} {a : String} (h : IsSign a t) (ha : a ≠ "(") :
    ¬StartsAtom t := by
  rintro (ht | (ht | ht | ht) | ht)
  · exact absurd (h.1.symm.trans ht) (by decide)
  · exact absurd (h.1.symm.trans ht) (by decide)
  · exact absurd (h.1.symm.trans ht) (by decide)
  · exact absurd (h.1.symm.trans ht) (by decide)
  · exact ha (h.eq_of_isSign ht)

theorem not_isMark_of_startsAtom {t : Token} (h : StartsAtom t) : ¬IsMark t := by
  rintro (ht | ht | ht) <;> exact ht.not_startsAtom (by decide) h

/-- No sign but an opening parenthesis, a bar or a mark goes on with anything. -/
theorem IsSign.ends {t : Token} {a : String} (h : IsSign a t) (ha : a ∉ ["?", "*", "+", "(", "|"])
    (level : Level) : Ends t level := by
  have hmark : ¬IsMark t := h.not_isMark fun hmem => ha (by revert hmem; simp; tauto)
  have hatom : ¬StartsAtom t := h.not_startsAtom fun e => ha (by simp [e])
  cases level with
  | alternation => exact ⟨hmark, hatom, fun ht => ha (by simp [h.eq_of_isSign ht])⟩
  | sequence => exact ⟨hmark, hatom⟩
  | quantified => exact hmark
  | atom => trivial

theorem Derives.startsAtom (h : Derives depth level ts e)
    (hlevel : level = .quantified ∨ level = .atom) : ∃ t rest, ts = t :: rest ∧ StartsAtom t := by
  induction h with
  | last | bar | nothing | item => simp at hlevel
  | marked _ _ ih =>
    obtain ⟨t, rest, rfl, ht⟩ := ih (.inr rfl)
    exact ⟨t, _, rfl, ht⟩
  | @name _ t isName => exact ⟨t, [], rfl, .inl isName⟩
  | @terminal _ t isTerminal => exact ⟨t, [], rfl, .inr (.inl isTerminal)⟩
  | @group _ ts opening closing _ opens _ _ _ => exact ⟨opening, _, rfl, .inr (.inr opens)⟩

/-- Whatever follows an operand in a sequence is no mark. -/
theorem Derives.head_not_isMark {us rest : List Token} {es : List Expr}
    (h : Derives depth .sequence us (.seq es)) (hend : ∀ t ∈ rest.head?, Ends t .sequence) :
    ∀ t ∈ (us ++ rest).head?, ¬IsMark t := by
  cases h with
  | nothing => exact fun t ht => (hend t ht).1
  | item quantified _ =>
    obtain ⟨t, more, rfl, ht⟩ := quantified.startsAtom (.inl rfl)
    rintro _ ⟨⟩
    exact not_isMark_of_startsAtom ht

end Tokens

section Depth

variable {depth : Nat} {level : Level} {ts : List Token} {e : Expr}

/-- More groups may be allowed than there are. -/
theorem Derives.mono {depth' : Nat} (h : Derives depth level ts e) (hle : depth ≤ depth') :
    Derives depth' level ts e := by
  induction h generalizing depth' with
  | last _ ih => exact .last (ih hle)
  | bar _ isSign _ ih ihs => exact .bar (ih hle) isSign (ihs hle)
  | nothing => exact .nothing
  | item _ _ ih ihs => exact .item (ih hle) (ihs hle)
  | marked _ areMarks ih => exact .marked (ih hle) areMarks
  | name isName => exact .name isName
  | terminal isTerminal => exact .terminal isTerminal
  | group opens _ closes ih =>
    cases depth' with
    | zero => omega
    | succ depth' => exact .group opens (ih (by omega)) closes

section Counting

variable {opened : Nat} {t : Token}

theorem tooDeep?_cons (hopen : ¬IsSign "(" t) (hclose : ¬IsSign ")" t) (rest : List Token) :
    tooDeep? opened (t :: rest) = tooDeep? opened rest := by
  rw [tooDeep?, if_neg (by simpa [IsSign] using hopen), if_neg (by simpa [IsSign] using hclose)]

theorem tooDeep?_cons_of_kind (h : t.kind ≠ .punctuation) (rest : List Token) :
    tooDeep? opened (t :: rest) = tooDeep? opened rest :=
  tooDeep?_cons (fun ho => h ho.1) (fun hc => h hc.1) rest

theorem IsSign.tooDeep?_cons {a : String} (h : IsSign a t) (hopen : a ≠ "(") (hclose : a ≠ ")")
    (rest : List Token) : tooDeep? opened (t :: rest) = tooDeep? opened rest :=
  Definition.tooDeep?_cons (fun ho => hopen (h.eq_of_isSign ho))
    (fun hc => hclose (h.eq_of_isSign hc)) rest

theorem IsMark.tooDeep?_cons (h : IsMark t) (rest : List Token) :
    tooDeep? opened (t :: rest) = tooDeep? opened rest := by
  rcases h with h | h | h <;> exact h.tooDeep?_cons (by decide) (by decide) rest

theorem IsSign.tooDeep?_opening (h : IsSign "(" t) (rest : List Token) :
    tooDeep? opened (t :: rest) =
      if maxDepth ≤ opened then some t else tooDeep? (opened + 1) rest := by
  rw [tooDeep?, if_pos (by simpa [IsSign] using h)]

theorem IsSign.tooDeep?_closing (h : IsSign ")" t) (rest : List Token) :
    tooDeep? opened (t :: rest) = tooDeep? (opened - 1) rest := by
  rw [tooDeep?, if_neg (by simp [h.1, h.2]), if_pos (by simpa [IsSign] using h)]

end Counting

/-- Derived tokens go no deeper than the groups of their derivation. -/
theorem Derives.tooDeep? (h : Derives depth level ts e) {opened : Nat}
    (hdepth : opened + depth ≤ maxDepth) (rest : List Token) :
    Definition.tooDeep? opened (ts ++ rest) = Definition.tooDeep? opened rest := by
  induction h generalizing opened rest with
  | last _ ih => exact ih hdepth rest
  | bar _ isSign _ ih ihs =>
    rw [List.append_assoc, ih hdepth, List.cons_append,
      isSign.tooDeep?_cons (by decide) (by decide), ihs hdepth]
  | nothing => rfl
  | item _ _ ih ihs => rw [List.append_assoc, ih hdepth, ihs hdepth]
  | @marked _ ts marks e _ areMarks ih =>
    rw [List.append_assoc, ih hdepth]
    clear ih
    induction marks with
    | nil => rfl
    | cons t marks ihm =>
      simp only [List.mem_cons, forall_eq_or_imp] at areMarks
      rw [List.cons_append, areMarks.1.tooDeep?_cons, ihm areMarks.2]
  | name isName => exact tooDeep?_cons_of_kind (by simp [isName]) rest
  | terminal isTerminal =>
    exact tooDeep?_cons_of_kind (by rcases isTerminal with h | h | h <;> simp [h]) rest
  | group opens inner closes ih =>
    rw [List.cons_append, List.append_assoc, opens.tooDeep?_opening, if_neg (by omega),
      ih (by omega), List.singleton_append, closes.tooDeep?_closing, Nat.add_sub_cancel]

end Depth

/-- The tokens of a whole text stand for definitions. -/
inductive DerivesAll (depth : Nat) : List Token → List (String × Expr) → Prop where
  | nil {t : Token} (isFinish : t.kind = .finish) : DerivesAll depth [t] []
  | cons {name sign stop : Token} {ts us : List Token} {e : Expr}
      {raw : List (String × Expr)} (isName : name.kind = .identifier) (isSign : IsSign "::=" sign)
      (body : Derives depth .alternation ts e) (isStop : IsSign ";" stop)
      (others : DerivesAll depth us raw) :
      DerivesAll depth (name :: sign :: (ts ++ stop :: us)) ((name.text, e) :: raw)

section Texts

variable {depth : Nat} {ts : List Token} {raw : List (String × Expr)}

theorem DerivesAll.getLast? (h : DerivesAll depth ts raw) :
    ∃ t, ts.getLast? = some t ∧ t.kind = .finish := by
  induction h with
  | @nil t isFinish => exact ⟨t, rfl, isFinish⟩
  | cons _ _ _ _ _ ih =>
    obtain ⟨t, ht, hkind⟩ := ih
    refine ⟨t, ?_, hkind⟩
    simp [List.getLast?_cons, List.getLast?_append, ht]

theorem DerivesAll.tooDeep? (h : DerivesAll depth ts raw) (hdepth : depth ≤ maxDepth) :
    Definition.tooDeep? 0 ts = none := by
  induction h with
  | nil isFinish => rw [tooDeep?_cons_of_kind (by simp [isFinish]), Definition.tooDeep?]
  | cons isName isSign body isStop _ ih =>
    rw [tooDeep?_cons_of_kind (by simp [isName]), isSign.tooDeep?_cons (by decide) (by decide),
      body.tooDeep? (by omega), isStop.tooDeep?_cons (by decide) (by decide), ih]

end Texts

end GrammarOutline.Definition
