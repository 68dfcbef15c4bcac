import GrammarOutline.Proofs.Definition.Grammar
import GrammarOutline.Proofs.Parsing.Outcome

/-!
# Reading what is derived

Each level of the grammar has its parser, and each production of the grammar is what its parser
accepts. Derived tokens are read as far as they go, when the token after them goes on with nothing
at their level.
-/
namespace GrammarOutline.Definition

open Parsing

def parserOf : Level → TokenParser Expr
  | .alternation => alternation
  | .sequence => sequence
  | .quantified => quantified
  | .atom => atom

section Reading

variable {call : (i : Fin 1) → Cursor Token → Reply Token Expr} {c : Cursor Token} {t : Token}
  {rest : List Token}

theorem accepts_sign {text : String} (hrest : c.rest = t :: rest) (ht : IsSign text t) :
    Accepts call (sign text) c t (c.advance 1) :=
  accepts_symbol hrest (by simpa [IsSign] using ht)

theorem refuses_sign {text : String} (h : ∀ t ∈ c.rest.head?, ¬IsSign text t) :
    Refuses call (sign text) c := by
  refine refuses_symbol fun t ht => ?_
  have := h t ht
  simpa [IsSign] using this

theorem accepts_tokenOf {kind : Token.Kind} {expected : String} (hrest : c.rest = t :: rest)
    (ht : t.kind = kind) : Accepts call (tokenOf kind expected) c t (c.advance 1) :=
  accepts_symbol hrest (by simpa using ht)

theorem refuses_tokenOf {kind : Token.Kind} {expected : String}
    (h : ∀ t ∈ c.rest.head?, t.kind ≠ kind) : Refuses call (tokenOf kind expected) c :=
  refuses_symbol fun t ht => by simpa using h t ht

/-- A refusal that the first token decides. -/
theorem head_ne {kind : Token.Kind} (hrest : c.rest = t :: rest) (ht : t.kind ≠ kind) :
    ∀ t ∈ c.rest.head?, t.kind ≠ kind := by
  rw [hrest]
  rintro _ ⟨⟩
  exact ht

theorem accepts_terminal (hrest : c.rest = t :: rest) (ht : IsTerminal t) :
    Accepts call terminal c (.term t.text) (c.advance 1) := by
  refine accepts_map_iff.2 ⟨t, rfl, ?_⟩
  rcases ht with ht | ht | ht
  · exact accepts_either_iff.2 (.inl (accepts_either_iff.2 (.inl (accepts_tokenOf hrest ht))))
  · have hne : t.kind ≠ .character := by simp [ht]
    exact accepts_either_iff.2 (.inl (accepts_either_iff.2
      (.inr ⟨refuses_tokenOf (head_ne hrest hne), accepts_tokenOf hrest ht⟩)))
  · have hne : t.kind ≠ .character := by simp [ht]
    have hne' : t.kind ≠ .string := by simp [ht]
    exact accepts_either_iff.2 (.inr ⟨refuses_either (refuses_tokenOf (head_ne hrest hne))
      (refuses_tokenOf (head_ne hrest hne')), accepts_tokenOf hrest ht⟩)

theorem refuses_terminal (h : ∀ t ∈ c.rest.head?, ¬IsTerminal t) : Refuses call terminal c :=
  refuses_map (refuses_either
    (refuses_either (refuses_tokenOf fun t ht e => h t ht (.inl e))
      (refuses_tokenOf fun t ht e => h t ht (.inr (.inl e))))
    (refuses_tokenOf fun t ht e => h t ht (.inr (.inr e))))

theorem accepts_quantifier (hrest : c.rest = t :: rest) (ht : IsMark t) :
    Accepts call quantifier c t (c.advance 1) := by
  have hne : ∀ {a b : String}, a ≠ b → IsSign a t → ∀ t ∈ c.rest.head?, ¬IsSign b t := by
    intro a b hab ha
    rw [hrest]
    rintro _ ⟨⟩ hb
    exact hab (ha.eq_of_isSign hb)
  refine accepts_label_iff.2 ?_
  rcases ht with ht | ht | ht
  · exact accepts_either_iff.2 (.inl (accepts_either_iff.2 (.inl (accepts_sign hrest ht))))
  · exact accepts_either_iff.2 (.inl (accepts_either_iff.2
      (.inr ⟨refuses_sign (hne (by decide) ht), accepts_sign hrest ht⟩)))
  · exact accepts_either_iff.2 (.inr ⟨refuses_either (refuses_sign (hne (by decide) ht))
      (refuses_sign (hne (by decide) ht)), accepts_sign hrest ht⟩)

theorem refuses_quantifier (h : ∀ t ∈ c.rest.head?, ¬IsMark t) : Refuses call quantifier c :=
  refuses_label (refuses_either
    (refuses_either (refuses_sign fun t ht e => h t ht (.inl e))
      (refuses_sign fun t ht e => h t ht (.inr (.inl e))))
    (refuses_sign fun t ht e => h t ht (.inr (.inr e))))

theorem refuses_atom (h : ∀ t ∈ c.rest.head?, ¬StartsAtom t) : Refuses call atom c :=
  refuses_label (refuses_either
    (refuses_either (refuses_map (refuses_tokenOf fun t ht e => h t ht (.inl e)))
      (refuses_terminal fun t ht e => h t ht (.inr (.inl e))))
    (refuses_map (refuses_both (refuses_sign fun t ht e => h t ht (.inr (.inr e))))))

theorem refuses_quantified (h : ∀ t ∈ c.rest.head?, ¬StartsAtom t) : Refuses call quantified c :=
  refuses_map (refuses_both (refuses_atom h))

theorem accepts_marks {marks : List Token} (hrest : c.rest = marks ++ rest)
    (hmarks : ∀ t ∈ marks, IsMark t) (hend : ∀ t ∈ rest.head?, ¬IsMark t) :
    Accepts call (.many quantifier) c marks (c.advance marks.length) := by
  induction marks generalizing c with
  | nil =>
    rw [List.length_nil, Cursor.advance_zero]
    exact accepts_many_nil (refuses_quantifier (hrest ▸ hend))
  | cons t marks ih =>
    simp only [List.mem_cons, forall_eq_or_imp] at hmarks
    have hmany := ih (Cursor.rest_advance_one hrest) hmarks.2
    rw [Cursor.advance_advance] at hmany
    rw [List.length_cons, Nat.add_comm]
    exact accepts_many_cons (accepts_quantifier hrest hmarks.1)
      (Cursor.size_advance_lt Nat.one_pos (by simp [hrest])) hmany

end Reading

section Productions

variable {call : (i : Fin 1) → Cursor Token → Reply Token Expr} {budget : Nat}
  {c mid next : Cursor Token} {t : Token} {rest : List Token} {e : Expr} {es : List Expr}

theorem accepts_alternation_iff :
    Accepts (callRule rules (budget + 1)) alternation c (.alt es) next ↔
      Accepts (callRule rules budget) (sequence.sepBy1 (sign "|")) c es next := by
  have hrule : Accepts (callRule rules (budget + 1)) alternation c (.alt es) next ↔
      Accepts (callRule rules budget) (rules 0) c (.alt es) next := Iff.rfl
  rw [hrule, rules, accepts_map_iff]
  simp only [Expr.alt.injEq, exists_eq_left]

theorem accepts_sequence_iff :
    Accepts call sequence c (.seq es) next ↔ Accepts call (.many quantified) c es next := by
  rw [sequence, accepts_map_iff]
  simp only [Expr.seq.injEq, exists_eq_left]

theorem accepts_last (hsequence : Accepts (callRule rules budget) sequence c e next)
    (hend : ∀ t ∈ next.rest.head?, ¬IsSign "|" t) :
    Accepts (callRule rules (budget + 1)) alternation c (.alt [e]) next :=
  accepts_alternation_iff.2 (accepts_sepBy1_iff.2 ⟨e, [], next, rfl, hsequence,
    accepts_many_nil (refuses_map (refuses_both (refuses_sign hend)))⟩)

theorem accepts_bar (hsequence : Accepts (callRule rules budget) sequence c e mid)
    (hrest : mid.rest = t :: rest) (ht : IsSign "|" t)
    (hothers : Accepts (callRule rules (budget + 1)) alternation (mid.advance 1) (.alt es) next) :
    Accepts (callRule rules (budget + 1)) alternation c (.alt (e :: es)) next := by
  obtain ⟨v, vs, last, rfl, hv, hmany⟩ := accepts_sepBy1_iff.1 (accepts_alternation_iff.1 hothers)
  have hbar : (mid.advance 1).size < mid.size :=
    Cursor.size_advance_lt Nat.one_pos (by simp [hrest])
  have hlast : last.size ≤ (mid.advance 1).size := size_le_of_accepts size_le_of_callRule hv
  exact accepts_alternation_iff.2 (accepts_sepBy1_iff.2 ⟨e, v :: vs, mid, rfl, hsequence,
    accepts_many_cons (accepts_right (accepts_sign hrest ht) hv) (by omega) hmany⟩)

/-- A sequence ends where no operand follows. -/
theorem accepts_nothing (hend : ∀ t ∈ c.rest.head?, ¬StartsAtom t) :
    Accepts call sequence c (.seq []) c :=
  accepts_sequence_iff.2 (accepts_many_nil (refuses_quantified hend))

theorem accepts_item (hquantified : Accepts call quantified c e mid) (hless : mid.size < c.size)
    (hothers : Accepts call sequence mid (.seq es) next) :
    Accepts call sequence c (.seq (e :: es)) next :=
  accepts_sequence_iff.2 (accepts_many_cons hquantified hless (accepts_sequence_iff.1 hothers))

theorem accepts_marked {marks : List Token} (hatom : Accepts call atom c e mid)
    (hrest : mid.rest = marks ++ rest) (hmarks : ∀ t ∈ marks, IsMark t)
    (hend : ∀ t ∈ rest.head?, ¬IsMark t) :
    Accepts call quantified c (marks.foldl (fun e t => .quant e t.text) e)
      (mid.advance marks.length) :=
  accepts_map_iff.2 ⟨(e, marks), rfl, accepts_both_iff.2
    ⟨mid, hatom, accepts_marks hrest hmarks hend⟩⟩

theorem accepts_name (hrest : c.rest = t :: rest) (ht : t.kind = .identifier) :
    Accepts call atom c (.ref t.text) (c.advance 1) :=
  accepts_label_iff.2 (accepts_either_iff.2 (.inl (accepts_either_iff.2
    (.inl (accepts_map_iff.2 ⟨t, rfl, accepts_tokenOf hrest ht⟩)))))

theorem accepts_atom_of_terminal (hrest : c.rest = t :: rest) (ht : IsTerminal t) :
    Accepts call atom c (.term t.text) (c.advance 1) := by
  have hname : ∀ t ∈ c.rest.head?, t.kind ≠ .identifier := by
    refine head_ne hrest fun hname => ?_
    rcases ht with h | h | h <;> exact absurd (hname.symm.trans h) (by decide)
  exact accepts_label_iff.2 (accepts_either_iff.2 (.inl (accepts_either_iff.2
    (.inr ⟨refuses_map (refuses_tokenOf hname), accepts_terminal hrest ht⟩))))

/-- A parenthesis takes the alternatives up to the one that closes it. -/
theorem accepts_group {closing : Token} {rest' : List Token} (hrest : c.rest = t :: rest)
    (ht : IsSign "(" t) (hinner : Accepts call alternation (c.advance 1) e mid)
    (hmid : mid.rest = closing :: rest') (hclosing : IsSign ")" closing) :
    Accepts call atom c e (mid.advance 1) := by
  have hother : ∀ t ∈ c.rest.head?, ¬t.kind = .identifier ∧ ¬IsTerminal t := by
    rw [hrest]
    rintro _ ⟨⟩
    have hkind := ht.1
    constructor
    · simp [hkind]
    · simp [IsTerminal, hkind]
  exact accepts_label_iff.2 (accepts_either_iff.2 (.inr
    ⟨refuses_either (refuses_map (refuses_tokenOf fun t ht => (hother t ht).1))
      (refuses_terminal fun t ht => (hother t ht).2),
    accepts_right (accepts_sign hrest ht)
      (accepts_commit_iff.2 (accepts_left hinner (accepts_sign hmid hclosing)))⟩))

end Productions

/-- The derived tokens at the front of others are read, if nothing after them can be. A rule may be
entered once for each token that is left. -/
theorem Derives.accepts {depth : Nat} {level : Level} {ts : List Token} {e : Expr}
    (h : Derives depth level ts e) {budget : Nat} {c : Cursor Token} {rest : List Token}
    (hrest : c.rest = ts ++ rest) (hend : ∀ t ∈ rest.head?, Ends t level)
    (hbudget : c.size < budget + if level = .alternation then 0 else 1) :
    Accepts (callRule rules budget) (parserOf level) c e (c.advance ts.length) := by
  induction h generalizing budget c rest with
  | last _ ih =>
    cases budget with
    | zero => simp at hbudget
    | succ budget =>
      have hsequence := ih hrest (fun t ht => ⟨(hend t ht).1, (hend t ht).2.1⟩)
        (by simpa using hbudget)
      refine accepts_last hsequence fun t ht => (hend t ?_).2.2
      rwa [Cursor.rest_advance hrest] at ht
  | @bar _ ts us sign e es _ isSign _ ih ihs =>
    cases budget with
    | zero => simp at hbudget
    | succ budget =>
      rw [List.append_assoc, List.cons_append] at hrest
      have hends : ∀ t ∈ (sign :: (us ++ rest)).head?, Ends t .sequence := by
        rintro _ ⟨⟩
        exact ⟨isSign.not_isMark (by decide), isSign.not_startsAtom (by decide)⟩
      have hsequence := ih hrest hends (by simpa using hbudget)
      have hbar : (c.advance ts.length).rest = sign :: (us ++ rest) := Cursor.rest_advance hrest
      have hafter : ((c.advance ts.length).advance 1).rest = us ++ rest :=
        Cursor.rest_advance_one hbar
      have hless : ((c.advance ts.length).advance 1).size ≤ c.size :=
        Nat.le_trans (Cursor.size_advance_le _ _) (Cursor.size_advance_le _ _)
      have hothers := ihs hafter hend (Nat.lt_of_le_of_lt hless hbudget)
      rw [List.length_append, List.length_cons, Nat.add_comm us.length, ← Cursor.advance_advance,
        ← Cursor.advance_advance]
      exact accepts_bar hsequence hbar isSign hothers
  | nothing =>
    rw [List.length_nil, Cursor.advance_zero]
    rw [List.nil_append] at hrest
    exact accepts_nothing fun t ht => (hend t (hrest ▸ ht)).2
  | @item _ ts us e es quantified others ih ihs =>
    rw [List.append_assoc] at hrest
    have hfirst := ih hrest (others.head_not_isMark hend) hbudget
    obtain ⟨t, more, hts, -⟩ := quantified.startsAtom (.inl rfl)
    have hless : (c.advance ts.length).size < c.size :=
      Cursor.size_advance_lt (by simp [hts]) (by simp [hrest])
    have hothers := ihs (Cursor.rest_advance hrest) hend (Nat.lt_trans hless hbudget)
    rw [List.length_append, ← Cursor.advance_advance]
    exact accepts_item hfirst hless hothers
  | @marked _ ts marks e _ areMarks ih =>
    rw [List.append_assoc] at hrest
    have hatom := ih hrest (fun _ _ => trivial) hbudget
    rw [List.length_append, ← Cursor.advance_advance]
    exact accepts_marked hatom (Cursor.rest_advance hrest) areMarks hend
  | name isName => exact accepts_name hrest isName
  | terminal isTerminal => exact accepts_atom_of_terminal hrest isTerminal
  | @group _ ts opening closing e opens _ closes ih =>
    rw [List.cons_append, List.append_assoc] at hrest
    have hafter : (c.advance 1).rest = ts ++ closing :: rest := Cursor.rest_advance_one hrest
    have hless : (c.advance 1).size < c.size :=
      Cursor.size_advance_lt Nat.one_pos (by simp [hrest])
    have hends : ∀ t ∈ (closing :: rest).head?, Ends t .alternation := by
      rintro _ ⟨⟩
      exact closes.ends (by decide) _
    have hinner := ih hafter hends (Nat.lt_of_lt_of_le hless (Nat.le_of_lt_succ hbudget))
    rw [List.length_cons, List.length_append, List.length_singleton, Nat.add_comm,
      ← Cursor.advance_advance, ← Cursor.advance_advance]
    exact accepts_group hrest opens hinner (Cursor.rest_advance hafter) closes

section Texts

variable {depth : Nat} {ts : List Token} {raw : List (String × Expr)}

theorem accepts_definition {budget : Nat} {c : Cursor Token} {name sign stop : Token}
    {us : List Token} {e : Expr} (isName : name.kind = .identifier) (isSign : IsSign "::=" sign)
    (body : Derives depth .alternation ts e) (isStop : IsSign ";" stop)
    (hrest : c.rest = name :: sign :: (ts ++ stop :: us)) (hbudget : c.size < budget) :
    Accepts (callRule rules budget) definition c (name.text, e) (c.advance (ts.length + 3)) := by
  have hname : (c.advance 1).rest = sign :: (ts ++ stop :: us) := Cursor.rest_advance_one hrest
  have hsign : ((c.advance 1).advance 1).rest = ts ++ stop :: us := Cursor.rest_advance_one hname
  have hsize : ((c.advance 1).advance 1).size < budget :=
    Nat.lt_of_le_of_lt (Nat.le_trans (Cursor.size_advance_le _ _)
      (Cursor.size_advance_le _ _)) hbudget
  have hbody : Accepts (callRule rules budget) alternation _ e _ :=
    body.accepts hsign (by
      rintro _ ⟨⟩
      exact isStop.ends (by decide) _) (by simpa using hsize)
  have hstop : Accepts (callRule rules budget)
      (.label (Definition.sign ";") "';' after definition") _ stop _ :=
    accepts_label_iff.2 (accepts_sign (Cursor.rest_advance hsign) isStop)
  have hlength : ts.length + 3 = 1 + (1 + (ts.length + 1)) := by omega
  rw [hlength, ← Cursor.advance_advance, ← Cursor.advance_advance, ← Cursor.advance_advance]
  exact accepts_map_iff.2 ⟨(name, e), rfl, accepts_both_iff.2 ⟨c.advance 1,
    accepts_label_iff.2 (accepts_tokenOf hrest isName), accepts_commit_iff.2
      (accepts_right (accepts_sign hname isSign) (accepts_left hbody hstop))⟩⟩

theorem DerivesAll.accepts (h : DerivesAll depth ts raw) {budget : Nat} {c : Cursor Token}
    (hrest : c.rest = ts) (hbudget : c.size < budget) :
    ∃ next, Accepts (callRule rules budget) definitions c raw next := by
  have hmany : ∃ next t, next.rest = [t] ∧ t.kind = .finish ∧
      Accepts (callRule rules budget) (.many definition) c raw next := by
    induction h generalizing c with
    | @nil t isFinish =>
      refine ⟨c, t, hrest, isFinish, accepts_many_nil (refuses_map (refuses_both (refuses_label
        (refuses_tokenOf (head_ne hrest ?_)))))⟩
      simp [isFinish]
    | @cons name sign stop ts us e raw isName isSign body isStop _ ih =>
      have hlength : ts.length + 3 = (name :: sign :: (ts ++ [stop])).length := by simp
      have hnext : (c.advance (ts.length + 3)).rest = us := by
        rw [hlength]
        exact Cursor.rest_advance (by simpa using hrest)
      have hless : (c.advance (ts.length + 3)).size < c.size :=
        Cursor.size_advance_lt (by omega) (by
          rw [hrest]
          simp only [List.length_cons, List.length_append]
          omega)
      obtain ⟨next, t, ht, hkind, hothers⟩ := ih hnext (by omega)
      exact ⟨next, t, ht, hkind, accepts_many_cons
        (accepts_definition isName isSign body isStop hrest hbudget) hless hothers⟩
  obtain ⟨next, t, ht, hkind, hmany⟩ := hmany
  exact ⟨_, accepts_left hmany (accepts_tokenOf ht hkind)⟩

/-- A text whose tokens stand for definitions is read. -/
theorem readRaw_eq_ok {source : List Char} (h : DerivesAll maxDepth (Token.scan source) raw) :
    readRaw source = .ok raw := by
  have hfault : Token.fault? source (Token.scan source) = none := by
    obtain ⟨t, ht, hkind⟩ := h.getLast?
    obtain ⟨kind, excerpt, offset⟩ := t
    obtain rfl : kind = .finish := hkind
    rw [Token.fault?, ht]
  obtain ⟨next, hint, hrun⟩ := h.accepts (c := Cursor.ofPosition (Token.scan source) 0) rfl
    (Nat.lt_succ_self _)
  have hrun : definitions.run rules (Token.scan source) 0 = .success raw next hint := by
    rw [Parser.run, Parser.runAt, Nat.mul_one]
    exact hrun
  simp only [readRaw, hfault, h.tooDeep? (Nat.le_refl _), hrun]

end Texts

end GrammarOutline.Definition
