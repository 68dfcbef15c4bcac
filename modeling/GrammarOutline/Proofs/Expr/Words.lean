import GrammarOutline.Proofs.Expr.Language

/-!
# Words of expressions

A word of an expression is put together from words of its parts: a word of one alternative, words of
all items one after the other, or as many words of an operand as its mark allows. These words are
those of the language of the expression, and bringing an expression to normal form neither adds nor
loses one.
-/
namespace GrammarOutline.Expr

variable {α : Type}

open Computability

/-- Every mark is one of the notation. -/
inductive HasMarks : Expr → Prop where
  | alt {as : List Expr} (members : ∀ a ∈ as, a.HasMarks) : HasMarks (.alt as)
  | seq {es : List Expr} (members : ∀ e ∈ es, e.HasMarks) : HasMarks (.seq es)
  | quant {operand : Expr} {mark : String} (member : operand.HasMarks)
      (isMark : mark ∈ ["?", "*", "+"]) : HasMarks (.quant operand mark)
  | ref (name : String) : HasMarks (.ref name)
  | term (text : String) : HasMarks (.term text)

/-- A word of an expression, when `terms` and `names` have the words of terminals and names. -/
inductive HasWord (terms names : String → Language α) : Expr → List α → Prop where
  | choice {as : List Expr} {a : Expr} {w : List α} (mem : a ∈ as)
      (word : HasWord terms names a w) : HasWord terms names (.alt as) w
  | nothing : HasWord terms names (.seq []) []
  | item {e : Expr} {es : List Expr} {u v : List α} (first : HasWord terms names e u)
      (others : HasWord terms names (.seq es) v) : HasWord terms names (.seq (e :: es)) (u ++ v)
  | absent {operand : Expr} {mark : String} (isMark : mark ∈ ["?", "*"]) :
      HasWord terms names (.quant operand mark) []
  | once {operand : Expr} {mark : String} {w : List α} (isMark : mark ∈ ["?", "*", "+"])
      (word : HasWord terms names operand w) : HasWord terms names (.quant operand mark) w
  | again {operand : Expr} {mark : String} {u v : List α} (isMark : mark ∈ ["*", "+"])
      (first : HasWord terms names operand u)
      (others : HasWord terms names (.quant operand mark) v) :
      HasWord terms names (.quant operand mark) (u ++ v)
  | ref {name : String} {w : List α} (mem : w ∈ names name) : HasWord terms names (.ref name) w
  | term {text : String} {w : List α} (mem : w ∈ terms text) : HasWord terms names (.term text) w

section Marks

theorem hasMarks_quant_iff (operand : Expr) (mark : String) :
    HasMarks (.quant operand mark) ↔ operand.HasMarks ∧ mark ∈ ["?", "*", "+"] := by
  constructor
  · intro h
    cases h with
    | quant member isMark => exact ⟨member, isMark⟩
  · exact fun h => .quant h.1 h.2

theorem hereditary_hasMarks : Hereditary HasMarks := by
  refine hereditary_of_quant_iff (fun as => ⟨fun h => ?_, .alt⟩) (fun es => ⟨fun h => ?_, .seq⟩)
    hasMarks_quant_iff (by decide) (by decide)
  · cases h with
    | alt members => exact members
  · cases h with
    | seq members => exact members

theorem HasMarks.normalize {e n : Expr} (he : e.HasMarks) (hn : e.normalize = .ok n) : n.HasMarks :=
  hereditary_hasMarks.normalize hasMarks_quant_iff he hn

end Marks

section Words

variable {terms names : String → Language α} {operand e : Expr} {mark : String} {w : List α}

theorem mem_sum_iff (l : List (Language α)) : w ∈ l.sum ↔ ∃ m ∈ l, w ∈ m := by
  induction l with
  | nil => simp [Language.notMem_zero]
  | cons m l ih => rw [List.sum_cons, Language.mem_add, ih, List.exists_mem_cons_iff]

theorem marked_option (l : Language α) : marked "?" l = 1 + l := if_pos rfl

theorem marked_star (l : Language α) : marked "*" l = l∗ := by simp [marked]

theorem marked_plus (l : Language α) : marked "+" l = l * l∗ := by simp [marked]

theorem append_mem_kstar {l : Language α} {u v : List α} (hu : u ∈ l) (hv : v ∈ l∗) :
    u ++ v ∈ l∗ :=
  Set.mem_of_mem_of_subset (Language.append_mem_mul hu hv) (mul_kstar_le_kstar (a := l))

/-- Any number of words of an operand, one after the other. -/
theorem hasWord_star {ws : List (List α)} (h : ∀ w ∈ ws, HasWord terms names operand w) :
    HasWord terms names (.quant operand "*") ws.flatten := by
  induction ws with
  | nil => exact .absent (by decide)
  | cons w ws ih =>
    simp only [List.mem_cons, forall_eq_or_imp] at h
    rw [List.flatten_cons]
    exact .again (by decide) h.1 (ih h.2)

/-- One word of an operand, and any number of further ones. -/
theorem hasWord_plus (hw : HasWord terms names operand w) {ws : List (List α)}
    (h : ∀ w ∈ ws, HasWord terms names operand w) :
    HasWord terms names (.quant operand "+") (w ++ ws.flatten) := by
  induction ws generalizing w with
  | nil =>
    rw [List.flatten_nil, List.append_nil]
    exact .once (by decide) hw
  | cons v ws ih =>
    simp only [List.mem_cons, forall_eq_or_imp] at h
    rw [List.flatten_cons]
    exact .again (by decide) hw (ih h.1 h.2)

/-- Words are in the language. -/
theorem HasWord.mem_language (h : HasWord terms names e w) : w ∈ language terms names e := by
  induction h with
  | choice mem _ ih =>
    rw [language_alt, mem_sum_iff]
    exact ⟨_, List.mem_map_of_mem mem, ih⟩
  | nothing => rw [language_seq, List.map_nil, List.prod_nil, Language.mem_one]
  | item _ _ ih ihs =>
    rw [language_seq] at ihs
    rw [language_seq, List.map_cons, List.prod_cons]
    exact Language.append_mem_mul ih ihs
  | @absent operand mark isMark =>
    rw [language_quant]
    simp only [List.mem_cons, List.not_mem_nil, or_false] at isMark
    rcases isMark with rfl | rfl
    · rw [marked_option, Language.mem_add]
      exact .inl (Language.nil_mem_one)
    · rw [marked_star]
      exact Language.nil_mem_kstar _
  | @once operand mark w isMark _ ih =>
    rw [language_quant]
    simp only [List.mem_cons, List.not_mem_nil, or_false] at isMark
    rcases isMark with rfl | rfl | rfl
    · rw [marked_option, Language.mem_add]
      exact .inr ih
    · rw [marked_star, ← List.append_nil w]
      exact append_mem_kstar ih (Language.nil_mem_kstar _)
    · rw [marked_plus, ← List.append_nil w]
      exact Language.append_mem_mul ih (Language.nil_mem_kstar _)
  | @again operand mark u v isMark _ _ ih ihs =>
    rw [language_quant] at ihs ⊢
    simp only [List.mem_cons, List.not_mem_nil, or_false] at isMark
    rcases isMark with rfl | rfl
    · rw [marked_star] at ihs ⊢
      exact append_mem_kstar ih ihs
    · rw [marked_plus] at ihs ⊢
      obtain ⟨v₁, hfirst, v₂, hothers, rfl⟩ := Language.mem_mul.1 ihs
      exact Language.append_mem_mul ih (append_mem_kstar hfirst hothers)
  | ref mem => exact mem
  | term mem => exact mem

/-- The language has no other words. -/
theorem HasMarks.hasWord (he : e.HasMarks) (h : w ∈ language terms names e) :
    HasWord terms names e w := by
  induction he generalizing w with
  | @alt as _ ih =>
    rw [language_alt, mem_sum_iff] at h
    obtain ⟨_, hl, hw⟩ := h
    obtain ⟨a, ha, rfl⟩ := List.mem_map.1 hl
    exact .choice ha (ih a ha hw)
  | @seq es members ih =>
    rw [language_seq] at h
    induction es generalizing w with
    | nil =>
      rw [List.map_nil, List.prod_nil, Language.mem_one] at h
      exact h ▸ .nothing
    | cons e es ihes =>
      rw [List.map_cons, List.prod_cons] at h
      obtain ⟨u, hu, v, hv, rfl⟩ := Language.mem_mul.1 h
      simp only [List.mem_cons, forall_eq_or_imp] at ih
      exact .item (ih.1 hu) (ihes (fun e he => members e (List.mem_cons_of_mem _ he)) ih.2 hv)
  | @quant operand mark _ isMark ih =>
    rw [language_quant] at h
    simp only [List.mem_cons, List.not_mem_nil, or_false] at isMark
    rcases isMark with rfl | rfl | rfl
    · rw [marked_option, Language.mem_add, Language.mem_one] at h
      rcases h with rfl | h
      · exact .absent (by decide)
      · exact .once (by decide) (ih h)
    · rw [marked_star] at h
      obtain ⟨ws, rfl, hws⟩ := Language.mem_kstar.1 h
      exact hasWord_star fun w hw => ih (hws w hw)
    · rw [marked_plus] at h
      obtain ⟨u, hu, v, hv, rfl⟩ := Language.mem_mul.1 h
      obtain ⟨ws, rfl, hws⟩ := Language.mem_kstar.1 hv
      exact hasWord_plus (ih hu) fun w hw => ih (hws w hw)
  | ref name => exact .ref h
  | term text => exact .term h

end Words

/-- Bringing an expression to normal form keeps all its words and adds none. -/
theorem hasWord_normalize_iff (terms names : String → Language α) {e n : Expr}
    (halternatives : e.HasAlternatives) (hmarks : e.HasMarks) (hn : e.normalize = .ok n)
    (w : List α) : HasWord terms names n w ↔ HasWord terms names e w := by
  have hlanguage : language terms names n = language terms names e :=
    language_normalize halternatives hn
  constructor
  · intro h
    have hmem : w ∈ language terms names n := h.mem_language
    exact hmarks.hasWord (hlanguage ▸ hmem)
  · intro h
    have hmem : w ∈ language terms names e := h.mem_language
    exact (hmarks.normalize hn).hasWord (hlanguage ▸ hmem)

/-- In `((|'x')|'y'+)('z'*)` an optional part, repeated words and several words in a row come
together. -/
theorem hasWord_normalize_iff_several :
    let e := Expr.seq [.alt [.alt [.seq [], .term "'x'"], .quant (.term "'y'") "+"],
      .seq [.quant (.term "'z'") "*"]]
    let n := Expr.seq [.alt [.quant (.term "'x'") "?", .quant (.term "'y'") "+"],
      .quant (.term "'z'") "*"]
    e.HasAlternatives ∧ e.HasMarks ∧ e.normalize = .ok n ∧
      ∀ w : List Char, HasWord (fun text => {text.toList}) (fun _ => 0) n w ↔
        HasWord (fun text => {text.toList}) (fun _ => 0) e w := by
  intro e n
  have hoption : Expr.HasAlternatives (.alt [.seq [], .term "'x'"]) := by
    refine .alt (by simp) ?_
    simp only [List.forall_mem_cons]
    exact ⟨.seq (by simp), .term _, by simp⟩
  have hstar : Expr.HasAlternatives (.seq [.quant (.term "'z'") "*"]) :=
    .seq fun i hi => List.mem_singleton.1 hi ▸ .quant (.term _)
  have halternatives : e.HasAlternatives := by
    refine .seq ?_
    simp only [List.forall_mem_cons]
    refine ⟨.alt (by simp) ?_, hstar, by simp⟩
    simp only [List.forall_mem_cons]
    exact ⟨hoption, .quant (.term _), by simp⟩
  have hmarks : e.HasMarks := by
    refine .seq ?_
    simp only [List.forall_mem_cons]
    refine ⟨.alt ?_, .seq fun i hi => List.mem_singleton.1 hi ▸
      .quant (.term _) (by decide), by simp⟩
    simp only [List.forall_mem_cons]
    refine ⟨.alt ?_, .quant (.term _) (by decide), by simp⟩
    simp only [List.forall_mem_cons]
    exact ⟨.seq (by simp), .term _, by simp⟩
  have hn : e.normalize = .ok n := by rfl
  exact ⟨halternatives, hmarks, hn, hasWord_normalize_iff _ _ halternatives hmarks hn⟩

end GrammarOutline.Expr
