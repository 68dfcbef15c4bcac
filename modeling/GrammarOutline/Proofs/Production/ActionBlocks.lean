import GrammarOutline.Proofs.Parsing.Evaluation
import GrammarOutline.Proofs.Production.Printing

/-!
# Reading action blocks

The scanner of action blocks counts open braces and passes over what stands between quotes. It takes
a block wherever one stands, which is the only one there, and breaks off at a brace that opens none.
-/
namespace GrammarOutline.Production

open Parsing

variable {depth : Nat} {quote : Char} {body block block' text rest after : List Char}

section Counting

theorem afterAction_opening (depth : Nat) (rest : List Char) :
    afterAction depth none false ('\x7b' :: rest) = afterAction (depth + 1) none false rest := by
  simp [afterAction]

theorem afterAction_closing (depth : Nat) (rest : List Char) :
    afterAction (depth + 1) none false ('\x7d' :: rest) =
      if depth = 0 then some rest else afterAction depth none false rest := by
  simp [afterAction]

/-- Between quotes nothing is counted. -/
theorem InQuotes.afterAction (h : InQuotes quote body) (hquote : quote ≠ '\\') :
    afterAction depth (some quote) false (body ++ quote :: rest) =
      afterAction depth none false rest := by
  induction h with
  | nil => simp [Production.afterAction, hquote]
  | escape _ ih => simpa [Production.afterAction] using ih
  | plain ne_quote ne_backslash _ ih =>
    simpa [Production.afterAction, ne_quote, ne_backslash] using ih

/-- Where braces stand in pairs, as many are open after them as before. -/
theorem IsActionBody.afterAction (h : IsActionBody body) (depth : Nat) (rest : List Char) :
    afterAction (depth + 1) none false (body ++ rest) =
      afterAction (depth + 1) none false rest := by
  induction h generalizing depth rest with
  | nil => rfl
  | plain ne_quote ne_brace _ ih =>
    rw [List.cons_append, Production.afterAction]
    simpa [ne_quote, ne_brace] using ih depth rest
  | @quoted quote inner others isQuote inQuotes _ ih =>
    have hquote : quote ≠ '\\' := by rcases isQuote with rfl | rfl <;> decide
    rw [List.cons_append, List.append_assoc, List.cons_append, Production.afterAction]
    simpa [isQuote, inQuotes.afterAction hquote] using ih depth rest
  | block _ _ ihInner ih =>
    rw [List.cons_append, List.append_assoc, List.cons_append, afterAction_opening, ihInner,
      afterAction_closing, if_neg (Nat.succ_ne_zero depth), ih]

theorem exists_inQuotes {escaped : Bool} {text : List Char}
    (h : afterAction depth (some quote) escaped text = some after) : ∃ inner rest,
      InQuotes quote (if escaped then '\\' :: inner else inner) ∧ text = inner ++ quote :: rest ∧
        afterAction depth none false rest = some after := by
  induction text generalizing escaped with
  | nil => simp [afterAction] at h
  | cons c text ih =>
    rw [afterAction] at h
    cases escaped with
    | true =>
      obtain ⟨inner, rest, hinner, rfl, hrest⟩ := ih h
      exact ⟨c :: inner, rest, .escape hinner, rfl, hrest⟩
    | false =>
      simp only [Bool.false_eq_true, if_false] at h
      by_cases hbackslash : c = '\\'
      · rw [if_pos hbackslash] at h
        obtain ⟨inner, rest, hinner, rfl, hrest⟩ := ih h
        exact ⟨c :: inner, rest, hbackslash ▸ hinner, rfl, hrest⟩
      · rw [if_neg hbackslash] at h
        by_cases hc : c = quote
        · rw [if_pos hc] at h
          exact ⟨[], text, .nil, by rw [hc]; rfl, h⟩
        · rw [if_neg hc] at h
          obtain ⟨inner, rest, hinner, rfl, hrest⟩ := ih h
          exact ⟨c :: inner, rest, .plain hc hbackslash hinner, rfl, hrest⟩

/-- The innermost brace that is open gets closed, and the block around it goes on after that. -/
theorem exists_isActionBody {text : List Char}
    (h : afterAction (depth + 1) none false text = some after) : ∃ body rest, IsActionBody body ∧
      text = body ++ '\x7d' :: rest ∧
      (depth = 0 ∧ after = rest ∨ 0 < depth ∧ afterAction depth none false rest = some after) := by
  induction hlength : text.length using Nat.strong_induction_on generalizing depth text with
  | _ length ih =>
  subst hlength
  cases text with
  | nil => simp [afterAction] at h
  | cons c text =>
    rw [afterAction] at h
    simp only [Bool.false_eq_true, if_false, Bool.or_eq_true, decide_eq_true_eq] at h
    by_cases hquote : c = '\'' ∨ c = '"'
    · rw [if_pos hquote] at h
      obtain ⟨inner, rest, hinner, rfl, hrest⟩ := exists_inQuotes h
      obtain ⟨body, rest', hbody, rfl, hrest'⟩ := ih rest.length (by simp; omega) hrest rfl
      exact ⟨c :: (inner ++ c :: body), rest', .quoted hquote hinner hbody, by simp, hrest'⟩
    · rw [if_neg hquote] at h
      by_cases hopen : c = '\x7b'
      · subst hopen
        rw [if_pos rfl] at h
        obtain ⟨inner, rest, hinner, rfl, hrest⟩ := ih _ (by simp) h rfl
        obtain hdepth | ⟨-, hrest⟩ := hrest
        · omega
        · obtain ⟨body, rest', hbody, rfl, hrest'⟩ := ih rest.length (by simp; omega) hrest rfl
          exact ⟨_, rest', .block hinner hbody, by simp, hrest'⟩
      · rw [if_neg hopen] at h
        by_cases hclose : c = '\x7d'
        · rw [if_pos hclose] at h
          refine ⟨[], text, .nil, by rw [hclose]; rfl, ?_⟩
          split_ifs at h with hdepth
          · exact .inl ⟨by omega, Option.some.inj h.symm⟩
          · exact .inr ⟨by omega, h⟩
        · rw [if_neg hclose] at h
          obtain ⟨body, rest, hbody, rfl, hrest⟩ := ih _ (by simp) h rfl
          exact ⟨c :: body, rest, .plain (not_or.1 hquote) ⟨hopen, hclose⟩ hbody, rfl, hrest⟩

/-- One open brace is closed by the end of a text whose braces stand in pairs, and by nothing before
it. -/
theorem afterAction_eq_some_iff :
    afterAction 1 none false text = some after ↔
      ∃ body, IsActionBody body ∧ text = body ++ '\x7d' :: after := by
  constructor
  · intro h
    obtain ⟨body, rest, hbody, rfl, ⟨-, rfl⟩ | ⟨hdepth, -⟩⟩ := exists_isActionBody h
    · exact ⟨body, hbody, rfl⟩
    · exact absurd hdepth (Nat.lt_irrefl 0)
  · rintro ⟨body, hbody, rfl⟩
    rw [hbody.afterAction 0, afterAction_closing, if_pos rfl]

end Counting

section Reading

/-- A text that starts with a block, told by what stands behind its first brace. -/
theorem exists_isActionBlock_append_iff :
    (∃ block, IsActionBlock block ∧ text = block ++ after) ↔
      ∃ rest, text = '\x7b' :: rest ∧ afterAction 1 none false rest = some after := by
  constructor
  · rintro ⟨_, ⟨body, hbody, rfl⟩, rfl⟩
    exact ⟨body ++ '\x7d' :: after, by simp, afterAction_eq_some_iff.2 ⟨body, hbody, rfl⟩⟩
  · rintro ⟨rest, rfl, hafter⟩
    obtain ⟨body, hbody, rfl⟩ := afterAction_eq_some_iff.1 hafter
    exact ⟨_, ⟨body, hbody, rfl⟩, by simp⟩

/-- A text starts with one block at most. -/
theorem IsActionBlock.eq_of_prefix (h : IsActionBlock block) (h' : IsActionBlock block')
    (hstands : block <+: text) (hstands' : block' <+: text) : block = block' := by
  obtain ⟨after, rfl⟩ := hstands
  obtain ⟨after', htext⟩ := hstands'
  obtain ⟨rest, hrest, hafter⟩ := exists_isActionBlock_append_iff.1 ⟨block, h, rfl⟩
  obtain ⟨rest', hrest', hafter'⟩ := exists_isActionBlock_append_iff.1 ⟨block', h', htext.symm⟩
  obtain rfl : rest = rest' := List.tail_eq_of_cons_eq (hrest.symm.trans hrest')
  obtain rfl : after = after' := Option.some.inj (hafter.symm.trans hafter')
  exact (List.append_cancel_right htext).symm

theorem read_actionBlock_of_head (h : text.head? ≠ some '\x7b') :
    actionBlock.read text = .refused "action block" := by
  cases text with
  | nil => rfl
  | cons c rest => simp [actionBlock, show c ≠ '\x7b' by simpa using h]

/-- A block is taken as a whole. -/
theorem read_actionBlock_append (h : IsActionBlock block) (after : List Char) :
    actionBlock.read (block ++ after) = .taken () block.length := by
  obtain ⟨rest, hrest, hafter⟩ : ∃ rest, block ++ after = '\x7b' :: rest ∧
      afterAction 1 none false rest = some after :=
    exists_isActionBlock_append_iff.1 ⟨block, h, rfl⟩
  have hlength := congrArg List.length hrest
  rw [List.length_append, List.length_cons] at hlength
  rw [hrest, actionBlock]
  dsimp only
  rw [if_pos rfl, hafter]
  simp only [Scan.taken.injEq, true_and]
  omega

/-- A brace that opens no block breaks off the reading. -/
theorem read_actionBlock_of_forall_not (hhead : text.head? = some '\x7b')
    (h : ∀ block, IsActionBlock block → ¬block <+: text) :
    actionBlock.read text = .broken "'\x7d' to close the action block" 0 none := by
  obtain ⟨rest, rfl⟩ := List.head?_eq_some_iff.1 hhead
  cases hafter : afterAction 1 none false rest with
  | none => simp [actionBlock, hafter]
  | some after =>
    obtain ⟨block, hblock, htext⟩ := exists_isActionBlock_append_iff.2 ⟨rest, rfl, hafter⟩
    exact absurd ⟨after, htext.symm⟩ (h block hblock)

end Reading

section Running

/-- Action blocks are read where they stand. Where no brace stands the scanner can be backed out of.
Where a block stands there is no other one, and it is taken as a whole. Where a brace opens no
block, the scanner breaks off at this brace. -/
theorem actionBlock_reads_blocks (input : List Char) (position : Nat) :
    let run := (Parser.scan actionBlock : TextParser Unit).run noRules input position
    (input[position]? ≠ some '\x7b' → run = .failure ⟨"action block", position, false, none⟩) ∧
    (∀ block, IsActionBlock block → block <+: input.drop position →
      (∀ block', IsActionBlock block' → block' <+: input.drop position → block' = block) ∧
        run = .success () (Cursor.ofPosition input (position + block.length)) none) ∧
    (input[position]? = some '\x7b' →
      (∀ block, IsActionBlock block → ¬block <+: input.drop position) →
      run = .failure ⟨"'\x7d' to close the action block", position, true, none⟩) := by
  intro run
  have hplace : (Cursor.ofPosition input position).position = position :=
    Cursor.position_ofPosition input position
  have hrun : run = actionBlock.run (Cursor.ofPosition input position) := rfl
  have hrest : (Cursor.ofPosition input position).rest = input.drop position := rfl
  rw [Scanner.run, hrest, hplace] at hrun
  refine ⟨fun hhead => ?_, fun block hblock hstands => ⟨fun block' hblock' hstands' => ?_, ?_⟩,
    fun hhead hnone => ?_⟩
  · rw [hrun, read_actionBlock_of_head (by rwa [List.head?_drop])]
  · exact hblock'.eq_of_prefix hblock hstands' hstands
  · have hwithin : position + block.length ≤ input.length := by
      have hpos : 0 < block.length := by
        obtain ⟨body, -, rfl⟩ := hblock
        simp
      have hlength := hstands.length_le
      rw [List.length_drop] at hlength
      omega
    obtain ⟨after, hafter⟩ := hstands
    rw [hrun, ← hafter, read_actionBlock_append hblock]
    exact congrArg (Reply.success () · none) (Cursor.advance_ofPosition hwithin)
  · rw [hrun, read_actionBlock_of_forall_not (by rwa [List.head?_drop]) hnone]
    simp

/-- A block within a text, with a block and a brace in quotes inside. -/
theorem actionBlock_reads_blocks_nested :
    let block := "\x7b if (x) \x7b y(\"\\\"\x7d\"); \x7d \x7d".toList
    let input := "a : b ".toList ++ block ++ " ;".toList
    IsActionBlock block ∧ block <+: input.drop 6 ∧
      (Parser.scan actionBlock : TextParser Unit).run noRules input 6 =
        .success () (Cursor.ofPosition input (6 + block.length)) none := by
  intro block input
  have hblock : IsActionBlock block := by
    obtain ⟨block', hblock', htext⟩ := exists_isActionBlock_append_iff.2
      ⟨block.tail, rfl, (by decide +kernel : afterAction 1 none false block.tail = some [])⟩
    have hsame : block = block' := htext.trans (List.append_nil block')
    exact hsame ▸ hblock'
  have hstands : block <+: input.drop 6 := ⟨" ;".toList, by decide +kernel⟩
  exact ⟨hblock, hstands, ((actionBlock_reads_blocks input 6).2.1 block hblock hstands).2⟩

end Running

end GrammarOutline.Production
