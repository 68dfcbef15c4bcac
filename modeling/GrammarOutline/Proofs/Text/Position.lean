import GrammarOutline.Fault
import GrammarOutline.Proofs.Text.Lines
import Mathlib.Algebra.GroupWithZero.Nat
import Mathlib.Data.List.TakeWhile

/-!
# Offsets, lines and columns

The line number, the column and the line of an offset are found by separate searches: line feeds
before the offset are counted, the last of them is looked for, and the line goes on to the next one.
The three agree, so line and column say which offset it is, and grow with it.
-/
namespace GrammarOutline.Text

variable {source line rest : List Char} {offset : Nat}

section FirstLine

theorem take_of_le (hoffset : offset ≤ line.length) (rest : List Char) :
    (line ++ rest).take offset = line.take offset := List.take_append_of_le_length hoffset

/-- An offset on the first line is counted from the start of the text. -/
theorem lineStart_of_le (h : '\n' ∉ line) (hoffset : offset ≤ line.length) (rest : List Char) :
    lineStart (line ++ rest) offset = 0 := by
  have hfeed : '\n' ∉ (line.take offset).reverse := by
    rw [List.mem_reverse]
    exact fun hmem => h (List.mem_of_mem_take hmem)
  rw [lineStart, take_of_le hoffset, List.takeWhile_eq_self_iff.2 (ne_of_not_mem hfeed),
    List.length_reverse]
  exact Nat.sub_self _

theorem lineNumber_of_le (h : '\n' ∉ line) (hoffset : offset ≤ line.length) (rest : List Char) :
    lineNumber (line ++ rest) offset = 1 := by
  rw [lineNumber, take_of_le hoffset,
    List.count_eq_zero_of_not_mem fun hmem => h (List.mem_of_mem_take hmem)]

end FirstLine

section OtherLines

theorem take_append_feed (line rest : List Char) (offset : Nat) :
    (line ++ '\n' :: rest).take (line.length + 1 + offset) = line ++ '\n' :: rest.take offset := by
  simp [List.take_append, Nat.add_assoc, Nat.add_comm 1]

/-- Behind the first line the number of a line is one more than without that line. -/
theorem lineNumber_append (h : '\n' ∉ line) (rest : List Char) (offset : Nat) :
    lineNumber (line ++ '\n' :: rest) (line.length + 1 + offset) = lineNumber rest offset + 1 := by
  simp [lineNumber, take_append_feed, List.count_eq_zero_of_not_mem h]

/-- Behind the first line a line starts where it starts without that line, and further by its
length. -/
theorem lineStart_append (line rest : List Char) (offset : Nat) :
    lineStart (line ++ '\n' :: rest) (line.length + 1 + offset) =
      line.length + 1 + lineStart rest offset := by
  have hshort := (List.takeWhile_prefix (l := (rest.take offset).reverse) (· != '\n')).length_le
  rw [List.length_reverse] at hshort
  simp only [lineStart, take_append_feed, List.reverse_append, List.reverse_cons, List.append_assoc,
    List.singleton_append, takeWhile_append_feed, List.length_append, List.length_cons]
  omega

theorem lineAt_append (line rest : List Char) (offset : Nat) :
    lineAt (line ++ '\n' :: rest) (line.length + 1 + offset) = lineAt rest offset := by
  have hrest : (line ++ '\n' :: rest).drop (line.length + 1) = rest := by simp [List.drop_append]
  rw [lineAt, lineAt, lineStart_append, ← List.drop_drop, hrest]

end OtherLines

/-- The line of an offset among the lines of a text: it has as many lines before it as its number
says, and starts behind them and their line feeds. -/
structure StandsAmong (source : List Char) (offset : Nat) (before : List (List Char))
    (line : List Char) (after : List (List Char)) : Prop where
  lines_eq : source.splitOn '\n' = before ++ line :: after
  number_eq : lineNumber source offset = before.length + 1
  start_eq : lineStart source offset = (before.map fun line => line.length + 1).sum
  line_eq : lineAt source offset = line
  within : offset ≤ lineStart source offset + line.length

theorem exists_standsAmong (h : offset ≤ source.length) :
    ∃ before line after, StandsAmong source offset before line after := by
  induction source using lineInduction generalizing offset with
  | last line hline =>
    have hstart : lineStart line offset = 0 := by simpa using lineStart_of_le hline h []
    have hnumber : lineNumber line offset = 1 := by simpa using lineNumber_of_le hline h []
    refine ⟨[], line, [], splitOn_of_not_mem hline, hnumber, hstart, ?_, by omega⟩
    rw [lineAt, hstart, List.drop_zero, List.takeWhile_eq_self_iff.2 (ne_of_not_mem hline)]
  | more line rest hline ih =>
    by_cases hfirst : offset ≤ line.length
    · have hstart := lineStart_of_le hline hfirst ('\n' :: rest)
      refine ⟨[], line, rest.splitOn '\n', splitOn_append hline rest,
        lineNumber_of_le hline hfirst _, hstart, ?_, by omega⟩
      rw [lineAt, hstart, List.drop_zero, (takeWhile_of_oneLine hline _).1]
      simp
    · obtain ⟨further, rfl⟩ : ∃ further, offset = line.length + 1 + further :=
        ⟨offset - (line.length + 1), by omega⟩
      rw [List.length_append, List.length_cons] at h
      have hfurther : further ≤ rest.length := by omega
      obtain ⟨before, line', after, hlines, hnumber, hstart, hline', hwithin⟩ := ih hfurther
      refine ⟨line :: before, line', after, ?_, ?_, ?_, ?_, ?_⟩
      · rw [splitOn_append hline, hlines, List.cons_append]
      · rw [lineNumber_append hline, hnumber, List.length_cons]
      · rw [lineStart_append, hstart, List.map_cons, List.sum_cons]
      · rw [lineAt_append, hline']
      · rw [lineStart_append]
        omega

section Order

variable {other : Nat}

theorem lineNumber_mono (h : offset ≤ other) : lineNumber source offset ≤ lineNumber source other :=
  Nat.succ_le_succ ((List.take_prefix_take_left h).sublist.count_le '\n')

/-- A line has one start, whichever of its offsets it is looked for from. -/
theorem lineStart_eq_of_lineNumber_eq (h : offset ≤ source.length) (hother : other ≤ source.length)
    (hnumber : lineNumber source offset = lineNumber source other) :
    lineStart source offset = lineStart source other := by
  obtain ⟨before, line, after, hlines, hbefore, hstart, -, -⟩ := exists_standsAmong h
  obtain ⟨before', line', after', hlines', hbefore', hstart', -, -⟩ := exists_standsAmong hother
  have hsame : before = before' := List.append_inj_left (hlines.symm.trans hlines') (by omega)
  rw [hstart, hstart', hsame]

/-- A later offset is on a later line, or further in the same one. -/
theorem position_lt (h : offset < other) (hother : other ≤ source.length) :
    lineNumber source offset < lineNumber source other ∨
      lineNumber source offset = lineNumber source other ∧
        column source offset < column source other := by
  have hmono : lineNumber source offset ≤ lineNumber source other :=
    lineNumber_mono (Nat.le_of_lt h)
  rcases Nat.lt_or_eq_of_le hmono with hless | hsame
  · exact .inl hless
  · have hstart := lineStart_eq_of_lineNumber_eq
      (Nat.le_of_lt (Nat.lt_of_lt_of_le h hother)) hother hsame
    have hbefore := lineStart_le source offset
    refine .inr ⟨hsame, ?_⟩
    rw [column, column, hstart]
    omega

end Order

/-- What a fault at an offset tells is its line, its column and its snippet. -/
theorem wording_inSource (source : List Char) (offset : Nat) :
    (Place.inSource source offset).wording = " at " ++ toString (lineNumber source offset) ++ ":" ++
      toString (column source offset) ++ "\n" ++ snippet source offset := by
  have hstart := lineStart_le source offset
  have hcolumn : (Place.inSource source offset).column = (column source offset : Nat) := by
    show (offset : Int) - lineStart source offset + 1 = (offset - lineStart source offset + 1 : Nat)
    omega
  have hindent : (Place.indent source offset).toNat = offset - lineStart source offset := by
    show ((offset : Int) - lineStart source offset).toNat = offset - lineStart source offset
    omega
  show " at " ++ toString (lineNumber source offset) ++ ":" ++
    toString (Place.inSource source offset).column ++ "\n" ++
      snippetAt source offset (Place.indent source offset).toNat = _
  rw [hcolumn, hindent]
  rfl

/-- An offset is told by its line and its column. The column is a place in this line or just behind
it, and the offset is as far as the lines before and their line feeds are long, and the column
further. So different offsets have different positions, and later ones have later positions. The
snippet shows the line and points at the column, and a fault at the offset tells all three. -/
theorem position_tells_offset (source : List Char) (offset : Nat) (h : offset ≤ source.length) :
    let lines := source.splitOn '\n'
    let number := lineNumber source offset
    let place := column source offset
    1 ≤ number ∧ number ≤ lines.length ∧
    (∃ line, lines[number - 1]? = some line ∧ 1 ≤ place ∧ place ≤ line.length + 1 ∧
      offset = ((lines.take (number - 1)).map fun line => line.length + 1).sum + (place - 1) ∧
      snippet source offset = String.ofList
        (line ++ '\n' :: (List.replicate (place - 1) ' ' ++ ['^']))) ∧
    (∀ other ≤ source.length,
      (lineNumber source other = number → column source other = place → other = offset) ∧
      (offset < other → number < lineNumber source other ∨
        number = lineNumber source other ∧ place < column source other)) ∧
    (Place.inSource source offset).wording =
      " at " ++ toString number ++ ":" ++ toString place ++ "\n" ++ snippet source offset := by
  intro lines number place
  obtain ⟨before, line, after, hstands⟩ := exists_standsAmong h
  have hlines : lines = before ++ line :: after := hstands.lines_eq
  have hnumber : number = before.length + 1 := hstands.number_eq
  have hplace : place - 1 = offset - lineStart source offset := Nat.add_sub_cancel _ _
  have hbefore : lines.take (number - 1) = before := by simp [hlines, hnumber]
  have hle := lineStart_le source offset
  have hwithin := hstands.within
  refine ⟨Nat.succ_pos _, by simp [hlines, hnumber],
    ⟨line, by simp [hlines, hnumber], Nat.succ_pos _, by omega, ?_, ?_⟩,
    fun other hother => ⟨?_, fun hless => position_lt hless hother⟩, wording_inSource source offset⟩
  · rw [hbefore, ← hstands.start_eq, hplace]
    omega
  · rw [snippet, snippetAt, hstands.line_eq, hplace]
  · intro hsame hcolumn
    have hstart := lineStart_eq_of_lineNumber_eq hother h hsame
    have hle' := lineStart_le source other
    have hcolumn : other - lineStart source other + 1 = offset - lineStart source offset + 1 :=
      hcolumn
    omega

/-- The line feed that ends the third line, of which the second one is empty, stands behind its two
characters. -/
theorem position_tells_offset_lineFeed :
    let source := "ab\n\ncd\n".toList
    6 ≤ source.length ∧ lineNumber source 6 = 3 ∧ column source 6 = 3 ∧
      (∀ other ≤ source.length, lineNumber source other = 3 → column source other = 3 → other = 6) ∧
      (Place.inSource source 6).wording = " at 3:3\ncd\n  ^" := by
  intro source
  have hlength : 6 ≤ source.length := by decide
  obtain ⟨-, -, -, horder, hwording⟩ := position_tells_offset source 6 hlength
  exact ⟨hlength, rfl, rfl, fun other hother => (horder other hother).1,
    hwording.trans (by decide +kernel)⟩

/-- Behind the last line feed there is an empty line, and the end of the text is its first
column. -/
example : lineNumber "ab\n\ncd\n".toList 7 = 4 ∧ column "ab\n\ncd\n".toList 7 = 1 := by decide

end GrammarOutline.Text
