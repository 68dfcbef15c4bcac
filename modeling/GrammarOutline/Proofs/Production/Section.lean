import GrammarOutline.Production.Section
import GrammarOutline.Proofs.Text.Lines

/-!
# The rules section as a part of its text

Markers lie within their text, so the rules section is a slice of it: what stands at an offset of
the section stands behind its base in the text. The section starts where a line ends and ends where
a line starts, so none of its lines is a marker, and it is its own rules section.
-/
namespace GrammarOutline.RulesSection
open Text

variable {source line text : List Char} {offset : Nat}

section Lines

theorem markersFrom_eq (offset : Nat) (text : List Char) : markersFrom offset text =
    (if isMarker (text.takeWhile (· != '\n')) then
      [(offset, offset + (text.takeWhile (· != '\n')).length)] else []) ++
    match text.dropWhile (· != '\n') with
    | [] => []
    | _ :: rest => markersFrom (offset + (text.takeWhile (· != '\n')).length + 1) rest := by
  fun_cases markersFrom offset text with
  | case1 line found hlast => rw [hlast, List.append_nil]
  | case2 line found c rest hmore _ => rw [hmore]

/-- The last line of a text is a marker or not. -/
theorem markersFrom_of_not_mem (h : '\n' ∉ line) (offset : Nat) :
    markersFrom offset line = if isMarker line then [(offset, offset + line.length)] else [] := by
  obtain ⟨htake, hdrop⟩ := takeWhile_of_oneLine h []
  rw [List.append_nil] at htake hdrop
  rw [List.takeWhile_nil, List.append_nil] at htake
  rw [markersFrom_eq, htake, hdrop]
  exact List.append_nil _

/-- The markers of a text are its first line, if that is one, and those of the other lines. -/
theorem markersFrom_append (h : '\n' ∉ line) (offset : Nat) (rest : List Char) :
    markersFrom offset (line ++ '\n' :: rest) =
      (if isMarker line then [(offset, offset + line.length)] else []) ++
        markersFrom (offset + line.length + 1) rest := by
  have htake : (line ++ '\n' :: rest).takeWhile (· != '\n') = line := by
    simp [(takeWhile_of_oneLine h _).1]
  have hdrop : (line ++ '\n' :: rest).dropWhile (· != '\n') = '\n' :: rest := by
    simp [(takeWhile_of_oneLine h _).2]
  rw [markersFrom_eq, htake, hdrop]

end Lines

section Markers

theorem markersFrom_eq_nil_iff :
    markersFrom offset text = [] ↔ ∀ line ∈ text.splitOn '\n', isMarker line = false := by
  induction text using lineInduction generalizing offset with
  | last line h => simp [markersFrom_of_not_mem h, splitOn_of_not_mem h]
  | more line rest h ih => simp [markersFrom_append h, splitOn_append h, ih]

theorem within_of_mem_markersFrom {marker : Nat × Nat} (h : marker ∈ markersFrom offset text) :
    offset ≤ marker.1 ∧ marker.1 ≤ marker.2 ∧ marker.2 ≤ offset + text.length := by
  induction text using lineInduction generalizing offset with
  | last line hline =>
    obtain ⟨-, rfl⟩ : isMarker line = true ∧ marker = (offset, offset + line.length) := by
      simpa [markersFrom_of_not_mem hline] using h
    dsimp only
    omega
  | more line rest hline ih =>
    rw [markersFrom_append hline] at h
    rw [List.length_append, List.length_cons]
    rcases List.mem_append.1 h with h | h
    · obtain ⟨-, rfl⟩ : isMarker line = true ∧ marker = (offset, offset + line.length) := by
        simpa using h
      dsimp only
      omega
    · have hmarker := ih h
      omega

/-- No line before the first marker is one, and the other markers come after it. -/
theorem exists_of_markersFrom_eq_cons {start stop : Nat} {others : List (Nat × Nat)}
    (h : markersFrom offset text = (start, stop) :: others) :
    ∃ before marker after, text = before ++ marker ++ after ∧ start = offset + before.length ∧
      stop = start + marker.length ∧ (∀ line ∈ before.splitOn '\n', isMarker line = false) ∧
      (after = [] ∧ others = [] ∨
        ∃ rest, after = '\n' :: rest ∧ others = markersFrom (stop + 1) rest) := by
  induction text using lineInduction generalizing offset with
  | last line hline =>
    rw [markersFrom_of_not_mem hline] at h
    by_cases hmarker : isMarker line = true
    · rw [if_pos hmarker] at h
      obtain ⟨hfirst, rfl⟩ := List.cons.inj h
      obtain ⟨rfl, rfl⟩ := Prod.mk.inj hfirst
      exact ⟨[], line, [], by simp, rfl, rfl, by decide, .inl ⟨rfl, rfl⟩⟩
    · exact absurd h (by simp [hmarker])
  | more line rest hline ih =>
    rw [markersFrom_append hline] at h
    by_cases hmarker : isMarker line = true
    · rw [if_pos hmarker] at h
      obtain ⟨hfirst, rfl⟩ := List.cons.inj h
      obtain ⟨rfl, rfl⟩ := Prod.mk.inj hfirst
      exact ⟨[], line, '\n' :: rest, by simp, rfl, rfl, by decide, .inr ⟨rest, rfl, rfl⟩⟩
    · rw [if_neg hmarker] at h
      obtain ⟨before, marker, after, rfl, hstart, hstop, hbefore, hafter⟩ := ih h
      refine ⟨line ++ '\n' :: before, marker, after, by simp, ?_, hstop, ?_, hafter⟩
      · rw [hstart, List.length_append, List.length_cons]
        omega
      · rw [splitOn_append hline, List.forall_mem_cons]
        exact ⟨by simpa using hmarker, hbefore⟩

end Markers

section Slices

theorem base_ofSource_le (source : List Char) : (ofSource source).base ≤ source.length := by
  have hmarkers : ∀ marker ∈ markersFrom 0 source, marker.2 ≤ source.length := fun marker h => by
    have hwithin := within_of_mem_markersFrom h
    omega
  fun_cases ofSource source with
  | case1 => exact Nat.zero_le _
  | case2 start stop hfound => exact hmarkers (start, stop) (by simp [hfound])
  | case3 start stop _ _ _ hfound => exact hmarkers (start, stop) (by simp [hfound])

/-- The rules section stands in the text from its base on. -/
theorem slice_of_text (source : List Char) :
    (ofSource source).text <+: source.drop (ofSource source).base := by
  fun_cases ofSource source with
  | case1 => exact List.prefix_rfl
  | case2 => exact List.prefix_rfl
  | case3 => exact List.take_prefix _ _

/-- What is left of the rules section at one of its positions is there in the text. -/
theorem slice_of_drop_text (source : List Char) (position : Nat) :
    (ofSource source).text.drop position <+: source.drop ((ofSource source).base + position) := by
  rw [← List.drop_drop]
  exact (slice_of_text source).drop position

theorem base_add_length_ofSource_le (source : List Char) :
    (ofSource source).base + (ofSource source).text.length ≤ source.length := by
  have hbase := base_ofSource_le source
  have hlength := (slice_of_text source).length_le
  rw [List.length_drop] at hlength
  omega

end Slices

section Sections

/-- Without a marker line the whole text is the rules section. -/
theorem ofSource_of_forall_not (h : ∀ line ∈ source.splitOn '\n', isMarker line = false) :
    ofSource source = ⟨0, source⟩ := by
  rw [ofSource, markersFrom_eq_nil_iff.2 h]

theorem text_ofSource (h : ∀ line ∈ source.splitOn '\n', isMarker line = false) :
    (ofSource source).text = source := by
  rw [ofSource_of_forall_not h]

theorem isMarker_of_mem_text (source : List Char) :
    ∀ line ∈ (ofSource source).text.splitOn '\n', isMarker line = false := by
  have hfeed : ∀ rest : List Char, (∀ line ∈ rest.splitOn '\n', isMarker line = false) →
      ∀ line ∈ ('\n' :: rest).splitOn '\n', isMarker line = false := fun rest h => by
    rw [← List.nil_append ('\n' :: rest), splitOn_append (by simp), List.forall_mem_cons]
    exact ⟨rfl, h⟩
  fun_cases ofSource source with
  | case1 hnone => exact markersFrom_eq_nil_iff.1 hnone
  | case2 start stop hone =>
    obtain ⟨before, marker, after, rfl, hstart, hstop, -, hafter⟩ :=
      exists_of_markersFrom_eq_cons hone
    rw [List.drop_left' (by rw [List.length_append]; omega)]
    obtain ⟨rfl, -⟩ | ⟨rest, rfl, hrest⟩ := hafter
    · have hnone : ∀ line ∈ ([] : List Char).splitOn '\n', isMarker line = false := by decide
      exact hnone
    · exact hfeed rest (markersFrom_eq_nil_iff.1 hrest.symm)
  | case3 start stop start' stop' others hmore =>
    obtain ⟨before, marker, after, rfl, hstart, hstop, -, hafter⟩ :=
      exists_of_markersFrom_eq_cons hmore
    rw [List.drop_left' (by rw [List.length_append]; omega)]
    obtain ⟨-, hnone⟩ | ⟨rest, rfl, hrest⟩ := hafter
    · exact absurd hnone (by simp)
    · obtain ⟨before', marker', after', rfl, hstart', -, hbefore', -⟩ :=
        exists_of_markersFrom_eq_cons hrest.symm
      rw [List.append_assoc, ← List.cons_append,
        List.take_left' (by rw [List.length_cons]; omega)]
      exact hfeed before' hbefore'

end Sections

end GrammarOutline.RulesSection
