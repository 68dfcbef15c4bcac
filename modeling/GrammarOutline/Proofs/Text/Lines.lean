import GrammarOutline.Text.Position
import Mathlib.Data.List.Infix

/-!
# Lines of a text

A text is its last line, or a line and a line feed before others. Properties of texts that are about
lines are shown by induction over these, and two equations tell what the first line is.
-/
namespace GrammarOutline.Text

variable {line : List Char}

/-- A text is its last line, or a line before others. -/
@[elab_as_elim]
theorem lineInduction {motive : List Char → Prop} (last : ∀ line, '\n' ∉ line → motive line)
    (more : ∀ line rest, '\n' ∉ line → motive rest → motive (line ++ '\n' :: rest))
    (text : List Char) : motive text := by
  induction hlength : text.length using Nat.strong_induction_on generalizing text with
  | _ length ih =>
  subst hlength
  by_cases hfeed : '\n' ∈ text
  · obtain ⟨line, rest, rfl, hline⟩ := List.eq_append_cons_of_mem hfeed
    exact more line rest hline (ih rest.length (by simp; omega) rest rfl)
  · exact last text hfeed

theorem ne_of_not_mem (h : '\n' ∉ line) : ∀ c ∈ line, (c != '\n') = true := by
  intro c hc
  simpa using fun hfeed : c = '\n' => h (hfeed ▸ hc)

theorem splitOn_of_not_mem (h : '\n' ∉ line) : line.splitOn '\n' = [line] :=
  List.splitOnP_eq_singleton fun c hc => by simpa using ne_of_not_mem h c hc

theorem splitOn_append (h : '\n' ∉ line) (rest : List Char) :
    (line ++ '\n' :: rest).splitOn '\n' = line :: rest.splitOn '\n' :=
  List.splitOnP_append_cons_of_forall_mem (fun c hc => by simpa using ne_of_not_mem h c hc)
    '\n' (by simp) rest

theorem takeWhile_of_oneLine (h : '\n' ∉ line) (rest : List Char) :
    (line ++ rest).takeWhile (· != '\n') = line ++ rest.takeWhile (· != '\n') ∧
      (line ++ rest).dropWhile (· != '\n') = rest.dropWhile (· != '\n') :=
  ⟨List.takeWhile_append_of_pos (ne_of_not_mem h), List.dropWhile_append_of_pos (ne_of_not_mem h)⟩

/-- What follows a line feed plays no part in the search for the first one. -/
theorem takeWhile_append_feed (text rest : List Char) :
    (text ++ '\n' :: rest).takeWhile (· != '\n') = text.takeWhile (· != '\n') := by
  induction text with
  | nil => rfl
  | cons c text ih => rw [List.cons_append, List.takeWhile_cons, List.takeWhile_cons, ih]

end GrammarOutline.Text
