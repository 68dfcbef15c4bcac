import GrammarOutline.Parsing.Failure
import Mathlib.Data.List.Infix
import Mathlib.Tactic.Common

/-!
# The wording of joined failures

A text that is one expectation does not read as a join of several, not even when a blank comes after
it. Such texts can be joined and split again. So failures at one place that expect different texts
are joined into one that lists them all.
-/
namespace GrammarOutline.Parsing

/-- The text is one expectation, whatever it is joined with. -/
def IsSingle (text : String) : Prop := ¬disjunction.toList <:+: text.toList ++ [' ']

instance (text : String) : Decidable (IsSingle text) := inferInstanceAs (Decidable (¬_))

section Splitting

variable {c : Char} {text rest : List Char} {texts : List String}

theorem not_isPrefixOf_of_isInfix (h : ¬disjunction.toList <:+: (c :: text) ++ [' ']) :
    disjunction.toList.isPrefixOf (c :: text) = false := by
  rw [Bool.eq_false_iff, Ne, List.isPrefixOf_iff_prefix]
  exact fun hstart => h (hstart.isInfix.trans (List.prefix_append _ _).isInfix)

/-- A disjunction that starts in the text ends in it, but for its last blank. -/
theorem not_isPrefixOf_append (h : ¬disjunction.toList <:+: (c :: text) ++ [' ']) :
    disjunction.toList.isPrefixOf (c :: (text ++ (disjunction.toList ++ rest))) = false := by
  rw [Bool.eq_false_iff, Ne, List.isPrefixOf_iff_prefix]
  intro hstart
  refine h (List.IsPrefix.isInfix ?_)
  match text with
  | [] | [_] => simp [disjunction] at hstart
  | [_, _] | _ :: _ :: _ :: _ => simpa [disjunction] using hstart

theorem splitFrom_of_single (h : ¬disjunction.toList <:+: text ++ [' ']) (part : List Char) :
    splitFrom disjunction.toList 0 part text = [part.reverse ++ text] := by
  induction text generalizing part with
  | nil => simp [splitFrom]
  | cons c text ih =>
    have hmore : ¬disjunction.toList <:+: text ++ [' '] :=
      fun hmore => h (hmore.trans (List.suffix_cons c _).isInfix)
    rw [splitFrom, if_neg (by simp [not_isPrefixOf_of_isInfix h]), ih hmore, List.reverse_cons,
      List.append_assoc, List.singleton_append]

theorem splitFrom_append (h : ¬disjunction.toList <:+: text ++ [' ']) (part rest : List Char) :
    splitFrom disjunction.toList 0 part (text ++ (disjunction.toList ++ rest)) =
      (part.reverse ++ text) :: splitFrom disjunction.toList 0 [] rest := by
  induction text generalizing part with
  | nil => simp [splitFrom, disjunction]
  | cons c text ih =>
    have hmore : ¬disjunction.toList <:+: text ++ [' '] :=
      fun hmore => h (hmore.trans (List.suffix_cons c _).isInfix)
    rw [List.cons_append, splitFrom, if_neg (by simp [not_isPrefixOf_append h]), ih hmore,
      List.reverse_cons, List.append_assoc, List.singleton_append]

/-- Joined expectations are split again. -/
theorem alternatives_intercalate (hne : texts ≠ []) (h : ∀ text ∈ texts, IsSingle text) :
    alternatives (disjunction.intercalate texts) = texts := by
  induction texts with
  | nil => exact absurd rfl hne
  | cons text texts ih =>
    obtain ⟨htext, hmore⟩ := List.forall_mem_cons.1 h
    by_cases hlast : texts = []
    · subst hlast
      rw [String.intercalate_singleton, alternatives, splitFrom_of_single htext]
      simp
    · have hrest := ih hlast hmore
      rw [alternatives] at hrest ⊢
      rw [String.intercalate_cons_of_ne_nil hlast, String.append_assoc, String.toList_append,
        String.toList_append, splitFrom_append htext, List.map_cons, hrest]
      simp

end Splitting

namespace Failure

variable {f : Failure} {texts : List String} {text : String} {position : Int}

/-- The failure that expects any of some texts, and can be backed out of. -/
def expecting (texts : List String) (position : Int) : Failure :=
  ⟨disjunction.intercalate texts, position, false, none⟩

/-- A further expectation at the same place is added to the list. -/
theorem merge_expecting (hne : texts ≠ []) (hsingle : ∀ text ∈ texts, IsSingle text)
    (hnew : text ∉ texts) : (expecting texts position).merge (expecting [text] position) =
      expecting (texts ++ [text]) position := by
  rw [merge]
  simp only [expecting, Int.lt_irrefl, if_false, decide_false, Bool.false_or,
    String.intercalate_singleton, alternatives_intercalate hne hsingle]
  rw [if_neg (by simpa using hnew), String.intercalate_append_of_ne_nil hne (by simp),
    String.intercalate_singleton]

theorem mergeInto_of_forall_lt {hint : Option Failure} (h : ∀ g ∈ hint, g.position < f.position) :
    mergeInto hint f = f := by
  cases hint with
  | none => rfl
  | some g => rw [mergeInto, merge, if_pos (h g rfl)]

end Failure

end GrammarOutline.Parsing
