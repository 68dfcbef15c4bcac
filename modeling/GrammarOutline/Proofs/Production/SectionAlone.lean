import GrammarOutline.Proofs.Production.Malformed
import GrammarOutline.Proofs.Production.Section

/-!
# Rules sections by themselves

Reading a text is reading its rules section by itself: what comes of it is the same grammar or the
same fault, whose place is counted from the start of the text then. What stands outside the section
plays no part.
-/
namespace GrammarOutline

open Parsing

variable {base : Nat} {source : List Char} {fault : Fault}

/-- The place in a source of which the text of the place starts at `base`. -/
def Place.rebase (base : Nat) (source : List Char) (place : Place) : Place :=
  ⟨base + place.offset, some source⟩

/-- The fault of a text as a fault of a source in which this text starts at `base`. Only its place
changes. -/
def Fault.rebase (base : Nat) (source : List Char) : Fault → Fault
  | .lexical excerpt place => .lexical excerpt (place.rebase base source)
  | .unexpected expected place => .unexpected expected (place.rebase base source)
  | fault => fault

theorem Fault.rebase_of_kind (h : fault.kind = .invariant) : fault.rebase base source = fault := by
  cases fault with
  | lexical | unexpected => simp [kind] at h
  | _ => rfl

/-- Productions are read from the rules section by itself. -/
theorem Production.readRaw_eq_mapError (source : List Char) :
    readRaw source = (readRaw (RulesSection.ofSource source).text).mapError
      (Fault.rebase (RulesSection.ofSource source).base source) := by
  have halone := RulesSection.ofSource_of_forall_not (RulesSection.isMarker_of_mem_text source)
  rw [readRaw, readRaw, halone]
  dsimp only
  cases productions.run noRules (RulesSection.ofSource source).text 0 with
  | success raw next hint => rfl
  | exhausted => simp [Except.mapError, Fault.rebase, Place.rebase]
  | failure f =>
    cases hexcerpt : f.excerpt <;> simp [Except.mapError, Fault.rebase, Place.rebase, hexcerpt]

/-- A grammar is read from the rules section by itself, and so are its faults, but for their
places. -/
theorem Grammar.read_eq_mapError (source : List Char) :
    Grammar.read source = (Grammar.read (RulesSection.ofSource source).text).mapError
      (Fault.rebase (RulesSection.ofSource source).base source) := by
  rw [Grammar.read, Grammar.read, Production.readRaw_eq_mapError]
  cases Production.readRaw (RulesSection.ofSource source).text with
  | error fault => rfl
  | ok raw =>
    show empty.addAll raw = (empty.addAll raw).mapError _
    cases hadd : empty.addAll raw with
    | ok g => rfl
    | error fault => exact congrArg Except.error (Fault.rebase_of_kind (kind_of_addAll hadd)).symm

theorem Grammar.read_eq_ok_iff_alone {g : Grammar} :
    Grammar.read source = .ok g ↔ Grammar.read (RulesSection.ofSource source).text = .ok g := by
  rw [read_eq_mapError source]
  cases Grammar.read (RulesSection.ofSource source).text <;> simp [Except.mapError]

theorem Grammar.read_eq_error_iff_alone :
    Grammar.read source = .error fault ↔ ∃ alone,
      Grammar.read (RulesSection.ofSource source).text = .error alone ∧
        fault = alone.rebase (RulesSection.ofSource source).base source := by
  rw [read_eq_mapError source]
  cases Grammar.read (RulesSection.ofSource source).text <;> simp [Except.mapError, eq_comm]

/-- Reading a text is reading its rules section. The section is a slice of the text without a marker
line, and is its own section. Both are read as the same grammar, or refused with the same fault,
whose place in the text is further by the base of the section. So all texts with this section are
read as the same grammar. -/
theorem Grammar.read_section_alone (source : List Char) :
    let rules := RulesSection.ofSource source
    rules.text = (source.drop rules.base).take rules.text.length ∧
    (∀ line ∈ rules.text.splitOn '\n', RulesSection.isMarker line = false) ∧
    RulesSection.ofSource rules.text = ⟨0, rules.text⟩ ∧
    (∀ g, Grammar.read source = .ok g ↔ Grammar.read rules.text = .ok g) ∧
    (∀ fault, Grammar.read source = .error fault ↔
      ∃ alone, Grammar.read rules.text = .error alone ∧ fault = alone.rebase rules.base source) ∧
    ∀ other, (RulesSection.ofSource other).text = rules.text →
      ∀ g, Grammar.read other = .ok g ↔ Grammar.read source = .ok g := by
  intro rules
  have hmarkers := RulesSection.isMarker_of_mem_text source
  refine ⟨List.prefix_iff_eq_take.1 (RulesSection.slice_of_text source), hmarkers,
    RulesSection.ofSource_of_forall_not hmarkers, fun g => read_eq_ok_iff_alone,
    fun fault => read_eq_error_iff_alone, fun other hother g => ?_⟩
  rw [read_eq_ok_iff_alone, hother, ← read_eq_ok_iff_alone]

/-- A quote that is not closed between two markers, of which the first has blanks and a carriage
return behind its signs. -/
theorem Grammar.read_section_alone_openQuote :
    let source := "x %%\n%% \t\r\na : b\n | 'x ;\n%%\n%%\n".toList
    let alone := "\na : b\n | 'x ;\n".toList
    RulesSection.ofSource source = ⟨10, alone⟩ ∧
      Grammar.read alone = .error (.lexical "'x" (Place.inSource alone 10)) ∧
      Grammar.read source = .error (.lexical "'x" (Place.inSource source 20)) := by
  intro source alone
  have hsection : RulesSection.ofSource source = ⟨10, alone⟩ := by decide +kernel
  have hraw : Production.readRaw alone = .error (.lexical "'x" (Place.inSource alone 10)) := by
    decide +kernel
  have halone : Grammar.read alone = .error (.lexical "'x" (Place.inSource alone 10)) :=
    bind_eq_error_iff.2 (.inl hraw)
  have hfault := (Grammar.read_section_alone source).2.2.2.2.1
  rw [hsection] at hfault
  exact ⟨hsection, halone, (hfault _).2 ⟨_, halone, rfl⟩⟩

end GrammarOutline
