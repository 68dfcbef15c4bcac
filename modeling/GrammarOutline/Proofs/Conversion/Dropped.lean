import GrammarOutline.Proofs.Conversion.Result

/-!
# Leaving out inlined definitions

A policy that leaves out inlined definitions settles the same bodies as one that does not. What it
writes are the same definitions without the inlined ones, and none of those is still mentioned
there.
-/
namespace GrammarOutline

/-- Only the bounds of a policy decide what is trivial. -/
theorem Expr.isTrivial_dropInlined (policy : InlinePolicy) (drops : Bool) (e : Expr) :
    e.isTrivial { policy with dropInlined := drops } = e.isTrivial policy := by
  have hall : ∀ es : List Expr,
      (∀ e ∈ es, e.isTrivial { policy with dropInlined := drops } = e.isTrivial policy) →
      allAtomOrTrivial { policy with dropInlined := drops } es = allAtomOrTrivial policy es := by
    intro es ih
    induction es with
    | nil => rfl
    | cons e es ihes =>
      rw [List.forall_mem_cons] at ih
      rw [allAtomOrTrivial, allAtomOrTrivial, ih.1, ihes ih.2]
  induction e using induct with
  | seq es ih => rw [isTrivial, isTrivial, hall es ih]
  | alt | quant | ref | term => rfl

namespace Conversion

theorem Settled.addAll_dropInlined (policy : InlinePolicy) (drops : Bool) (bodies : Table Expr)
    (s : Settled) (rest : List (String × Bool)) :
    s.addAll { policy with dropInlined := drops } bodies rest = s.addAll policy bodies rest := by
  induction rest generalizing s with
  | nil => rfl
  | cons entry rest ih =>
    simp only [Settled.addAll, Settled.add, Expr.isTrivial_dropInlined, ih]

theorem settle_dropInlined (policy : InlinePolicy) (drops : Bool) (bodies : Table Expr) :
    settle { policy with dropInlined := drops } bodies = settle policy bodies :=
  Settled.addAll_dropInlined policy drops bodies {} _

theorem definitions_dropInlined (g : NamedProductions) (extra : Definitions)
    (policy : InlinePolicy) (s : Settled) :
    (ofSettled g extra { policy with dropInlined := true } s).definitions =
      (ofSettled g extra { policy with dropInlined := false } s).definitions.filter fun d =>
        d.name ∉ (ofSettled g extra { policy with dropInlined := false } s).inlined := by
  dsimp only [ofSettled]
  rw [List.filter_map, List.filter_filter]
  refine congrArg (List.map _) (List.filter_congr fun entry _ => ?_)
  simp [Bool.and_comm]

end Conversion

/-- Leaving out inlined definitions changes nothing else, and it leaves no name without a
definition. -/
theorem dropping_removes_inlined (g : Grammar) (extra : Definitions) (policy : InlinePolicy)
    (hextra : g.Admits extra) :
    ∃ c d, g.convert extra { policy with dropInlined := false } = .ok c ∧
      g.convert extra { policy with dropInlined := true } = .ok d ∧
      d.extra = c.extra ∧ d.components = c.components ∧ d.trivial = c.trivial ∧
      d.inlined = c.inlined ∧
      d.definitions = c.definitions.filter (fun definition => definition.name ∉ c.inlined) ∧
      ∀ definition ∈ d.all, ∀ name ∈ definition.body.references,
        name ∈ g.names ∨ name ∈ extra.names → ∃ other ∈ d.all, other.name = name := by
  obtain ⟨s, hs, hvalid, hconvert⟩ := hextra.exists_convert { policy with dropInlined := true }
  obtain ⟨t, ht, -, hconvert'⟩ := hextra.exists_convert { policy with dropInlined := false }
  rw [Conversion.settle_dropInlined] at hs ht
  obtain rfl : s = t := Except.ok.inj (hs.symm.trans ht)
  refine ⟨_, _, hconvert', hconvert, rfl, rfl, rfl, rfl,
    Conversion.definitions_dropInlined g extra policy s, ?_⟩
  intro definition hmem name hname hdefined
  obtain ⟨hb, hkept⟩ := (Conversion.mem_all_ofSettled hextra hvalid).1 hmem
  obtain ⟨b, hfound⟩ := Table.exists_find?_of_mem (hvalid.mem_names_bodies.2 hdefined.symm)
  have hkept' := Conversion.not_leftOut_of_mem_references hkept hb hname
  exact ⟨⟨name, b⟩, (Conversion.mem_all_ofSettled hextra hvalid).2 ⟨hfound, hkept'⟩, rfl⟩

theorem dropping_removes_inlined_wordLists :
    Grammar.wordLists.Admits Definitions.wordNames ∧
    ∃ c d, Grammar.wordLists.convert Definitions.wordNames { dropInlined := false } = .ok c ∧
      Grammar.wordLists.convert Definitions.wordNames { dropInlined := true } = .ok d ∧
      d.extra = c.extra ∧ d.components = c.components ∧ d.trivial = c.trivial ∧
      d.inlined = c.inlined ∧
      d.definitions = c.definitions.filter (fun definition => definition.name ∉ c.inlined) ∧
      ∀ definition ∈ d.all, ∀ name ∈ definition.body.references,
        name ∈ Grammar.wordLists.names ∨ name ∈ Definitions.wordNames.names →
          ∃ other ∈ d.all, other.name = name :=
  ⟨Grammar.wordLists_admits, dropping_removes_inlined _ _ {} Grammar.wordLists_admits⟩

example : (Grammar.wordLists.convert Definitions.wordNames { dropInlined := true }).map
    (fun d => (d.definitions.map Definition.name, d.inlined)) = .ok (["list"], ["word"]) := by cbv

end GrammarOutline
