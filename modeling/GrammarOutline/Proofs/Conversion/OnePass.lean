import GrammarOutline.Proofs.Conversion.Result
import GrammarOutline.Proofs.Expr.Passes

/-!
# One pass settles a body

When the turn of a name comes, the trivial bodies are settled themselves: what they still mention
stands under blocked marks, and it does so wherever they are put. So the first pass over the body of
the name leaves nothing for a second one. The run up to that turn is the start of the whole run, and
what comes after it leaves the settled body as it is.
-/
namespace GrammarOutline

namespace Expr

theorem passesTo_of_same {bodies : Table Expr} {e r : Expr} (hfirst : e.substitute bodies = .ok r)
    (hsecond : r.substitute bodies = .ok r) : PassesTo bodies e r := by
  by_cases hsame : r = e
  · exact hsame ▸ .done hsecond
  · exact .again hfirst hsame (.done hsecond)

end Expr

namespace Conversion

section Turns

variable {graph : Graph} {done : List String} {before after : List (String × Bool)}

/-- The last names of a leaf-first order may follow the first ones. -/
theorem LeafFirst.of_append (h : LeafFirst graph done (before ++ after)) :
    LeafFirst graph done before ∧ LeafFirst graph (done ++ before.map Prod.fst) after := by
  induction before generalizing done with
  | nil => exact ⟨True.intro, by simpa using h⟩
  | cons entry before ih =>
    obtain ⟨hname, hdone, hplain, hrest⟩ := h
    obtain ⟨hbefore, hafter⟩ := ih hrest
    exact ⟨⟨hname, hdone, hplain, hbefore⟩, by simpa using hafter⟩

/-- Every name has one turn. -/
theorem not_mem_after_of_order {name : String} {recursive : Bool}
    (h : order graph graph.components = before ++ (name, recursive) :: after) :
    name ∉ after.map Prod.fst := by
  have hnodup := (Graph.components_flatten_perm graph).nodup_iff.2 graph.nodup_names
  rw [← map_fst_order, h, List.map_append, List.map_cons, List.nodup_append] at hnodup
  exact (List.nodup_cons.1 hnodup.2.1).1

end Turns

namespace Settled

variable {policy : InlinePolicy} {sources : Table Expr} {s t : Settled}

theorem addAll_append (s : Settled) (before after : List (String × Bool)) :
    s.addAll policy sources (before ++ after) =
      (s.addAll policy sources before).bind fun s => s.addAll policy sources after := by
  induction before generalizing s with
  | nil => rfl
  | cons entry before ih =>
    rw [List.cons_append, addAll, addAll]
    cases s.add policy entry.1 entry.2 ((sources.find? entry.1).getD (.ref entry.1)) with
    | error marks => rfl
    | ok next => exact ih next

/-- The turns of other names leave a settled body as it is. -/
theorem find?_bodies_addAll {rest : List (String × Bool)} (h : s.addAll policy sources rest = .ok t)
    {name : String} (hname : name ∉ rest.map Prod.fst) :
    t.bodies.find? name = s.bodies.find? name := by
  induction rest generalizing s with
  | nil => rw [Except.ok.inj h]
  | cons entry rest ih =>
    rw [List.map_cons, List.mem_cons, not_or] at hname
    rw [addAll, bind_eq_ok_iff] at h
    obtain ⟨next, hadd, hrest⟩ := h
    obtain ⟨body, -, rfl⟩ := map_eq_ok_iff.1 hadd
    rw [ih hrest hname.2, Table.find?_insert, if_neg hname.1]

end Settled

end Conversion

open Conversion

/-- In a conversion one pass settles every body. At the turn of a name, with the trivial bodies that
there are by then, inlining its body is one pass over it: a second pass changes nothing, so the
passes end there without any bound on them, and the body that the first one gives is the one that
the conversion has for the name. -/
theorem inline_is_one_pass_in_convert {g : Grammar} {extra : Definitions} (h : g.Admits extra)
    (policy : InlinePolicy) :
    let sources := sources g extra
    let graph := Definitions.graph sources
    ∃ final, settle policy sources = .ok final ∧
      g.convert extra policy = .ok (ofSettled g extra policy final) ∧
      ∀ before name recursive after,
        order graph graph.components = before ++ (name, recursive) :: after →
        ∃ s body r, Settled.addAll policy sources {} before = .ok s ∧
          sources.find? name = some body ∧ body.inline s.trivial = body.substitute s.trivial ∧
          body.substitute s.trivial = .ok r ∧ r.substitute s.trivial = .ok r ∧
          Expr.PassesTo s.trivial body r ∧ final.bodies.find? name = some r := by
  intro sources graph
  have hsources : Expr.NormalBodies sources := h.normal_sources
  obtain ⟨final, hfinal, -, hconvert⟩ := h.exists_convert policy
  refine ⟨final, hfinal, hconvert, fun before name recursive after horder => ?_⟩
  have hall : LeafFirst graph [] (before ++ (name, recursive) :: after) :=
    horder ▸ leafFirst_order [] graph.components rfl
  obtain ⟨hbefore, hname, -⟩ := hall.of_append
  obtain ⟨s, hs, hvalid⟩ := (Settled.valid_empty sources).addAll policy hsources hbefore
  obtain ⟨body, hbody⟩ := Table.exists_find?_of_mem (Definitions.names_graph sources ▸ hname)
  have hnormal := hsources name body hbody
  obtain ⟨r, hr, hrnormal⟩ := Expr.exists_substitute hvalid.normal_trivial hnormal
  have hinlined : ∀ n b, s.trivial.find? n = some b → b.IsInlined s.trivial :=
    fun _ _ => hvalid.inlined_trivial
  have hstable : r.substitute s.trivial = .ok r :=
    (Expr.isInlined_substitute hvalid.normal_trivial hinlined hnormal hr).substitute_eq hrnormal
  refine ⟨s, body, r, hs, hbody, Expr.inline_eq_substitute hvalid.normal_trivial hinlined hnormal,
    hr, hstable, Expr.passesTo_of_same hr hstable, ?_⟩
  have hrun : Settled.addAll policy sources {} (before ++ (name, recursive) :: after) = .ok final :=
    horder ▸ hfinal
  rw [Settled.addAll_append, hs] at hrun
  change s.addAll policy sources ((name, recursive) :: after) = .ok final at hrun
  rw [Settled.addAll, hbody, Option.getD_some, hvalid.add_eq hnormal hr name recursive] at hrun
  rw [Settled.find?_bodies_addAll hrun (not_mem_after_of_order horder),
    Table.find?_insert, if_pos rfl]

/-- When lists have their turn, words are trivial, and the name under the mark of a word stays
there. -/
theorem inline_is_one_pass_in_convert_wordLists :
    let sources := sources Grammar.wordLists Definitions.wordNames
    let word := Expr.quant (.ref "NAME") "?"
    let r := Expr.alt [word, .seq [.ref "list", .term "','", word]]
    Grammar.wordLists.Admits Definitions.wordNames ∧
    ∃ s body, Settled.addAll {} sources {} [("NAME", false), ("word", false)] = .ok s ∧
      sources.find? "list" = some body ∧ body.inline s.trivial = .ok r ∧
      r.substitute s.trivial = .ok r := by
  intro sources word r
  obtain ⟨_, -, -, hturns⟩ := inline_is_one_pass_in_convert Grammar.wordLists_admits {}
  have horder : order (Definitions.graph sources) (Definitions.graph sources).components =
      [("NAME", false), ("word", false)] ++ [("list", true)] := by
    rw [Grammar.graph_wordLists]
    simp [order, Graph.isRecursiveGroup, Graph.reachesSelf, Graph.reaches, Graph.reachesFrom,
      Graph.components, Graph.Search.visit, Graph.Search.run, Graph.Search.step,
      Graph.Search.enter, Graph.Search.close, Graph.Search.lowerFirst, Graph.Search.number?,
      Graph.inOrder, Graph.successors, Table.names, Table.contains, Table.find?,
      Table.lookup_cons, Table.empty, Table.insert, Table.put]
  obtain ⟨s, body, r', hs, hbody, hinline, hr, hstable, -⟩ := hturns _ _ _ _ horder
  have hlist : (Settled.addAll {} sources {} [("NAME", false), ("word", false)]).bind
      (fun s => ((sources.find? "list").getD .empty).substitute s.trivial) = .ok r := by
    decide +kernel
  rw [hs] at hlist
  change ((sources.find? "list").getD .empty).substitute s.trivial = .ok r at hlist
  rw [hbody, Option.getD_some] at hlist
  obtain rfl : r' = r := Except.ok.inj (hr.symm.trans hlist)
  exact ⟨Grammar.wordLists_admits, s, body, hs, hbody, hinline.trans hr, hstable⟩

end GrammarOutline
