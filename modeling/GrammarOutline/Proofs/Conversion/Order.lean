import GrammarOutline.Conversion
import GrammarOutline.Proofs.Graph.Components

/-!
# The order in which bodies are settled

The names of all components come one after the other. A name that is not recursive is not reached
from itself, and nothing that comes before it leads to it either.
-/
namespace GrammarOutline
open Relation

namespace Definitions

@[simp] theorem names_graph (defs : Definitions) : (graph defs).names = defs.names := by
  simp [graph]

/-- A body has an edge to each name that it mentions and that has a body. -/
theorem edge_graph_iff {defs : Definitions} {source target : String} :
    (graph defs).Edge source target ↔
      (∃ body, defs.find? source = some body ∧ target ∈ body.references) ∧ target ∈ defs.names := by
  have hcontains : ((defs.map fun _ body => body.references).contains target = true) ↔
      target ∈ defs.names := by
    simp [Table.contains]
  simp only [Graph.Edge, Graph.successors, graph, Graph.ofReferences, Table.find?_map]
  cases hsource : defs.find? source with
  | none => simp
  | some body =>
    simp only [Option.map_some, Option.getD_some, List.mem_eraseDups, List.mem_filter, hcontains,
      Option.some.injEq, exists_eq_left']

end Definitions

namespace Conversion

/-- Nodes that are to be settled after those of `done`. A name that is not recursive is not reached
from itself or from a name before it. -/
def LeafFirst (graph : Graph) (done : List String) : List (String × Bool) → Prop
  | [] => True
  | (name, recursive) :: rest =>
    name ∈ graph.names ∧ name ∉ done ∧
    (recursive = false → ∀ n, n = name ∨ n ∈ done → ¬TransGen graph.Edge n name) ∧
    LeafFirst graph (done ++ [name]) rest

section Members

variable {graph : Graph}

/-- Names of one component may follow names that do not lead to it. A component of several names is
recursive as a whole. -/
theorem leafFirst_append {recursive : Bool} {rest : List (String × Bool)} {names done : List String}
    (hnodes : ∀ n ∈ names, n ∈ graph.names) (hnodup : names.Nodup)
    (hdone : ∀ n ∈ names, n ∉ done)
    (hplain : recursive = false → ∃ n, names = [n] ∧
      ∀ m, m = n ∨ m ∈ done → ¬TransGen graph.Edge m n)
    (hrest : LeafFirst graph (done ++ names) rest) :
    LeafFirst graph done (names.map (·, recursive) ++ rest) := by
  cases recursive with
  | false =>
    obtain ⟨n, rfl, hn⟩ := hplain rfl
    exact ⟨hnodes n List.mem_cons_self, hdone n List.mem_cons_self, fun _ => hn, hrest⟩
  | true =>
    induction names generalizing done with
    | nil => simpa using hrest
    | cons name names ih =>
      simp only [List.nodup_cons] at hnodup
      simp only [List.mem_cons, forall_eq_or_imp] at hnodes hdone
      refine ⟨hnodes.1, hdone.1, by simp, ih hnodes.2 hnodup.2 ?_ ?_ (by simp)⟩
      · intro n hn
        simp only [List.mem_append, List.mem_singleton, not_or]
        exact ⟨hdone.2 n hn, fun e => hnodup.1 (e ▸ hn)⟩
      · rwa [List.append_assoc]

/-- A component that is not recursive is one name that is not reached from itself. -/
theorem exists_of_isRecursiveGroup {c : List String} (hne : c ≠ [])
    (h : graph.isRecursiveGroup c = false) : ∃ n, c = [n] ∧ ¬TransGen graph.Edge n n := by
  match c with
  | [n] =>
    refine ⟨n, rfl, fun hpath => ?_⟩
    rw [← Graph.reaches_eq_true_iff] at hpath
    simp [Graph.isRecursiveGroup, Graph.reachesSelf, hpath] at h
  | _ :: _ :: _ => simp [Graph.isRecursiveGroup] at h

/-- A path from earlier components leads to no node of a later one. -/
theorem mem_of_path_from_earlier {before after : List (List String)}
    (hall : before ++ after = graph.components) {a b : String} (ha : a ∈ before.flatten)
    (h : ReflTransGen graph.Edge a b) : b ∈ before.flatten ∨ b ∉ graph.names := by
  refine Graph.mem_of_reflTransGen (p := fun n => n ∈ before.flatten ∨ n ∉ graph.names)
    ?_ (.inl ha) h
  intro x y hx hedge
  by_cases hy : y ∈ graph.names
  · obtain ⟨earlier, hearlier, hxe⟩ := List.mem_flatten.1 (hx.resolve_right (· hedge.source_mem))
    obtain ⟨later, hlater, hyl⟩ := Graph.exists_mem_components hy
    rw [← hall, List.mem_append] at hlater
    have hleafFirst := Graph.components_leafFirst graph
    rw [← hall, List.pairwise_append] at hleafFirst
    rcases hlater with hlater | hlater
    · exact .inl (List.mem_flatten.2 ⟨later, hlater, hyl⟩)
    · exact absurd hedge (hleafFirst.2.2 earlier hearlier later hlater x hxe y hyl)
  · exact .inr hy

/-- The components that are left may follow those before them, which no edge leaves. -/
theorem leafFirst_order (before after : List (List String))
    (hall : before ++ after = graph.components) :
    LeafFirst graph before.flatten (order graph after) := by
  induction after generalizing before with
  | nil => trivial
  | cons c after ih =>
    have hmem : ∀ c' ∈ before ++ c :: after, c' ∈ graph.components := fun c' h => hall ▸ h
    have hc := Graph.isComponent_of_mem_components (hmem c (by simp))
    have hnodes : ∀ c' ∈ before ++ c :: after, ∀ n ∈ c', n ∈ graph.names := fun c' h =>
      (Graph.isComponent_of_mem_components (hmem c' h)).sublist.subset
    have hnodup : (before.flatten ++ (c ++ after.flatten)).Nodup := by
      have := (Graph.components_flatten_perm graph).nodup_iff.2 graph.nodup_names
      rwa [← hall, List.flatten_append, List.flatten_cons] at this
    rw [List.nodup_append] at hnodup
    have hapart : ∀ n ∈ c, n ∉ before.flatten := fun n hn hbefore =>
      hnodup.2.2 n hbefore n (List.mem_append_left _ hn) rfl
    have hrest : LeafFirst graph (before.flatten ++ c) (order graph after) := by
      have := ih (before ++ [c]) (by simpa using hall)
      rwa [List.flatten_append, List.flatten_singleton] at this
    refine leafFirst_append (hnodes c (by simp)) (hnodup.2.1.sublist (List.sublist_append_left _ _))
      hapart ?_ hrest
    intro hplain
    obtain ⟨n, rfl, hself⟩ := exists_of_isRecursiveGroup hc.nonempty hplain
    refine ⟨n, rfl, ?_⟩
    rintro m (rfl | hm) hpath
    · exact hself hpath
    · rcases mem_of_path_from_earlier hall hm hpath.to_reflTransGen with hn | hn
      · exact hapart n (by simp) hn
      · exact hn (hnodes [n] (by simp) n (by simp))

theorem map_fst_order (graph : Graph) (components : List (List String)) :
    (order graph components).map Prod.fst = components.flatten := by
  simp [order, List.flatMap_def, Function.comp_def]

end Members

end Conversion

end GrammarOutline
