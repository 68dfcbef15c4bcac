import GrammarOutline.Proofs.Graph.Components

/-!
# Recursive components

A name lies on a cycle when one or more edges lead back to it. The members of a component lead to
each other, so that one of them lies on a cycle exactly if all do, and a component is recursive in
just this case. A name that lies on no cycle leads to fewer nodes than those from which it is
reached.
-/
namespace GrammarOutline.Graph
open Relation

section Components

variable {g : Graph} {c : List String}

/-- A component is recursive exactly if any one of its members lies on a cycle. -/
theorem isRecursiveGroup_iff_of_mem (hc : c ∈ g.components) {name : String} (hname : name ∈ c) :
    g.isRecursiveGroup c = true ↔ TransGen g.Edge name name := by
  have hcomponent := isComponent_of_mem_components hc
  match c with
  | [n] =>
    obtain rfl := List.mem_singleton.1 hname
    simp [isRecursiveGroup, reachesSelf, reaches_eq_true_iff]
  | a :: b :: others =>
    refine iff_of_true (by simp [isRecursiveGroup]) ?_
    have hother : ∃ other ∈ a :: b :: others, other ≠ name := by
      by_contra! hall
      have hnodup := hcomponent.sublist.nodup g.nodup_names
      have hab : a = b := (hall a (by simp)).trans (hall b (by simp)).symm
      exact (List.nodup_cons.1 hnodup).1 (hab ▸ List.mem_cons_self)
    obtain ⟨other, hmem, hne⟩ := hother
    obtain ⟨hto, hfrom⟩ :=
      (hcomponent.mem_iff name hname other (hcomponent.sublist.subset hmem)).1 hmem
    exact ((reflTransGen_iff_eq_or_transGen.1 hto).resolve_left hne).trans_left hfrom

/-- The search for a name is exact, whether the names are nodes or not. A component is recursive
exactly if some member lies on a cycle, and exactly if every member does. -/
theorem recursive_groups_are_cycles (g : Graph) :
    (∀ source target, g.reaches source target = true ↔ TransGen g.Edge source target) ∧
    ∀ c ∈ g.components,
      (g.isRecursiveGroup c = true ↔ ∃ name ∈ c, TransGen g.Edge name name) ∧
      (g.isRecursiveGroup c = true ↔ ∀ name ∈ c, TransGen g.Edge name name) := by
  refine ⟨fun source target => reaches_eq_true_iff, fun c hc => ?_⟩
  have hiff : ∀ name ∈ c, (g.isRecursiveGroup c = true ↔ TransGen g.Edge name name) :=
    fun name hname => isRecursiveGroup_iff_of_mem hc hname
  obtain ⟨first, hfirst⟩ := List.exists_mem_of_ne_nil c (isComponent_of_mem_components hc).nonempty
  constructor
  · constructor
    · intro h
      exact ⟨first, hfirst, (hiff first hfirst).1 h⟩
    · rintro ⟨name, hname, hcycle⟩
      exact (hiff name hname).2 hcycle
  · constructor
    · intro h name hname
      exact (hiff name hname).1 h
    · intro h
      exact (hiff first hfirst).2 (h first hfirst)

/-- Two nodes that lead to each other are one recursive component, with an edge that is repeated and
one to a name that is no node. A node without a way back is a component that is not recursive. -/
theorem recursive_groups_are_cycles_repeated :
    let g : Graph := ⟨[("list", ["item", "item", "comma"]), ("item", ["list", "word"]),
      ("word", ["letter"])], by decide⟩
    ["list", "item"] ∈ g.components ∧ ["word"] ∈ g.components ∧
      (g.reaches "list" "comma" = true ↔ TransGen g.Edge "list" "comma") ∧
      (g.reaches "comma" "list" = true ↔ TransGen g.Edge "comma" "list") ∧
      (g.isRecursiveGroup ["list", "item"] = true ↔
        ∀ name ∈ ["list", "item"], TransGen g.Edge name name) ∧
      (g.isRecursiveGroup ["word"] = true ↔ ∃ name ∈ ["word"], TransGen g.Edge name name) := by
  intro g
  have hcomponents : g.components = [["word"], ["list", "item"]] := by
    simp [g, components, Search.visit, Search.run, Search.step, Search.enter, Search.close,
      Search.lowerFirst, Search.number?, inOrder, successors, Table.names, Table.contains,
      Table.find?, Table.lookup_cons, Table.empty, Table.insert, Table.put, List.mergeSort,
      List.MergeSort.Internal.splitInTwo, List.idxOf_cons]
  have hlist : ["list", "item"] ∈ g.components := by
    rw [hcomponents]
    decide
  have hword : ["word"] ∈ g.components := by
    rw [hcomponents]
    decide
  obtain ⟨hreaches, hgroups⟩ := recursive_groups_are_cycles g
  exact ⟨hlist, hword, hreaches "list" "comma", hreaches "comma" "list", (hgroups _ hlist).2,
    (hgroups _ hword).1⟩

end Components

section Acyclic

variable {g : Graph}

def Acyclic (g : Graph) : Prop := ∀ name, ¬TransGen g.Edge name name

/-- It is enough to ask the nodes. -/
theorem acyclic_iff : g.Acyclic ↔ ∀ name ∈ g.names, g.reachesSelf name = false := by
  simp only [Acyclic, reachesSelf, ← Bool.not_eq_true, reaches_eq_true_iff]
  constructor
  · exact fun h name _ => h name
  · intro h name hcycle
    obtain ⟨next, hedge, -⟩ := TransGen.head'_iff.1 hcycle
    exact h name hedge.source_mem hcycle

instance (g : Graph) : Decidable g.Acyclic := decidable_of_iff _ acyclic_iff.symm

/-- How many nodes one or more edges from a name lead to. -/
def reachCount (g : Graph) (name : String) : Nat := (g.names.filter (g.reaches name)).length

theorem Acyclic.reachCount_lt_of_edge (hacyclic : g.Acyclic) {source target : String}
    (htarget : target ∈ g.names) (hedge : g.Edge source target) :
    g.reachCount target < g.reachCount source := by
  have hfewer : g.names.filter (g.reaches target) =
      (g.names.filter (g.reaches source)).filter (g.reaches target) := by
    rw [List.filter_filter]
    refine List.filter_congr fun n _ => ?_
    rw [Bool.eq_iff_iff, Bool.and_eq_true, reaches_eq_true_iff, reaches_eq_true_iff]
    exact ⟨fun h => ⟨h, .head hedge h⟩, And.left⟩
  rw [reachCount, reachCount, hfewer, List.length_filter_lt_length_iff_exists]
  refine ⟨target, List.mem_filter.2 ⟨htarget, reaches_eq_true_iff.2 (.single hedge)⟩, ?_⟩
  rw [reaches_eq_true_iff]
  exact hacyclic target

theorem Acyclic.reachCount_lt_length (hacyclic : g.Acyclic) {name : String}
    (hname : name ∈ g.names) : g.reachCount name < g.names.length := by
  rw [reachCount, List.length_filter_lt_length_iff_exists]
  refine ⟨name, hname, ?_⟩
  rw [reaches_eq_true_iff]
  exact hacyclic name

end Acyclic

end GrammarOutline.Graph
