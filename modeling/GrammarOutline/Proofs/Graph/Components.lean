import GrammarOutline.Proofs.Graph.SearchStep

/-!
# Components of a graph

A whole search enters every node and leaves the stack empty, so the components it has found hold
every node once. They are the classes of nodes that reach each other, and no edge leads to a
component that is listed later.
-/
namespace GrammarOutline.Graph
open Relation

namespace Search

variable {g : Graph} {s : Search}

theorem mem_names_step {name : String} (h : name ∈ s.numbers.names) :
    name ∈ (s.step g).numbers.names := by
  have henter : ∀ (t : Search) (target : String), name ∈ t.numbers.names →
      name ∈ (t.enter g target).numbers.names := by
    intro t target ht
    simp only [enter, Table.names_insert]
    split_ifs
    · exact ht
    · exact List.mem_append_left _ ht
  fun_cases Search.step g s with
  | case4 _ _ target _ _ _ next => exact henter next target h
  | _ => exact h

/-- A run keeps what holds throughout a search and ends without frames. -/
theorem Valid.run (h : Valid g s) :
    Valid g (s.run g) ∧ (s.run g).frames = [] ∧
      ∀ name ∈ s.numbers.names, name ∈ (s.run g).numbers.names := by
  fun_induction Search.run g s with
  | case1 s hframes => exact ⟨h, hframes, fun _ hname => hname⟩
  | case2 s _ ih =>
    obtain ⟨hvalid, hframes, hnames⟩ := ih h.step
    exact ⟨hvalid, hframes, fun name hname => hnames name (mem_names_step hname)⟩

/-- A visit between two runs makes sure that a node has been entered. -/
theorem Valid.visit (h : Valid g s) (hframes : s.frames = []) {name : String}
    (hname : name ∈ g.names) :
    Valid g (s.visit g name) ∧ (s.visit g name).frames = [] ∧
      ∀ n, n = name ∨ n ∈ s.numbers.names → n ∈ (s.visit g name).numbers.names := by
  unfold Search.visit
  by_cases hseen : (s.number? name).isSome
  · have hmem : name ∈ s.numbers.names := Table.isSome_find?_iff.1 hseen
    rw [if_pos hseen]
    refine ⟨h, hframes, ?_⟩
    rintro n (rfl | hn)
    · exact hmem
    · exact hn
  · rw [if_neg hseen]
    have hnew : name ∉ s.numbers.names := fun hmem => hseen (Table.isSome_find?_iff.2 hmem)
    obtain ⟨hvalid, hdone, hnames⟩ := (h.enter hname hnew (by simp [hframes])).run
    refine ⟨hvalid, hdone, fun n hn => hnames n ?_⟩
    rw [names_enter hnew, List.mem_append, List.mem_singleton]
    exact hn.symm

theorem Valid.foldl_visit (h : Valid g s) (hframes : s.frames = []) {names : List String}
    (hnames : ∀ name ∈ names, name ∈ g.names) :
    Valid g (names.foldl (Search.visit g) s) ∧ (names.foldl (Search.visit g) s).frames = [] ∧
      ∀ n, n ∈ names ∨ n ∈ s.numbers.names →
        n ∈ (names.foldl (Search.visit g) s).numbers.names := by
  induction names generalizing s with
  | nil => exact ⟨h, hframes, by simp⟩
  | cons name names ih =>
    obtain ⟨hvalid, hdone, hentered⟩ := h.visit hframes (hnames name List.mem_cons_self)
    obtain ⟨hvalid', hdone', hentered'⟩ :=
      ih hvalid hdone fun n hn => hnames n (List.mem_cons_of_mem _ hn)
    refine ⟨hvalid', hdone', fun n hn => hentered' n ?_⟩
    rcases hn with hn | hn
    · rcases List.mem_cons.1 hn with rfl | hn
      · exact .inr (hentered n (.inl rfl))
      · exact .inl hn
    · exact .inr (hentered n (.inr hn))

theorem valid_empty (g : Graph) : Valid g {} := by
  constructor <;> simp [Layered]

/-- The whole search has found a component for every node. -/
theorem exists_valid_components (g : Graph) :
    ∃ s : Search, Valid g s ∧ s.found = g.components.reverse ∧
      ∀ name, name ∈ s.found.flatten ↔ name ∈ g.names := by
  obtain ⟨hvalid, hframes, hentered⟩ :=
    (valid_empty g).foldl_visit rfl (fun name (h : name ∈ g.names) => h)
  refine ⟨_, hvalid, by simp [components], fun name => ?_⟩
  have hstack : (g.names.foldl (Search.visit g) {}).stack = [] := by
    have := hvalid.layered
    rwa [hframes] at this
  rw [hvalid.mem_found, hstack]
  constructor
  · rintro ⟨hmem, -⟩
    exact hvalid.entered name hmem
  · exact fun h => ⟨hentered name (.inl h), List.not_mem_nil⟩

end Search

theorem isComponent_of_mem_components {g : Graph} {c : List String} (hc : c ∈ g.components) :
    g.IsComponent c := by
  obtain ⟨s, hvalid, hfound, -⟩ := Search.exists_valid_components g
  exact hvalid.component c (hfound ▸ List.mem_reverse.2 hc)

theorem components_flatten_perm (g : Graph) : g.components.flatten.Perm g.names := by
  obtain ⟨s, hvalid, hfound, hmem⟩ := Search.exists_valid_components g
  have hperm : s.found.flatten.Perm g.components.flatten := by
    rw [hfound]
    exact (List.reverse_perm _).flatten
  refine hperm.symm.trans ((List.perm_ext_iff_of_nodup hvalid.nodup_found g.nodup_names).2 hmem)

theorem components_leafFirst (g : Graph) :
    g.components.Pairwise fun earlier later => ∀ a ∈ earlier, ∀ b ∈ later, ¬g.Edge a b := by
  obtain ⟨s, hvalid, hfound, -⟩ := Search.exists_valid_components g
  have := hvalid.leafFirst
  rwa [hfound, List.pairwise_reverse] at this

theorem exists_mem_components {g : Graph} {name : String} (h : name ∈ g.names) :
    ∃ c ∈ g.components, name ∈ c :=
  List.mem_flatten.1 ((components_flatten_perm g).mem_iff.2 h)

theorem reflTransGen_and_iff {α : Type} {r : α → α → Prop} {a b : α} :
    ReflTransGen r a b ∧ ReflTransGen r b a ↔ a = b ∨ TransGen r a b ∧ TransGen r b a := by
  constructor
  · rintro ⟨hab, hba⟩
    rcases reflTransGen_iff_eq_or_transGen.1 hab with rfl | hab
    · exact .inl rfl
    rcases reflTransGen_iff_eq_or_transGen.1 hba with rfl | hba
    · exact .inl rfl
    · exact .inr ⟨hab, hba⟩
  · rintro (rfl | ⟨hab, hba⟩)
    · exact ⟨.refl, .refl⟩
    · exact ⟨hab.to_reflTransGen, hba.to_reflTransGen⟩

/-- The components of a graph hold every node once and are the classes of nodes that reach each
other. None has an edge to a later one, and each is in the order of the graph. -/
theorem components_correct (g : Graph) :
    g.components.flatten.Perm g.names ∧
    (∀ a ∈ g.names, ∀ b ∈ g.names, (∃ c ∈ g.components, a ∈ c ∧ b ∈ c) ↔
      a = b ∨ TransGen g.Edge a b ∧ TransGen g.Edge b a) ∧
    (g.components.Pairwise fun earlier later => ∀ a ∈ earlier, ∀ b ∈ later, ¬g.Edge a b) ∧
    ∀ c ∈ g.components, c ≠ [] ∧ c.Sublist g.names := by
  refine ⟨components_flatten_perm g, fun a ha b hb => ?_, components_leafFirst g, fun c hc =>
    ⟨(isComponent_of_mem_components hc).nonempty, (isComponent_of_mem_components hc).sublist⟩⟩
  rw [← reflTransGen_and_iff]
  constructor
  · rintro ⟨c, hc, hac, hbc⟩
    exact ((isComponent_of_mem_components hc).mem_iff a hac b hb).1 hbc
  · intro hpaths
    obtain ⟨c, hc, hac⟩ := exists_mem_components ha
    exact ⟨c, hc, hac, ((isComponent_of_mem_components hc).mem_iff a hac b hb).2 hpaths⟩

end GrammarOutline.Graph
