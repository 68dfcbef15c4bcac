import GrammarOutline.Proofs.Conversion.Result
import GrammarOutline.Proofs.Graph.Recursive
import Mathlib.Data.Fintype.Card
import Mathlib.Data.Fintype.Sets

/-!
# What settled bodies are determined by

A settled body is the body from which it comes with the trivial bodies put in, and a settled body is
trivial if it is small and its name lies on no cycle. The order in which bodies are settled plays no
part in it: only one choice of bodies is like that.
-/
namespace GrammarOutline
open Relation

/-- Induction along the nodes that lie on no cycle, from those to which a node leads to the node. -/
theorem Graph.acyclic_induct {graph : Graph} {p : String → Prop}
    (step : ∀ n ∈ graph.names, (∀ m ∈ graph.names, TransGen graph.Edge n m →
      ¬TransGen graph.Edge m m → p m) → p n) {n : String} (hn : n ∈ graph.names) : p n := by
  let leads := fun m n : {n // n ∈ graph.names} =>
    TransGen graph.Edge n m ∧ ¬TransGen graph.Edge m m
  have : IsTrans _ leads := ⟨fun _ _ _ hab hbc => ⟨hbc.1.trans hab.1, hab.2⟩⟩
  have : Std.Irrefl leads := ⟨fun _ h => h.2 h.1⟩
  have hwf : WellFounded leads := Finite.wellFounded_of_trans_of_irrefl leads
  exact hwf.induction (C := fun n => p n) ⟨n, hn⟩ fun n ih =>
    step n n.2 fun m hm hpath hcycle => ih ⟨m, hm⟩ ⟨hpath, hcycle⟩

theorem Definitions.edge_eq {defs defs' : Definitions} (h : ∀ n, defs.find? n = defs'.find? n) :
    (graph defs).Edge = (graph defs').Edge := by
  funext source target
  rw [eq_iff_iff, edge_graph_iff, edge_graph_iff, h source, ← Table.isSome_find?_iff, h target,
    Table.isSome_find?_iff]

namespace Conversion

/-- A name in the order of components is marked as recursive exactly if it lies on a cycle. -/
theorem recursive_iff_of_mem_order {graph : Graph} {name : String} {recursive : Bool}
    (h : (name, recursive) ∈ order graph graph.components) :
    recursive = true ↔ TransGen graph.Edge name name := by
  obtain ⟨c, hc, h⟩ := List.mem_flatMap.1 h
  obtain ⟨_, hname, ⟨⟩⟩ := List.mem_map.1 h
  exact Graph.isRecursiveGroup_iff_of_mem hc hname

namespace Settled

/-- The bodies of the names in `done` have the trivial ones put in, and the trivial ones are those
that are small and whose names lie on no cycle. -/
structure Determined (policy : InlinePolicy) (sources : Table Expr) (done : List String)
    (s : Settled) : Prop where
  mem_done : ∀ n b, s.bodies.find? n = some b → n ∈ done
  body : ∀ n ∈ done, ∀ b, sources.find? n = some b →
    ∃ r, b.substitute s.trivial = .ok r ∧ s.bodies.find? n = some r
  trivial_iff : ∀ n b, s.trivial.find? n = some b ↔ s.bodies.find? n = some b ∧
    b.isTrivial policy = true ∧ ¬TransGen (Definitions.graph sources).Edge n n

section Run

variable {policy : InlinePolicy} {sources : Table Expr} {done : List String} {s t : Settled}

theorem determined_empty (policy : InlinePolicy) (sources : Table Expr) :
    Determined policy sources [] {} := by
  constructor <;> simp

theorem Valid.find?_trivial_eq_none (h : s.Valid sources done) {name : String}
    (hdone : name ∉ done) : s.trivial.find? name = none := by
  cases hb : s.trivial.find? name with
  | none => rfl
  | some b => exact absurd (h.mem_done (h.trivial_bodies name b hb)) hdone

theorem Valid.find?_trivial_insert (h : s.Valid sources done) {name : String} (hdone : name ∉ done)
    (becomes : Bool) (r : Expr) (n : String) :
    (if becomes then s.trivial.insert name r else s.trivial).find? n =
      if n = name then (if becomes then some r else none) else s.trivial.find? n := by
  cases becomes with
  | true => exact Table.find?_insert s.trivial name r n
  | false =>
    by_cases hname : n = name
    · simp [hname, h.find?_trivial_eq_none hdone]
    · simp [hname]

/-- A name to which no body so far leads may become trivial without changing what these bodies
are. -/
theorem substitute_insert_trivial {name : String} {becomes : Bool} (r : Expr)
    (hname : name ∈ sources.names)
    (hplain : becomes = true → ∀ n, n = name ∨ n ∈ done →
      ¬TransGen (Definitions.graph sources).Edge n name) {n : String} {b : Expr}
    (hn : n = name ∨ n ∈ done) (hb : sources.find? n = some b) :
    b.substitute (if becomes then s.trivial.insert name r else s.trivial) =
      b.substitute s.trivial := by
  cases becomes with
  | false => rfl
  | true =>
    refine Expr.substitute_congr fun m hm => ?_
    have hne : m ≠ name := by
      rintro rfl
      exact hplain rfl n hn (.single (Definitions.edge_graph_iff.2 ⟨⟨b, hb, hm⟩, hname⟩))
    rw [if_pos rfl, Table.find?_insert, if_neg hne]

/-- One more body does not change what the earlier ones are. -/
theorem Determined.add (h : s.Determined policy sources done) (hvalid : s.Valid sources done)
    {name : String} {recursive : Bool} {body : Expr} (hbody : sources.find? name = some body)
    (hnormal : body.IsNormal) (hdone : name ∉ done)
    (hplain : recursive = false →
      ∀ n, n = name ∨ n ∈ done → ¬TransGen (Definitions.graph sources).Edge n name)
    (hrecursive : recursive = true → TransGen (Definitions.graph sources).Edge name name)
    (ht : s.add policy name recursive body = .ok t) :
    t.Determined policy sources (done ++ [name]) := by
  obtain ⟨r, hr, -⟩ := Expr.exists_substitute hvalid.normal_trivial hnormal
  rw [hvalid.add_eq hnormal hr name recursive] at ht
  obtain rfl := Except.ok.inj ht
  constructor
  case mem_done =>
    intro n b hb
    rcases Table.find?_insert_eq_some hb with ⟨rfl, -⟩ | ⟨-, hb⟩
    · simp
    · exact List.mem_append_left _ (h.mem_done n b hb)
  case body =>
    intro n hn b hb
    have hn : n = name ∨ n ∈ done := by simpa [or_comm] using hn
    dsimp only
    rw [substitute_insert_trivial r (Table.mem_names_of_find? hbody)
      (fun hbecomes => hplain (by simpa using (Bool.and_eq_true_iff.1 hbecomes).1)) hn hb,
      Table.find?_insert]
    split_ifs with hname
    · obtain rfl : b = body := Option.some.inj (hb.symm.trans (hname ▸ hbody))
      exact ⟨r, hr, rfl⟩
    · exact h.body n (hn.resolve_left hname) b hb
  case trivial_iff =>
    intro n b
    dsimp only
    rw [hvalid.find?_trivial_insert hdone, Table.find?_insert]
    by_cases hname : n = name
    · subst hname
      have hcycle : recursive = true ↔ TransGen (Definitions.graph sources).Edge n n := by
        refine ⟨hrecursive, fun hpath => ?_⟩
        by_contra hfalse
        exact hplain (by simpa using hfalse) n (.inl rfl) hpath
      rw [if_pos rfl, if_pos rfl, ← hcycle, Option.ite_none_right_eq_some, Option.some.injEq,
        Bool.and_eq_true, Bool.not_eq_true', Bool.not_eq_true]
      constructor
      · rintro ⟨⟨hfalse, hsmall⟩, rfl⟩
        exact ⟨rfl, hsmall, hfalse⟩
      · rintro ⟨rfl, hsmall, hfalse⟩
        exact ⟨⟨hfalse, hsmall⟩, rfl⟩
    · rw [if_neg hname, if_neg hname]
      exact h.trivial_iff n b

theorem Determined.addAll (h : s.Determined policy sources done) (hvalid : s.Valid sources done)
    (hsources : Expr.NormalBodies sources) {rest : List (String × Bool)}
    (hrest : LeafFirst (Definitions.graph sources) done rest)
    (hrecursive : ∀ name recursive, (name, recursive) ∈ rest → recursive = true →
      TransGen (Definitions.graph sources).Edge name name)
    (ht : s.addAll policy sources rest = .ok t) :
    t.Determined policy sources (done ++ rest.map Prod.fst) := by
  induction rest generalizing done s with
  | nil => simpa [← Except.ok.inj ht] using h
  | cons entry rest ih =>
    obtain ⟨name, recursive⟩ := entry
    obtain ⟨hname, hdone, hplain, hrest⟩ := hrest
    rw [Definitions.names_graph] at hname
    obtain ⟨body, hbody⟩ := Table.exists_find?_of_mem hname
    obtain ⟨u, hu, hvalid'⟩ := hvalid.add policy hsources hbody hdone hplain
    rw [Settled.addAll, hbody, Option.getD_some, hu] at ht
    have hadded := h.add hvalid hbody (hsources name body hbody) hdone hplain
      (hrecursive name recursive List.mem_cons_self) hu
    have := ih hadded hvalid' hrest
      (fun n marked hn => hrecursive n marked (List.mem_cons_of_mem _ hn)) ht
    simpa using this

theorem determined_of_settle (hsources : Expr.NormalBodies sources)
    (h : settle policy sources = .ok s) : s.Determined policy sources sources.names := by
  have hdetermined := (determined_empty policy sources).addAll (valid_empty sources) hsources
    (leafFirst_order [] (Definitions.graph sources).components rfl)
    (fun _ _ hmem => (recursive_iff_of_mem_order hmem).1) h
  have hmem : ∀ n, n ∈ (Definitions.graph sources).components.flatten ↔
      n ∈ sources.names := fun n => by
    rw [(Graph.components_flatten_perm _).mem_iff, Definitions.names_graph]
  rw [List.nil_append, map_fst_order] at hdetermined
  exact ⟨fun n b hb => (hmem n).1 (hdetermined.mem_done n b hb),
    fun n hn => hdetermined.body n ((hmem n).2 hn), hdetermined.trivial_iff⟩

end Run

section Unique

variable {policy : InlinePolicy} {sources sources' : Table Expr} {s t : Settled}

/-- Only what the bodies are matters, not their order. -/
theorem Determined.congr (h : s.Determined policy sources sources.names)
    (hsources : ∀ n, sources.find? n = sources'.find? n) :
    s.Determined policy sources' sources'.names := by
  have hnames : ∀ n, n ∈ sources.names ↔ n ∈ sources'.names := fun n => by
    rw [← Table.isSome_find?_iff, ← Table.isSome_find?_iff, hsources]
  refine ⟨fun n b hb => (hnames n).1 (h.mem_done n b hb), fun n hn b hb => ?_, fun n b => ?_⟩
  · exact h.body n ((hnames n).2 hn) b (hsources n ▸ hb)
  · rw [h.trivial_iff, Definitions.edge_eq hsources]

theorem Determined.find?_bodies_of_not_mem
    (h : s.Determined policy sources sources.names) {n : String} (hn : n ∉ sources.names) :
    s.bodies.find? n = none :=
  Option.eq_none_iff_forall_ne_some.2 fun b hb => hn (h.mem_done n b hb)

theorem Determined.find?_trivial_of_cycle
    (h : s.Determined policy sources sources.names) {n : String}
    (hcycle : TransGen (Definitions.graph sources).Edge n n) : s.trivial.find? n = none :=
  Option.eq_none_iff_forall_ne_some.2 fun b hb => ((h.trivial_iff n b).1 hb).2.2 hcycle

theorem Determined.find?_trivial_eq (hs : s.Determined policy sources sources.names)
    (ht : t.Determined policy sources sources.names) {n : String}
    (h : s.bodies.find? n = t.bodies.find? n) : s.trivial.find? n = t.trivial.find? n :=
  Option.ext fun b => by rw [hs.trivial_iff, ht.trivial_iff, h]

/-- There is only one choice of determined bodies. -/
theorem Determined.unique (hs : s.Determined policy sources sources.names)
    (ht : t.Determined policy sources sources.names) (n : String) :
    s.bodies.find? n = t.bodies.find? n := by
  by_cases hn : n ∈ sources.names
  · rw [← Definitions.names_graph] at hn
    refine Graph.acyclic_induct (p := fun n => s.bodies.find? n = t.bodies.find? n)
      (fun n hn ih => ?_) hn
    rw [Definitions.names_graph] at hn
    obtain ⟨b, hb⟩ := Table.exists_find?_of_mem hn
    obtain ⟨r, hr, hfound⟩ := hs.body n hn b hb
    obtain ⟨r', hr', hfound'⟩ := ht.body n hn b hb
    have hsame : b.substitute s.trivial = b.substitute t.trivial := by
      refine Expr.substitute_congr fun m hm => ?_
      by_cases hcycle : TransGen (Definitions.graph sources).Edge m m
      · rw [hs.find?_trivial_of_cycle hcycle, ht.find?_trivial_of_cycle hcycle]
      by_cases hm' : m ∈ sources.names
      · have hedge := Definitions.edge_graph_iff.2 ⟨⟨b, hb, hm⟩, hm'⟩
        exact hs.find?_trivial_eq ht
          (ih m (by rwa [Definitions.names_graph]) (.single hedge) hcycle)
      · exact hs.find?_trivial_eq ht
          (by rw [hs.find?_bodies_of_not_mem hm', ht.find?_bodies_of_not_mem hm'])
    rw [hfound, hfound', Except.ok.inj (hr.symm.trans (hsame.trans hr'))]
  · rw [hs.find?_bodies_of_not_mem hn, ht.find?_bodies_of_not_mem hn]

end Unique

end Settled

/-- The bodies that a conversion settles. -/
structure Settles (g : NamedProductions) (extra : Definitions) (policy : InlinePolicy)
    (s : Settled) : Prop where
  admits : g.Admits extra
  valid : s.Valid (sources g extra) (Definitions.graph (sources g extra)).components.flatten
  determined : s.Determined policy (sources g extra) (sources g extra).names

end Conversion

/-- Admitted definitions can be converted, and what the conversion settles is determined. -/
theorem NamedProductions.Admits.exists_settles {g : NamedProductions} {extra : Definitions}
    (h : g.Admits extra) (policy : InlinePolicy) : ∃ s, Conversion.Settles g extra policy s ∧
      g.convert extra policy = .ok (Conversion.ofSettled g extra policy s) := by
  obtain ⟨s, hs, hvalid, hconvert⟩ := h.exists_convert policy
  exact ⟨s, ⟨h, hvalid, Conversion.Settled.determined_of_settle h.normal_sources hs⟩, hconvert⟩

end GrammarOutline
