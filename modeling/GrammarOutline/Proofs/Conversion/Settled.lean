import GrammarOutline.Proofs.Conversion.Order
import GrammarOutline.Proofs.Expr.Inline

/-!
# What holds of settled bodies

Settling never fails on normal forms. The settled bodies are normal forms again in which the trivial
bodies have been substituted as far as marks allow. They mention only what their names lead to, and
they define the same languages as the bodies from which they come. What every body gets by
substitution holds of all settled bodies.
-/
namespace GrammarOutline
open Relation

namespace Table

variable {α : Type} {bodies : Table Expr} {terms names : String → Language α}
  {defined : List String}

/-- The languages of some names are those of the bodies that a table has for them. -/
def Solves (bodies : Table Expr) (terms names : String → Language α)
    (defined : List String) : Prop :=
  ∀ n ∈ defined, ∀ b, bodies.find? n = some b → names n = b.language terms names

theorem find?_insert_eq_some {t : Table Expr} {name n : String} {body b : Expr}
    (h : (t.insert name body).find? n = some b) :
    n = name ∧ b = body ∨ n ≠ name ∧ t.find? n = some b := by
  rw [find?_insert] at h
  split_ifs at h with hname
  · exact .inl ⟨hname, (Option.some.inj h).symm⟩
  · exact .inr ⟨hname, h⟩

theorem solves_append {name : String} {body : Expr} (h : bodies.find? name = some body) :
    bodies.Solves terms names (defined ++ [name]) ↔
      bodies.Solves terms names defined ∧ names name = body.language terms names := by
  simp only [Solves, List.mem_append, List.mem_singleton, or_imp, forall_and, forall_eq, h,
    Option.some.injEq, forall_eq']

theorem solves_insert {name : String} (body : Expr) (h : name ∉ defined) :
    (bodies.insert name body).Solves terms names defined ↔ bodies.Solves terms names defined := by
  refine forall₂_congr fun n hn => ?_
  have hne : n ≠ name := fun e => h (e ▸ hn)
  rw [find?_insert, if_neg hne]

end Table

namespace Conversion

/-- What holds after the bodies of the names in `done` have been settled. -/
structure Settled.Valid (sources : Table Expr) (done : List String) (s : Settled) : Prop where
  names_bodies : s.bodies.names = done
  known : ∀ n ∈ done, n ∈ sources.names
  normal : Expr.NormalBodies s.bodies
  trivial_bodies : ∀ n b, s.trivial.find? n = some b → s.bodies.find? n = some b
  inlined : ∀ n b, s.bodies.find? n = some b → b.IsInlined s.trivial
  reached : ∀ n b, s.bodies.find? n = some b → ∀ m ∈ b.references, m ∈ sources.names →
    TransGen (Definitions.graph sources).Edge n m
  solves_iff : ∀ (α : Type) (terms names : String → Language α),
    s.bodies.Solves terms names done ↔ sources.Solves terms names done

namespace Settled

variable {policy : InlinePolicy} {sources : Table Expr} {done : List String} {s : Settled}

theorem valid_empty (sources : Table Expr) : Valid sources [] {} := by
  constructor <;> simp [Expr.NormalBodies, Table.Solves]

theorem Valid.normal_trivial (h : Valid sources done s) : Expr.NormalBodies s.trivial :=
  fun n b hb => h.normal n b (h.trivial_bodies n b hb)

theorem Valid.inlined_trivial (h : Valid sources done s) {n : String} {b : Expr}
    (hb : s.trivial.find? n = some b) : b.IsInlined s.trivial :=
  h.inlined n b (h.trivial_bodies n b hb)

theorem Valid.mem_done (h : Valid sources done s) {n : String} {b : Expr}
    (hb : s.bodies.find? n = some b) : n ∈ done := h.names_bodies ▸ Table.mem_names_of_find? hb

/-- Settling one more body substitutes the trivial ones once. -/
theorem Valid.add_eq (h : Valid sources done s) {body r : Expr} (hnormal : body.IsNormal)
    (hr : body.substitute s.trivial = .ok r) (name : String) (recursive : Bool) :
    s.add policy name recursive body = .ok
      { bodies := s.bodies.insert name r
        trivial := if !recursive && r.isTrivial policy then s.trivial.insert name r
          else s.trivial } := by
  rw [Settled.add, Expr.inline_eq_substitute h.normal_trivial
    (fun _ _ => h.inlined_trivial) hnormal, hr]
  rfl

/-- A settled body mentions what its name leads to. -/
theorem Valid.reached_substitute (h : Valid sources done s) {name : String} {body r : Expr}
    (hbody : sources.find? name = some body) (hnormal : body.IsNormal)
    (hr : body.substitute s.trivial = .ok r) {m : String} (hm : m ∈ r.references)
    (hnode : m ∈ sources.names) : TransGen (Definitions.graph sources).Edge name m := by
  rcases Expr.references_substitute h.normal_trivial hnormal hr m hm with hm | ⟨n, hn, b, hb, hm⟩
  · exact .single (Definitions.edge_graph_iff.2 ⟨⟨body, hbody, hm⟩, hnode⟩)
  · have hb := h.trivial_bodies n b hb
    exact .head (Definitions.edge_graph_iff.2 ⟨⟨body, hbody, hn⟩, h.known n (h.mem_done hb)⟩)
      (h.reached n b hb m hm hnode)

/-- A settled body has the language of the body from which it comes. -/
theorem Valid.language_substitute (h : Valid sources done s) {α : Type}
    {terms names : String → Language α} {body r : Expr} (hnormal : body.IsNormal)
    (hr : body.substitute s.trivial = .ok r) (hnames : s.bodies.Solves terms names done) :
    r.language terms names = body.language terms names := by
  refine Expr.language_substitute h.normal_trivial (fun n b hb => ?_) hnormal hr
  have hb := h.trivial_bodies n b hb
  exact hnames n (h.mem_done hb) b hb

theorem Valid.trivial_bodies_insert (h : Valid sources done s) {name : String} (hdone : name ∉ done)
    (body : Expr) {n : String} {b : Expr} (hb : s.trivial.find? n = some b) :
    (s.bodies.insert name body).find? n = some b := by
  have hb := h.trivial_bodies n b hb
  have hne : n ≠ name := fun e => hdone (e ▸ h.mem_done hb)
  rwa [Table.find?_insert, if_neg hne]

theorem Valid.reached_insert (h : Valid sources done s) {name : String} {body r : Expr}
    (hbody : sources.find? name = some body) (hnormal : body.IsNormal)
    (hr : body.substitute s.trivial = .ok r) {n : String} {b : Expr}
    (hb : (s.bodies.insert name r).find? n = some b) {m : String} (hm : m ∈ b.references)
    (hnode : m ∈ sources.names) : TransGen (Definitions.graph sources).Edge n m := by
  rcases Table.find?_insert_eq_some hb with ⟨rfl, rfl⟩ | ⟨-, hb⟩
  · exact h.reached_substitute hbody hnormal hr hm hnode
  · exact h.reached n b hb m hm hnode

/-- The earlier trivial bodies have been put in everywhere, in the new body too. -/
theorem Valid.inlined_insert (h : Valid sources done s) {name : String} {body r : Expr}
    (hnormal : body.IsNormal) (hr : body.substitute s.trivial = .ok r) {n : String} {b : Expr}
    (hb : (s.bodies.insert name r).find? n = some b) : b.IsInlined s.trivial := by
  rcases Table.find?_insert_eq_some hb with ⟨rfl, rfl⟩ | ⟨-, hb⟩
  · exact Expr.isInlined_substitute h.normal_trivial (fun _ _ => h.inlined_trivial) hnormal hr
  · exact h.inlined n b hb

/-- The new body solves the equation of its name when the body from which it comes does. -/
theorem Valid.solves_iff_insert (h : Valid sources done s) {name : String} {body r : Expr}
    (hbody : sources.find? name = some body) (hnormal : body.IsNormal)
    (hr : body.substitute s.trivial = .ok r) (hdone : name ∉ done) {α : Type}
    (terms names : String → Language α) :
    (s.bodies.insert name r).Solves terms names (done ++ [name]) ↔
      sources.Solves terms names (done ++ [name]) := by
  have hfound : (s.bodies.insert name r).find? name = some r := by
    rw [Table.find?_insert, if_pos rfl]
  rw [Table.solves_append hfound, Table.solves_append hbody, Table.solves_insert r hdone,
    h.solves_iff]
  refine and_congr_right fun hsolves => ?_
  rw [h.language_substitute hnormal hr ((h.solves_iff α terms names).2 hsolves)]

/-- One more name can be settled after those that do not need it. -/
theorem Valid.add (h : Valid sources done s) (policy : InlinePolicy)
    (hsources : Expr.NormalBodies sources) {name : String}
    {recursive : Bool} {body : Expr} (hbody : sources.find? name = some body) (hdone : name ∉ done)
    (hplain : recursive = false →
      ∀ n, n = name ∨ n ∈ done → ¬TransGen (Definitions.graph sources).Edge n name) :
    ∃ t, s.add policy name recursive body = .ok t ∧ Valid sources (done ++ [name]) t := by
  have hnormal := hsources name body hbody
  have hname : name ∈ sources.names := Table.mem_names_of_find? hbody
  obtain ⟨r, hr, hrnormal⟩ := Expr.exists_substitute h.normal_trivial hnormal
  refine ⟨_, h.add_eq hnormal hr name recursive, ?_⟩
  constructor
  case names_bodies => rw [Table.names_insert, h.names_bodies, if_neg hdone]
  case known =>
    intro n hn
    rcases List.mem_append.1 hn with hn | hn
    · exact h.known n hn
    · rwa [List.mem_singleton.1 hn]
  case normal =>
    intro n b hb
    rcases Table.find?_insert_eq_some hb with ⟨-, rfl⟩ | ⟨-, hb⟩
    · exact hrnormal
    · exact h.normal n b hb
  case trivial_bodies =>
    intro n b hb
    dsimp only at hb ⊢
    split_ifs at hb
    · rcases Table.find?_insert_eq_some hb with ⟨rfl, rfl⟩ | ⟨-, hb⟩
      · rw [Table.find?_insert, if_pos rfl]
      · exact h.trivial_bodies_insert hdone r hb
    · exact h.trivial_bodies_insert hdone r hb
  case inlined =>
    intro n b hb
    dsimp only at hb ⊢
    split_ifs with htrivial
    · simp only [Bool.and_eq_true, Bool.not_eq_true'] at htrivial
      refine (h.inlined_insert hnormal hr hb).insert r fun hmention => ?_
      refine hplain htrivial.1 n ?_ (h.reached_insert hbody hnormal hr hb hmention hname)
      rcases Table.find?_insert_eq_some hb with ⟨hn, -⟩ | ⟨-, hb⟩
      · exact .inl hn
      · exact .inr (h.mem_done hb)
    · exact h.inlined_insert hnormal hr hb
  case reached => exact fun n b hb m hm hnode => h.reached_insert hbody hnormal hr hb hm hnode
  case solves_iff =>
    exact fun α terms names => h.solves_iff_insert hbody hnormal hr hdone terms names

/-- Names in leaf-first order can be settled one after the other. -/
theorem Valid.addAll (h : Valid sources done s) (policy : InlinePolicy)
    (hsources : Expr.NormalBodies sources)
    {rest : List (String × Bool)} (hrest : LeafFirst (Definitions.graph sources) done rest) :
    ∃ t, s.addAll policy sources rest = .ok t ∧ Valid sources (done ++ rest.map Prod.fst) t := by
  induction rest generalizing done s with
  | nil => exact ⟨s, rfl, by simpa using h⟩
  | cons entry rest ih =>
    obtain ⟨name, recursive⟩ := entry
    obtain ⟨hname, hdone, hplain, hrest⟩ := hrest
    rw [Definitions.names_graph] at hname
    obtain ⟨body, hbody⟩ := Table.exists_find?_of_mem hname
    obtain ⟨t, ht, hvalid⟩ := h.add policy hsources hbody hdone hplain
    obtain ⟨u, hu, hvalid⟩ := ih hvalid hrest
    refine ⟨u, ?_, by simpa using hvalid⟩
    rw [Settled.addAll, hbody, Option.getD_some, ht]
    exact hu

section Kept

variable {p : Expr → Prop}

/-- All settled bodies have a property, and those that are substituted are trivial. -/
structure All (policy : InlinePolicy) (p : Expr → Prop) (s : Settled) : Prop where
  bodies : ∀ n b, s.bodies.find? n = some b → p b
  trivial : ∀ n b, s.trivial.find? n = some b → b.isTrivial policy = true

/-- A body gets the property when trivial normal forms that have it are substituted. -/
def Keeps (policy : InlinePolicy) (p : Expr → Prop) (body : Expr) : Prop :=
  ∀ (table : Table Expr) (r : Expr), Expr.NormalBodies table →
    (∀ n b, table.find? n = some b → p b ∧ b.isTrivial policy = true) →
    body.substitute table = .ok r → p r

theorem All.add {t : Settled} (h : s.All policy p) (hvalid : Valid sources done s) {name : String}
    {recursive : Bool} {body : Expr} (hnormal : body.IsNormal) (hkeeps : Keeps policy p body)
    (ht : s.add policy name recursive body = .ok t) : t.All policy p := by
  obtain ⟨r, hr, -⟩ := Expr.exists_substitute hvalid.normal_trivial hnormal
  rw [hvalid.add_eq hnormal hr name recursive] at ht
  obtain rfl := Except.ok.inj ht
  have hbody : p r := hkeeps s.trivial r hvalid.normal_trivial
    (fun n b hb => ⟨h.bodies n b (hvalid.trivial_bodies n b hb), h.trivial n b hb⟩) hr
  constructor
  case bodies =>
    intro n b hb
    rcases Table.find?_insert_eq_some hb with ⟨-, rfl⟩ | ⟨-, hb⟩
    · exact hbody
    · exact h.bodies n b hb
  case trivial =>
    intro n b hb
    dsimp only at hb
    split_ifs at hb with htrivial
    · rcases Table.find?_insert_eq_some hb with ⟨-, rfl⟩ | ⟨-, hb⟩
      · exact (Bool.and_eq_true_iff.1 htrivial).2
      · exact h.trivial n b hb
    · exact h.trivial n b hb

/-- What every source body gets by substitution holds of all settled bodies. -/
theorem All.addAll {t : Settled} (h : s.All policy p) (hvalid : Valid sources done s)
    (hsources : Expr.NormalBodies sources)
    (hkeeps : ∀ n b, sources.find? n = some b → Keeps policy p b) {rest : List (String × Bool)}
    (hrest : LeafFirst (Definitions.graph sources) done rest)
    (ht : s.addAll policy sources rest = .ok t) : t.All policy p := by
  induction rest generalizing done s with
  | nil => exact Except.ok.inj ht ▸ h
  | cons entry rest ih =>
    obtain ⟨name, recursive⟩ := entry
    obtain ⟨hname, hdone, hplain, hrest⟩ := hrest
    rw [Definitions.names_graph] at hname
    obtain ⟨body, hbody⟩ := Table.exists_find?_of_mem hname
    obtain ⟨u, hu, hvalid'⟩ := hvalid.add policy hsources hbody hdone hplain
    rw [Settled.addAll, hbody, Option.getD_some, hu] at ht
    exact ih (h.add hvalid (hsources name body hbody) (hkeeps name body hbody) hu) hvalid' hrest ht

end Kept

end Settled

theorem Settled.all_of_settle {policy : InlinePolicy} {p : Expr → Prop} {sources : Table Expr}
    {s : Settled} (hsources : Expr.NormalBodies sources)
    (hkeeps : ∀ n b, sources.find? n = some b → Keeps policy p b)
    (h : settle policy sources = .ok s) : s.All policy p := by
  have hempty : Settled.All policy p {} := by constructor <;> simp
  exact hempty.addAll (Settled.valid_empty sources) hsources hkeeps
    (leafFirst_order [] (Definitions.graph sources).components rfl) h

theorem exists_settle (policy : InlinePolicy) {sources : Table Expr}
    (hsources : Expr.NormalBodies sources) : ∃ s, settle policy sources = .ok s ∧
      s.Valid sources (Definitions.graph sources).components.flatten := by
  obtain ⟨s, hs, hvalid⟩ := (Settled.valid_empty sources).addAll policy hsources
    (leafFirst_order [] (Definitions.graph sources).components rfl)
  refine ⟨s, hs, ?_⟩
  rwa [map_fst_order, List.nil_append] at hvalid

end Conversion

end GrammarOutline
