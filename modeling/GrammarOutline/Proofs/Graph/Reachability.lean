import GrammarOutline.Graph.Components
import Mathlib.Logic.Relation
import Mathlib.Tactic.Common

/-!
# Reachability by edges

A target of an edge need not be a node, but no edge leads on from a name that is none. The search
for a name finds it exactly when one or more edges lead there.
-/
namespace GrammarOutline.Graph
open Relation

def Edge (g : Graph) (source target : String) : Prop := target ∈ g.successors source

instance (g : Graph) (source target : String) : Decidable (g.Edge source target) :=
  inferInstanceAs (Decidable (target ∈ g.successors source))

theorem Edge.source_mem {g : Graph} {source target : String} (h : g.Edge source target) :
    source ∈ g.names := by
  by_contra hsource
  rw [Edge, successors_of_not_mem hsource] at h
  exact absurd h List.not_mem_nil

/-- Names that no edge leaves keep everything that is reached from them. -/
theorem mem_of_reflTransGen {g : Graph} {p : String → Prop}
    (hclosed : ∀ x y, p x → g.Edge x y → p y) {source target : String} (hsource : p source)
    (h : ReflTransGen g.Edge source target) : p target := by
  induction h with
  | refl => exact hsource
  | tail _ hedge ih => exact hclosed _ _ ih hedge

theorem exists_of_reachesFrom {g : Graph} {target : String} {seen todo : List String}
    (h : g.reachesFrom target seen todo = true) :
    ∃ name ∈ todo, ReflTransGen g.Edge name target := by
  fun_induction reachesFrom g target seen todo with
  | case1 => simp at h
  | case2 seen todo => exact ⟨target, List.mem_cons_self, .refl⟩
  | case3 seen name todo _ _ ih =>
    obtain ⟨n, hn, hpath⟩ := ih h
    exact ⟨n, List.mem_cons_of_mem _ hn, hpath⟩
  | case4 seen name todo _ _ ih =>
    obtain ⟨n, hn, hpath⟩ := ih h
    rcases List.mem_append.1 hn with hn | hn
    · exact ⟨name, List.mem_cons_self, .head (List.mem_reverse.1 hn) hpath⟩
    · exact ⟨n, List.mem_cons_of_mem _ hn, hpath⟩

/-- A search that fails has seen everything that its names lead to. -/
theorem not_reflTransGen_of_reachesFrom {g : Graph} {target : String} {seen todo : List String}
    (h : g.reachesFrom target seen todo = false) (htarget : target ∉ seen)
    (hseen : ∀ x ∈ seen, ∀ y, g.Edge x y → y ∈ seen ∨ y ∈ todo) {name : String}
    (hname : name ∈ seen ∨ name ∈ todo) : ¬ReflTransGen g.Edge name target := by
  fun_induction reachesFrom g target seen todo generalizing name with
  | case1 seen =>
    simp only [List.not_mem_nil, or_false] at hseen hname
    intro hpath
    exact htarget (mem_of_reflTransGen (p := (· ∈ seen)) (fun x y hx => hseen x hx y) hname hpath)
  | case2 => simp at h
  | case3 seen next todo _ hnext ih =>
    have hskip : ∀ y, y ∈ seen ∨ y ∈ next :: todo → y ∈ seen ∨ y ∈ todo := by
      rintro y (hy | hy)
      · exact .inl hy
      · rcases List.mem_cons.1 hy with rfl | hy
        · exact .inl hnext
        · exact .inr hy
    exact ih h htarget (fun x hx y hedge => hskip y (hseen x hx y hedge)) (hskip name hname)
  | case4 seen next todo hne _ ih =>
    apply ih h
    · simp only [List.mem_cons, not_or]
      exact ⟨fun e => hne e.symm, htarget⟩
    · intro x hx y hedge
      simp only [List.mem_cons, List.mem_append, List.mem_reverse] at hx ⊢
      rcases hx with rfl | hx
      · exact .inr (.inl hedge)
      · have := hseen x hx y hedge
        simp only [List.mem_cons] at this
        tauto
    · simp only [List.mem_cons, List.mem_append, List.mem_reverse] at hname ⊢
      tauto

/-- The search answers exactly whether one or more edges lead from one name to the other. -/
theorem reaches_eq_true_iff {g : Graph} {source target : String} :
    g.reaches source target = true ↔ TransGen g.Edge source target := by
  constructor
  · intro h
    obtain ⟨name, hname, hpath⟩ := exists_of_reachesFrom h
    exact TransGen.head' (List.mem_reverse.1 hname) hpath
  · intro h
    obtain ⟨name, hedge, hpath⟩ := TransGen.head'_iff.1 h
    by_contra hfalse
    have hsearch : g.reachesFrom target [] (g.successors source).reverse = false := by
      simpa [reaches] using hfalse
    exact not_reflTransGen_of_reachesFrom hsearch (by simp) (by simp)
      (.inr (List.mem_reverse.2 hedge)) hpath

end GrammarOutline.Graph
