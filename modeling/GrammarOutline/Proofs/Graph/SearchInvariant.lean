import GrammarOutline.Proofs.Graph.Reachability
import Mathlib.Data.List.Sort
import Mathlib.Tactic.Tauto

/-!
# What holds throughout a search

The frames cut the stack into layers: below the node of each frame stand the layers of the earlier
frames, and above it the nodes that were entered after it and are finished. These lie on cycles
through the node. Every edge that has been looked at leads to an entered node, and never below the
lowest number of the layer. The numbers grow towards the top of the stack, so a node whose lowest
number is its own leads to nothing below its layer.
-/
namespace GrammarOutline.Graph
open Relation

/-- A component: the nodes of a cycle through any of its members, each once and in the order of the
graph. -/
structure IsComponent (g : Graph) (members : List String) : Prop where
  nonempty : members ≠ []
  sublist : members.Sublist g.names
  mem_iff : ∀ a ∈ members, ∀ b ∈ g.names,
    b ∈ members ↔ ReflTransGen g.Edge a b ∧ ReflTransGen g.Edge b a

namespace Search

def numberOf (s : Search) (name : String) : Nat := (s.number? name).getD 0

/-- A node that has been entered and, while it is on the stack, has at least the number `low`. -/
def Covers (s : Search) (low : Nat) (name : String) : Prop :=
  name ∈ s.numbers.names ∧ (name ∈ s.stack → low ≤ s.numberOf name)

/-- What a frame knows, when `above` and `below` are the parts of the stack around its node. -/
structure Sound (g : Graph) (s : Search) (f : Frame) (above below : List String) : Prop where
  low_le : f.low ≤ s.numberOf f.name
  attained : ∃ z ∈ f.name :: below, s.numberOf z = f.low ∧ ReflTransGen g.Edge f.name z
  looked : ∃ done, g.successors f.name = done ++ f.todo ∧ ∀ y ∈ done, y ∈ g.names → s.Covers f.low y
  forth : ∀ x ∈ above, ReflTransGen g.Edge f.name x
  back : ∀ x ∈ above, ReflTransGen g.Edge x f.name
  finished : ∀ x ∈ above, ∀ y, g.Edge x y → y ∈ g.names → s.Covers f.low y

/-- The layers into which frames cut a stack. Each node was entered by an edge from the one
before. -/
def Layered (g : Graph) (s : Search) : List Frame → List String → Prop
  | [], stack => stack = []
  | f :: frames, stack => ∃ above below, stack = above ++ f.name :: below ∧
      Sound g s f above below ∧ (∀ parent ∈ frames.head?, g.Edge parent.name f.name) ∧
      Layered g s frames below

/-- What holds throughout a search of a graph. -/
structure Valid (g : Graph) (s : Search) : Prop where
  entered : ∀ x ∈ s.numbers.names, x ∈ g.names
  bounded : ∀ x ∈ s.numbers.names, s.numberOf x < s.numbers.entries.length
  numbered : ∀ x ∈ s.stack, x ∈ s.numbers.names
  decreasing : s.stack.Pairwise fun later earlier => s.numberOf earlier < s.numberOf later
  layered : Layered g s s.frames s.stack
  closed : ∀ x ∈ s.numbers.names, x ∉ s.stack → ∀ y, g.Edge x y → y ∈ g.names →
    y ∈ s.numbers.names ∧ y ∉ s.stack
  mem_found : ∀ x, x ∈ s.found.flatten ↔ x ∈ s.numbers.names ∧ x ∉ s.stack
  nodup_found : s.found.flatten.Nodup
  component : ∀ c ∈ s.found, g.IsComponent c
  leafFirst : s.found.Pairwise fun later earlier => ∀ a ∈ earlier, ∀ b ∈ later, ¬g.Edge a b

section Layers

variable {g : Graph} {s t : Search} {f : Frame} {frames : List Frame}
  {above below stack : List String}

theorem Covers.mono {low low' : Nat} {name : String} (h : s.Covers low name) (hle : low' ≤ low) :
    s.Covers low' name := ⟨h.1, fun hstack => hle.trans (h.2 hstack)⟩

/-- A later search `t` keeps the numbers of `s` and puts none of its nodes back on the stack. -/
structure Extends (s t : Search) : Prop where
  entered : ∀ x ∈ s.numbers.names, x ∈ t.numbers.names
  number_eq : ∀ x ∈ s.numbers.names, t.numberOf x = s.numberOf x
  stack : ∀ x ∈ s.numbers.names, x ∈ t.stack → x ∈ s.stack

theorem Covers.extend (hst : Extends s t) {low : Nat} {name : String} (h : s.Covers low name) :
    t.Covers low name := by
  refine ⟨hst.entered name h.1, fun hstack => ?_⟩
  rw [hst.number_eq name h.1]
  exact h.2 (hst.stack name h.1 hstack)

theorem Sound.extend (hst : Extends s t) (hname : f.name ∈ s.numbers.names)
    (hbelow : ∀ x ∈ below, x ∈ s.numbers.names) (h : Sound g s f above below) :
    Sound g t f above below := by
  obtain ⟨z, hz, hlow, hpath⟩ := h.attained
  obtain ⟨done, hdone, hcovers⟩ := h.looked
  have hznum : z ∈ s.numbers.names := by
    rcases List.mem_cons.1 hz with rfl | hz
    · exact hname
    · exact hbelow z hz
  exact {
    low_le := by rw [hst.number_eq _ hname]; exact h.low_le
    attained := ⟨z, hz, by rw [hst.number_eq z hznum, hlow], hpath⟩
    looked := ⟨done, hdone, fun y hy hnode => (hcovers y hy hnode).extend hst⟩
    forth := h.forth
    back := h.back
    finished := fun x hx y hedge hnode => (h.finished x hx y hedge hnode).extend hst }

/-- Layers do not change while the search goes on above them. -/
theorem Layered.extend (hst : Extends s t) (hstack : ∀ x ∈ stack, x ∈ s.numbers.names)
    (h : Layered g s frames stack) : Layered g t frames stack := by
  induction frames generalizing stack with
  | nil => exact h
  | cons f frames ih =>
    obtain ⟨above, below, rfl, hsound, hedge, hbelow⟩ := h
    simp only [List.mem_append, List.mem_cons] at hstack
    have hsub : ∀ x ∈ below, x ∈ s.numbers.names := fun x hx => hstack x (.inr (.inr hx))
    exact ⟨above, below, rfl, hsound.extend hst (hstack f.name (.inr (.inl rfl))) hsub, hedge,
      ih hsub hbelow⟩

/-- Everything in the layers leads to the node of the last frame. -/
theorem Layered.reaches_first (h : Layered g s (f :: frames) stack) {z : String} (hz : z ∈ stack) :
    ReflTransGen g.Edge z f.name := by
  induction frames generalizing f stack with
  | nil =>
    obtain ⟨above, below, rfl, hsound, -, rfl⟩ := h
    rcases List.mem_append.1 hz with hz | hz
    · exact hsound.back z hz
    · rw [List.mem_singleton.1 hz]
  | cons parent frames ih =>
    obtain ⟨above, below, rfl, hsound, hedge, hbelow⟩ := h
    rcases List.mem_append.1 hz with hz | hz
    · exact hsound.back z hz
    rcases List.mem_cons.1 hz with rfl | hz
    · exact .refl
    · exact (ih hbelow hz).tail (hedge parent rfl)

/-- The first edge of a frame has been looked at when its target is covered. -/
theorem Layered.advance {name target : String} {low : Nat} {todo : List String}
    (h : Layered g s (⟨name, low, target :: todo⟩ :: frames) stack)
    (htarget : target ∈ g.names → s.Covers low target) :
    Layered g s (⟨name, low, todo⟩ :: frames) stack := by
  obtain ⟨above, below, rfl, hsound, hedge, hbelow⟩ := h
  obtain ⟨done, hdone, hcovers⟩ := hsound.looked
  refine ⟨above, below, rfl, { hsound with looked := ⟨done ++ [target], ?_, ?_⟩ }, hedge, hbelow⟩
  · simpa using hdone
  · intro y hy hnode
    rcases List.mem_append.1 hy with hy | hy
    · exact hcovers y hy hnode
    · rw [List.mem_singleton.1 hy] at hnode ⊢
      exact htarget hnode

/-- The node of a frame may be credited with the number of any node on the stack that it leads
to. -/
theorem Layered.lower {name z : String} {low : Nat} {todo : List String}
    (h : Layered g s (⟨name, low, todo⟩ :: frames) stack)
    (hdecreasing : stack.Pairwise fun later earlier => s.numberOf earlier < s.numberOf later)
    (hz : z ∈ stack) (hpath : ReflTransGen g.Edge name z) :
    Layered g s (⟨name, min low (s.numberOf z), todo⟩ :: frames) stack := by
  obtain ⟨above, below, rfl, hsound, hedge, hbelow⟩ := h
  obtain ⟨done, hdone, hcovers⟩ := hsound.looked
  have hmin : min low (s.numberOf z) ≤ low := Nat.min_le_left _ _
  refine ⟨above, below, rfl, ⟨hmin.trans hsound.low_le, ?_, ?_, hsound.forth, hsound.back, ?_⟩,
    hedge, hbelow⟩
  · by_cases hlt : s.numberOf z < low
    · have hbelowz : z ∈ name :: below := by
        rcases List.mem_append.1 hz with habove | hz
        · have := (List.pairwise_append.1 hdecreasing).2.2 z habove name List.mem_cons_self
          have := hsound.low_le
          simp only at this
          omega
        · exact hz
      exact ⟨z, hbelowz, (Nat.min_eq_right hlt.le).symm, hpath⟩
    · rw [Nat.min_eq_left (Nat.not_lt.1 hlt)]
      exact hsound.attained
  · exact ⟨done, hdone, fun y hy hnode => (hcovers y hy hnode).mono hmin⟩
  · exact fun x hx y hedge hnode => (hsound.finished x hx y hedge hnode).mono hmin

/-- A finished node that leads below its layer joins the layer of the node from which it was
entered. -/
theorem Layered.leave {name : String} {low : Nat}
    (h : Layered g s (⟨name, low, []⟩ :: frames) stack)
    (hdecreasing : stack.Pairwise fun later earlier => s.numberOf earlier < s.numberOf later)
    (hlow : low ≠ s.numberOf name) : Layered g s (lowerFirst low frames) stack := by
  obtain ⟨above, below, rfl, hsound, hedge, hbelow⟩ := h
  obtain ⟨z, hz, rfl, hpath⟩ := hsound.attained
  have hzbelow : z ∈ below := by
    rcases List.mem_cons.1 hz with rfl | hz
    · exact absurd rfl hlow
    · exact hz
  cases frames with
  | nil =>
    rw [show below = [] from hbelow] at hzbelow
    exact absurd hzbelow List.not_mem_nil
  | cons parent frames =>
    have hparent : g.Edge parent.name name := hedge parent rfl
    have hsorted : below.Pairwise fun later earlier => s.numberOf earlier < s.numberOf later :=
      (List.pairwise_cons.1 (List.pairwise_append.1 hdecreasing).2.1).2
    have hback : ReflTransGen g.Edge name parent.name :=
      hpath.trans (hbelow.reaches_first hzbelow)
    obtain ⟨above', below', rfl, hsound', hedge', hbelow'⟩ :=
      hbelow.lower hsorted hzbelow (.head hparent hpath)
    obtain ⟨done, hdone, hcovers⟩ := hsound.looked
    have hmin : min parent.low (s.numberOf z) ≤ s.numberOf z := Nat.min_le_right _ _
    refine ⟨above ++ name :: above', below', by simp, { hsound' with
      forth := ?_, back := ?_, finished := ?_ }, hedge', hbelow'⟩
    · intro x hx
      rcases List.mem_append.1 hx with hx | hx
      · exact .head hparent (hsound.forth x hx)
      rcases List.mem_cons.1 hx with rfl | hx
      · exact .single hparent
      · exact hsound'.forth x hx
    · intro x hx
      rcases List.mem_append.1 hx with hx | hx
      · exact (hsound.back x hx).trans hback
      rcases List.mem_cons.1 hx with rfl | hx
      · exact hback
      · exact hsound'.back x hx
    · intro x hx y hxy hnode
      rcases List.mem_append.1 hx with hx | hx
      · exact (hsound.finished x hx y hxy hnode).mono hmin
      rcases List.mem_cons.1 hx with rfl | hx
      · rw [Edge, hdone, List.append_nil] at hxy
        exact (hcovers y hxy hnode).mono hmin
      · exact hsound'.finished x hx y hxy hnode

end Layers

end Search

end GrammarOutline.Graph
