import GrammarOutline.Graph.Basic

/-!
# Reachability and components

A name reaches the names that one or more edges lead to. Two nodes belong to one component when each
reaches the other. Components are found in one depth-first search that numbers the nodes as it
enters them and keeps those without a component on a stack. They come leaf first: no edge leads to a
component that is listed later.
-/
namespace GrammarOutline.Graph

/-- The nodes that are not in `seen`. -/
def unseen (g : Graph) (seen : List String) : List String := g.names.filter (· ∉ seen)

/-- Once a node is seen, fewer nodes are left. -/
theorem length_unseen_lt {g : Graph} {seen more : List String} {name : String}
    (hname : name ∈ g.names) (hseen : name ∉ seen) (hmore : ∀ n, n ∈ more ↔ n = name ∨ n ∈ seen) :
    (g.unseen more).length < (g.unseen seen).length := by
  have h : g.unseen more = (g.unseen seen).filter (· ≠ name) := by
    rw [unseen, unseen, List.filter_filter]
    exact List.filter_congr fun n _ => by simp [hmore]
  rw [h, List.length_filter_lt_length_iff_exists]
  exact ⟨name, List.mem_filter.2 ⟨hname, by simpa using hseen⟩, by simp⟩

theorem unseen_cons_of_not_mem {g : Graph} {seen : List String} {name : String}
    (h : name ∉ g.names) : g.unseen (name :: seen) = g.unseen seen := by
  apply List.filter_congr
  intro n hn
  have : n ≠ name := fun e => h (e ▸ hn)
  simp [this]

/-- Whether `target` is in `todo` or reached from there by names outside `seen`. The names to be
looked at are a stack. -/
def reachesFrom (g : Graph) (target : String) (seen todo : List String) : Bool :=
  match todo with
  | [] => false
  | name :: todo =>
    if name = target then true
    else if name ∈ seen then g.reachesFrom target seen todo
    else g.reachesFrom target (name :: seen) ((g.successors name).reverse ++ todo)
termination_by ((g.unseen seen).length, todo.length)
decreasing_by
  · exact Prod.Lex.right _ (by simp)
  · by_cases hname : name ∈ g.names
    · exact Prod.Lex.left _ _ (length_unseen_lt hname ‹name ∉ seen› (by simp))
    · rw [unseen_cons_of_not_mem hname, successors_of_not_mem hname]
      exact Prod.Lex.right _ (by simp)

/-- Whether one or more edges lead from one name to another. -/
def reaches (g : Graph) (source target : String) : Bool :=
  g.reachesFrom target [] (g.successors source).reverse

/-- Whether a name lies on a cycle. -/
def reachesSelf (g : Graph) (name : String) : Bool := g.reaches name name

def inOrder (g : Graph) (names : List String) : List String :=
  names.mergeSort fun a b => g.names.idxOf a ≤ g.names.idxOf b

/-- A node that is being searched: the lowest number on the stack that it is known to lead to, and
the targets of its edges that are still to be looked at. -/
structure Frame where
  name : String
  low : Nat
  todo : List String

/-- A depth-first search. Nodes are numbered in the order in which they are entered. The stack holds
the nodes that have no component yet and the frames those that are not finished, both with the last
one first. Components are listed with the last one found first. -/
structure Search where
  numbers : Table Nat := Table.empty
  stack : List String := []
  frames : List Frame := []
  found : List (List String) := []

namespace Search

def number? (s : Search) (name : String) : Option Nat := s.numbers.find? name

def enter (g : Graph) (s : Search) (name : String) : Search :=
  let next := s.numbers.entries.length
  { s with
    numbers := s.numbers.insert name next
    stack := name :: s.stack
    frames := ⟨name, next, g.successors name⟩ :: s.frames }

/-- Takes the component of its first node off the stack. -/
def close (g : Graph) (s : Search) (name : String) : Search :=
  { s with
    stack := (s.stack.dropWhile (· ≠ name)).drop 1
    found := g.inOrder (s.stack.takeWhile (· ≠ name) ++ [name]) :: s.found }

/-- Passes the lowest number of a finished node on to the node from which it was entered. -/
def lowerFirst (low : Nat) : List Frame → List Frame
  | [] => []
  | frame :: frames => { frame with low := min frame.low low } :: frames

/-- Looks at the next edge of the last frame, or leaves its node when there is none. -/
def step (g : Graph) (s : Search) : Search :=
  match s.frames with
  | [] => s
  | ⟨name, low, []⟩ :: frames =>
    let left := { s with frames := lowerFirst low frames }
    if s.number? name = some low then left.close g name else left
  | ⟨name, low, target :: todo⟩ :: frames =>
    let next := { s with frames := ⟨name, low, todo⟩ :: frames }
    if g.contains target then
      match s.number? target with
      | none => next.enter g target
      | some number =>
        if target ∈ s.stack then { s with frames := ⟨name, min low number, todo⟩ :: frames }
        else next
    else next

/-- The frames with their edges, counted. -/
def pending : List Frame → Nat
  | [] => 0
  | frame :: frames => frame.todo.length + 1 + pending frames

/-- The work that is left: the nodes to be entered, and the frames with their edges. -/
def remaining (g : Graph) (s : Search) : Nat × Nat :=
  ((g.unseen s.numbers.names).length, pending s.frames)

theorem pending_lowerFirst (low : Nat) (frames : List Frame) :
    pending (lowerFirst low frames) = pending frames := by
  cases frames <;> rfl

/-- Every step of an unfinished search leaves less to do. -/
theorem remaining_step (g : Graph) (s : Search) (h : s.frames ≠ []) :
    Prod.Lex (· < ·) (· < ·) (remaining g (s.step g)) (remaining g s) := by
  obtain ⟨numbers, stack, frames, found⟩ := s
  rcases frames with _ | ⟨⟨name, low, _ | ⟨target, todo⟩⟩, frames⟩
  · contradiction
  · apply Prod.Lex.right'
    · simp only [step]
      split <;> simp [close]
    · simp only [step, close, pending]
      split <;> rw [pending_lowerFirst] <;> omega
  · by_cases htarget : g.contains target = true
    · cases hnumber : numbers.find? target with
      | none =>
        simp only [step, number?, htarget, hnumber, if_true]
        apply Prod.Lex.left
        have hnew : target ∉ numbers.names := Table.find?_eq_none_iff.1 hnumber
        refine length_unseen_lt (by simpa [Table.contains] using htarget) hnew ?_
        intro n
        simp only [enter, Table.names_insert, if_neg hnew, List.mem_append, List.mem_singleton]
        exact or_comm
      | some number =>
        simp only [step, number?, htarget, hnumber, if_true]
        split <;> exact Prod.Lex.right _ (by simp [pending])
    · simp only [step, htarget, Bool.false_eq_true, if_false]
      exact Prod.Lex.right _ (by simp [pending])

def run (g : Graph) (s : Search) : Search :=
  if s.frames = [] then s else run g (s.step g)
termination_by remaining g s
decreasing_by exact remaining_step g s (by assumption)

/-- Searches from a node, unless it has been entered before. -/
def visit (g : Graph) (s : Search) (name : String) : Search :=
  if (s.number? name).isSome then s else (s.enter g name).run g

end Search

/-- The components, leaf first, each in the order of the graph. -/
def components (g : Graph) : List (List String) := (g.names.foldl (Search.visit g) {}).found.reverse

/-- Whether a component is recursive: it has several members, or its only one lies on a cycle. -/
def isRecursiveGroup (g : Graph) : List String → Bool
  | [] => false
  | name :: others => !others.isEmpty || g.reachesSelf name

end GrammarOutline.Graph
