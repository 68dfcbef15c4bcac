import GrammarOutline.Proofs.Graph.Components

/-!
# Searching a graph of references

A graph of references leaves out the edges that are repeated and those to names that are no nodes. A
search takes no notice of them: a target that is no node is never entered, and one that has been
looked at before has already lowered the number of the frame. The search of the whole graph
therefore goes through the same states as that of the graph of references and stays where it is at
the other edges.
-/
namespace GrammarOutline.Graph
open Relation

section Fresh

variable {g : Graph} {done todo : List String} {target : String}

/-- The targets that are nodes and not among those in `done`, each where it first comes. -/
def fresh (g : Graph) (done todo : List String) : List String :=
  (todo.filter fun target => g.contains target && !done.contains target).eraseDups

@[simp] theorem fresh_nil (g : Graph) (done : List String) : g.fresh done [] = [] := rfl

theorem successors_ofReferences (g : Graph) (name : String) :
    (ofReferences g).successors name = g.fresh [] (g.successors name) := by
  rw [successors, ofReferences, Table.find?_map, successors]
  cases g.find? name <;> simp [fresh]

/-- A target that is no node, or comes again, is passed over. -/
theorem fresh_cons_of_skipped (h : g.contains target = true → target ∈ done) :
    g.fresh done (target :: todo) = g.fresh (done ++ [target]) todo := by
  rw [fresh, fresh, List.filter_cons_of_neg (by simpa using h)]
  refine congrArg List.eraseDups (List.filter_congr fun name _ => ?_)
  by_cases hname : name = target
  · subst hname
    simpa using h
  · simp [hname]

/-- A node that comes for the first time is kept. -/
theorem fresh_cons_of_new (hnode : g.contains target = true) (hnew : target ∉ done) :
    g.fresh done (target :: todo) = target :: g.fresh (done ++ [target]) todo := by
  rw [fresh, fresh, List.filter_cons_of_pos (by simp [hnode, hnew]), List.eraseDups_cons,
    List.filter_filter]
  refine congrArg (fun names => target :: names.eraseDups) (List.filter_congr fun name _ => ?_)
  by_cases hname : name = target <;> simp [hname]

end Fresh

@[simp] theorem contains_ofReferences (g : Graph) (name : String) :
    (ofReferences g).contains name = g.contains name := by
  simp only [Table.contains, names_ofReferences]

@[simp] theorem inOrder_ofReferences (g : Graph) (names : List String) :
    (ofReferences g).inOrder names = g.inOrder names := by
  simp only [inOrder, names_ofReferences]

/-- The targets at which a frame has looked. -/
def Frame.done (g : Graph) (f : Frame) : List String :=
  (g.successors f.name).take ((g.successors f.name).length - f.todo.length)

/-- A frame with the edges that the graph of references has. -/
def Frame.tidied (g : Graph) (f : Frame) : Frame := { f with todo := g.fresh (f.done g) f.todo }

theorem Frame.tidied_eq {g : Graph} {name : String} {done todo : List String}
    (h : g.successors name = done ++ todo) (low : Nat) :
    Frame.tidied g ⟨name, low, todo⟩ = ⟨name, low, g.fresh done todo⟩ := by
  simp [Frame.tidied, Frame.done, h]

namespace Search

variable {g : Graph} {s : Search}

/-- The state of the search of the graph of references. -/
def tidied (g : Graph) (s : Search) : Search := { s with frames := s.frames.map (Frame.tidied g) }

@[simp] theorem number?_tidied (g : Graph) (s : Search) (name : String) :
    (s.tidied g).number? name = s.number? name := rfl

theorem lowerFirst_tidied (g : Graph) (low : Nat) (frames : List Frame) :
    lowerFirst low (frames.map (Frame.tidied g)) =
      (lowerFirst low frames).map (Frame.tidied g) := by
  cases frames <;> rfl

theorem tidied_enter (g : Graph) (s : Search) (name : String) :
    (s.enter g name).tidied g = (s.tidied g).enter (ofReferences g) name := by
  have hframe : Frame.tidied g ⟨name, s.numbers.entries.length, g.successors name⟩ =
      ⟨name, s.numbers.entries.length, (ofReferences g).successors name⟩ := by
    rw [Frame.tidied_eq (List.nil_append _).symm, successors_ofReferences]
  simp only [tidied, enter, List.map_cons, hframe]

section Step

variable {name target : String} {low : Nat} {done todo : List String} {frames : List Frame}

/-- Both searches leave a node in the same way. -/
theorem tidied_step_of_leave (hframes : s.frames = ⟨name, low, []⟩ :: frames) :
    (s.step g).tidied g = (s.tidied g).step (ofReferences g) := by
  obtain ⟨numbers, stack, _, found⟩ := s
  obtain rfl := hframes
  by_cases hroot : numbers.find? name = some low
  · simp [step, tidied, Frame.tidied, number?, hroot, close, lowerFirst_tidied]
  · simp [step, tidied, Frame.tidied, number?, hroot, lowerFirst_tidied]

/-- An edge to no node, or one that is repeated, changes nothing but what is left to be looked
at. -/
theorem Valid.step_of_skip (h : Valid g s)
    (hframes : s.frames = ⟨name, low, target :: todo⟩ :: frames)
    (hdone : g.successors name = done ++ target :: todo)
    (hskip : g.contains target = true → target ∈ done) :
    s.step g = { s with frames := ⟨name, low, todo⟩ :: frames } := by
  rw [Search.step, hframes]
  dsimp only
  by_cases hnode : g.contains target = true
  · rw [if_pos hnode]
    obtain ⟨above, below, -, hsound, -⟩ := hframes ▸ h.layered
    obtain ⟨looked, hlooked, hcovers⟩ := hsound.looked
    obtain rfl : looked = done := List.append_cancel_right (hlooked.symm.trans hdone)
    obtain ⟨hentered, hlow⟩ := hcovers target (hskip hnode) (by simpa [Table.contains] using hnode)
    cases hnumber : s.number? target with
    | none => exact absurd hentered (not_mem_names_of_number? hnumber)
    | some number =>
      by_cases hstack : target ∈ s.stack
      · simp only [if_pos hstack, Nat.min_eq_left (numberOf_eq hnumber ▸ hlow hstack)]
      · simp only [if_neg hstack]
  · rw [if_neg hnode]

theorem Valid.tidied_step_of_skip (h : Valid g s)
    (hframes : s.frames = ⟨name, low, target :: todo⟩ :: frames)
    (hdone : g.successors name = done ++ target :: todo)
    (hskip : g.contains target = true → target ∈ done) : (s.step g).tidied g = s.tidied g := by
  have hnext : g.successors name = (done ++ [target]) ++ todo := by
    simpa using hdone
  rw [h.step_of_skip hframes hdone hskip, tidied, tidied, hframes, List.map_cons, List.map_cons,
    Frame.tidied_eq hdone, Frame.tidied_eq hnext, fresh_cons_of_skipped hskip]

/-- Both searches look at the first edge to a node in the same way. -/
theorem tidied_step_of_look (hframes : s.frames = ⟨name, low, target :: todo⟩ :: frames)
    (hdone : g.successors name = done ++ target :: todo) (hnode : g.contains target = true)
    (hnew : target ∉ done) : (s.step g).tidied g = (s.tidied g).step (ofReferences g) := by
  have hnext : g.successors name = (done ++ [target]) ++ todo := by
    simpa using hdone
  have htidied : (s.tidied g).frames =
      ⟨name, low, target :: g.fresh (done ++ [target]) todo⟩ :: frames.map (Frame.tidied g) := by
    rw [tidied, hframes, List.map_cons, Frame.tidied_eq hdone, fresh_cons_of_new hnode hnew]
  rw [step, step, hframes, htidied]
  dsimp only
  rw [contains_ofReferences, if_pos hnode, if_pos hnode, number?_tidied]
  cases s.number? target with
  | none =>
    dsimp only
    rw [tidied_enter, tidied, List.map_cons, Frame.tidied_eq hnext]
    rfl
  | some number =>
    dsimp only
    by_cases hstack : target ∈ s.stack
    · rw [if_pos hstack, if_pos (show target ∈ (s.tidied g).stack from hstack), tidied,
        List.map_cons, Frame.tidied_eq hnext]
      rfl
    · rw [if_neg hstack, if_neg (show target ∉ (s.tidied g).stack from hstack), tidied,
        List.map_cons, Frame.tidied_eq hnext]
      rfl

end Step

/-- A step of the search of the whole graph is a step of the search of the graph of references, or
none. -/
theorem Valid.tidied_step (h : Valid g s) :
    (s.step g).tidied g = s.tidied g ∨
      (s.step g).tidied g = (s.tidied g).step (ofReferences g) := by
  match hframes : s.frames with
  | [] =>
    refine .inl ?_
    rw [Search.step, hframes]
  | ⟨name, low, []⟩ :: frames => exact .inr (tidied_step_of_leave hframes)
  | ⟨name, low, target :: todo⟩ :: frames =>
    obtain ⟨above, below, -, hsound, -⟩ := hframes ▸ h.layered
    obtain ⟨done, hdone, -⟩ := hsound.looked
    by_cases hskip : g.contains target = true → target ∈ done
    · exact .inl (h.tidied_step_of_skip hframes hdone hskip)
    · obtain ⟨hnode, hnew⟩ := Classical.not_imp.1 hskip
      exact .inr (tidied_step_of_look hframes hdone hnode hnew)

theorem run_of_frames (hframes : s.frames ≠ []) : s.run g = (s.step g).run g := by
  rw [run, if_neg hframes]

/-- Both searches come to the same end. -/
theorem Valid.tidied_run (h : Valid g s) :
    (s.run g).tidied g = (s.tidied g).run (ofReferences g) := by
  fun_induction Search.run g s with
  | case1 s hframes =>
    have htidied : (s.tidied g).frames = [] := by
      rw [tidied, hframes, List.map_nil]
    rw [Search.run, if_pos htidied]
  | case2 s hframes ih =>
    rw [ih h.step]
    rcases h.tidied_step with hskip | hstep
    · rw [hskip]
    · have htidied : (s.tidied g).frames ≠ [] := by
        simpa [tidied] using hframes
      rw [hstep, ← run_of_frames htidied]

theorem Valid.tidied_visit (h : Valid g s) (hframes : s.frames = []) {name : String}
    (hname : name ∈ g.names) :
    (s.visit g name).tidied g = (s.tidied g).visit (ofReferences g) name := by
  rw [Search.visit, Search.visit, number?_tidied]
  by_cases hseen : (s.number? name).isSome = true
  · rw [if_pos hseen, if_pos hseen]
  · rw [if_neg hseen, if_neg hseen]
    have hnew : name ∉ s.numbers.names := fun hmem => hseen (Table.isSome_find?_iff.2 hmem)
    rw [(h.enter hname hnew (by simp [hframes])).tidied_run, tidied_enter]

theorem Valid.tidied_foldl_visit (h : Valid g s) (hframes : s.frames = []) {names : List String}
    (hnames : ∀ name ∈ names, name ∈ g.names) :
    (names.foldl (Search.visit g) s).tidied g =
      names.foldl (Search.visit (ofReferences g)) (s.tidied g) := by
  induction names generalizing s with
  | nil => rfl
  | cons name names ih =>
    have hname := hnames name List.mem_cons_self
    obtain ⟨hvalid, hdone, -⟩ := h.visit hframes hname
    rw [List.foldl_cons, List.foldl_cons, ih hvalid hdone fun n hn =>
      hnames n (List.mem_cons_of_mem _ hn), h.tidied_visit hframes hname]

end Search

theorem edge_ofReferences_iff {g : Graph} {source target : String} :
    (ofReferences g).Edge source target ↔ g.Edge source target ∧ target ∈ g.names := by
  rw [Edge, Edge, successors_ofReferences]
  simp [fresh, Table.contains]

/-- Only nodes are on the way to a node. -/
theorem transGen_ofReferences_iff {g : Graph} {source target : String}
    (htarget : target ∈ g.names) :
    TransGen (ofReferences g).Edge source target ↔ TransGen g.Edge source target := by
  constructor
  · exact fun h => h.lift id fun _ _ hedge => (edge_ofReferences_iff.1 hedge).1
  · intro h
    induction h with
    | single hedge => exact .single (edge_ofReferences_iff.2 ⟨hedge, htarget⟩)
    | tail _ hedge ih =>
      exact .tail (ih hedge.source_mem) (edge_ofReferences_iff.2 ⟨hedge, htarget⟩)

/-- A graph of references has the components of the whole graph in the same order, and the same
nodes are reached in it. -/
theorem ofReferences_keeps_analysis (references : Table (List String)) :
    (ofReferences references).components = components references ∧
    ∀ source ∈ references.names, ∀ target ∈ references.names,
      (ofReferences references).reaches source target = reaches references source target := by
  constructor
  · have hsearch := (Search.valid_empty references).tidied_foldl_visit rfl fun _ hname => hname
    have hfound := congrArg Search.found hsearch
    rw [components, components, names_ofReferences]
    exact congrArg List.reverse hfound.symm
  · intro source _ target htarget
    rw [Bool.eq_iff_iff, reaches_eq_true_iff, reaches_eq_true_iff,
      transGen_ofReferences_iff htarget]

/-- Repeated edges and one to a name that is no node stand before, between and after the others. -/
theorem ofReferences_keeps_analysis_repeated :
    let references : Table (List String) := ⟨[("list", ["comma", "item", "list", "item"]),
      ("item", ["word", "word", "list"]), ("word", ["letter"])], by decide⟩
    (ofReferences references).entries =
      [("list", ["item", "list"]), ("item", ["word", "list"]), ("word", [])] ∧
    (ofReferences references).components = components references ∧
    "list" ∈ references.names ∧ "word" ∈ references.names ∧
    (ofReferences references).reaches "list" "word" = reaches references "list" "word" ∧
    (ofReferences references).reaches "word" "list" = reaches references "word" "list" := by
  intro references
  have hlist : "list" ∈ references.names := by decide
  have hword : "word" ∈ references.names := by decide
  obtain ⟨hcomponents, hreaches⟩ := ofReferences_keeps_analysis references
  exact ⟨by decide, hcomponents, hlist, hword, hreaches _ hlist _ hword, hreaches _ hword _ hlist⟩

end GrammarOutline.Graph
