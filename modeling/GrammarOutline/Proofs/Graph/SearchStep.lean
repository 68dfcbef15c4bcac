import GrammarOutline.Proofs.Graph.SearchInvariant

/-!
# Steps of a search

Each step keeps what holds throughout a search. A node whose lowest number is its own closes a
component: its layer holds nothing but the nodes on cycles through it.
-/
namespace GrammarOutline.Graph
open Relation

@[simp] theorem mem_inOrder {g : Graph} {names : List String} {name : String} :
    name ∈ g.inOrder names ↔ name ∈ names := List.mem_mergeSort

theorem inOrder_perm (g : Graph) (names : List String) : (g.inOrder names).Perm names :=
  List.mergeSort_perm _ _

theorem pairwise_idxOf (g : Graph) :
    g.names.Pairwise fun a b => g.names.idxOf a < g.names.idxOf b := by
  rw [List.pairwise_iff_getElem]
  intro i j hi hj hij
  rw [g.nodup_names.idxOf_getElem, g.nodup_names.idxOf_getElem]
  exact hij

theorem inOrder_sublist {g : Graph} {names : List String} (hnodup : names.Nodup)
    (hnodes : ∀ name ∈ names, name ∈ g.names) : (g.inOrder names).Sublist g.names := by
  have hperm : (g.inOrder names).Perm (g.names.filter (· ∈ names)) := by
    rw [List.perm_ext_iff_of_nodup ((inOrder_perm g names).nodup_iff.2 hnodup)
      (g.nodup_names.filter _)]
    intro name
    simp only [mem_inOrder, List.mem_filter, decide_eq_true_eq]
    exact ⟨fun h => ⟨hnodes name h, h⟩, And.right⟩
  have hsorted : (g.inOrder names).Pairwise fun a b => g.names.idxOf a ≤ g.names.idxOf b := by
    have := @List.pairwise_mergeSort _ (fun a b => g.names.idxOf a ≤ g.names.idxOf b)
      (fun a b c hab hbc => by simp only [decide_eq_true_eq] at *; omega)
      (fun a b => by simp only [Bool.or_eq_true, decide_eq_true_eq]; omega) names
    simpa only [decide_eq_true_eq, inOrder] using this
  have hfilter : (g.names.filter (· ∈ names)).Pairwise
      fun a b => g.names.idxOf a ≤ g.names.idxOf b :=
    ((pairwise_idxOf g).filter _).imp Nat.le_of_lt
  rw [hperm.eq_of_pairwise (fun a b ha hb hab hba => ?_) hsorted hfilter]
  · exact List.filter_sublist
  · exact (List.idxOf_inj (hnodes a (mem_inOrder.1 ha))).1 (Nat.le_antisymm hab hba)

namespace Search

variable {g : Graph} {s : Search}

theorem numberOf_eq {name : String} {number : Nat} (h : s.number? name = some number) :
    s.numberOf name = number := by simp [numberOf, h]

theorem mem_names_of_number? {name : String} {number : Nat} (h : s.number? name = some number) :
    name ∈ s.numbers.names := Table.isSome_find?_iff.1 (by rw [← number?, h]; rfl)

theorem not_mem_names_of_number? {name : String} (h : s.number? name = none) :
    name ∉ s.numbers.names := Table.find?_eq_none_iff.1 h

theorem takeWhile_append_cons {above below : List String} {name : String} (h : name ∉ above) :
    (above ++ name :: below).takeWhile (· ≠ name) = above := by
  rw [List.takeWhile_append_of_pos]
  · simp
  · intro x hx
    have : x ≠ name := fun e => h (e ▸ hx)
    simpa using this

theorem dropWhile_append_cons {above below : List String} {name : String} (h : name ∉ above) :
    ((above ++ name :: below).dropWhile (· ≠ name)).drop 1 = below := by
  rw [List.dropWhile_append_of_pos]
  · simp
  · intro x hx
    have : x ≠ name := fun e => h (e ▸ hx)
    simpa using this

theorem Valid.nodup_stack (h : Valid g s) : s.stack.Nodup := by
  refine h.decreasing.imp ?_
  rintro a b hlt rfl
  exact Nat.lt_irrefl _ hlt

/-- The numbers grow towards the top of the stack. -/
theorem Valid.number_lt (h : Valid g s) {name y : String} {above below : List String}
    (hstack : s.stack = above ++ name :: below) (hy : y ∈ below) : s.numberOf y < s.numberOf name :=
  (List.pairwise_cons.1 (List.pairwise_append.1 (hstack ▸ h.decreasing)).2.1).1 y hy

/-- Only the frames of a valid search may change as long as they fit the stack. -/
theorem Valid.withFrames (h : Valid g s) {frames : List Frame}
    (hframes : Layered g s frames s.stack) : Valid g { s with frames := frames } where
  entered := h.entered
  bounded := h.bounded
  numbered := h.numbered
  decreasing := h.decreasing
  layered := Layered.extend (s := s) ⟨fun _ hx => hx, fun _ _ => rfl, fun _ _ hx => hx⟩ h.numbered
    hframes
  closed := h.closed
  mem_found := h.mem_found
  nodup_found := h.nodup_found
  component := h.component
  leafFirst := h.leafFirst

theorem numberOf_enter (g : Graph) (s : Search) (name other : String) :
    (s.enter g name).numberOf other =
      if other = name then s.numbers.entries.length else s.numberOf other := by
  simp only [numberOf, number?, enter, Table.find?_insert]
  split <;> rfl

theorem names_enter {name : String} (hnew : name ∉ s.numbers.names) :
    (s.enter g name).numbers.names = s.numbers.names ++ [name] := by
  simp only [enter, Table.names_insert, if_neg hnew]

theorem extends_enter {name : String} (hnew : name ∉ s.numbers.names) :
    Extends s (s.enter g name) where
  entered x hx := by
    rw [names_enter hnew]
    exact List.mem_append_left _ hx
  number_eq x hx := by
    have : x ≠ name := fun e => hnew (e ▸ hx)
    rw [numberOf_enter, if_neg this]
  stack x hx hstack := by
    rcases List.mem_cons.1 hstack with rfl | hstack
    · exact absurd hx hnew
    · exact hstack

/-- A node may be entered by an edge from the last frame, or at the start of a search. -/
theorem Valid.enter (h : Valid g s) {name : String} (hnode : name ∈ g.names)
    (hnew : name ∉ s.numbers.names) (hedge : ∀ parent ∈ s.frames.head?, g.Edge parent.name name) :
    Valid g (s.enter g name) := by
  have hext : Extends s (s.enter g name) := extends_enter hnew
  have hlength : (s.enter g name).numbers.entries.length = s.numbers.entries.length + 1 := by
    have := congrArg List.length (names_enter (g := g) hnew)
    simpa [Table.names] using this
  have hnumber : (s.enter g name).numberOf name = s.numbers.entries.length := by
    rw [numberOf_enter, if_pos rfl]
  have hmem : ∀ x, x ∈ (s.enter g name).numbers.names ↔ x ∈ s.numbers.names ∨ x = name := by
    intro x
    simp [names_enter hnew]
  have hstack : ∀ x, x ∈ (s.enter g name).stack ↔ x = name ∨ x ∈ s.stack := fun x => List.mem_cons
  have hdone : ∀ x, x ∈ (s.enter g name).numbers.names ∧ x ∉ (s.enter g name).stack ↔
      x ∈ s.numbers.names ∧ x ∉ s.stack := by
    intro x
    have : x = name → x ∉ s.numbers.names := fun e => e ▸ hnew
    rw [hmem, hstack]
    tauto
  refine ⟨?_, ?_, ?_, ?_, ?_, ?_, fun x => (h.mem_found x).trans (hdone x).symm, h.nodup_found,
    h.component, h.leafFirst⟩
  · intro x hx
    rcases (hmem x).1 hx with hx | rfl
    · exact h.entered x hx
    · exact hnode
  · intro x hx
    rw [hlength]
    rcases (hmem x).1 hx with hx | rfl
    · have := h.bounded x hx
      rw [hext.number_eq x hx]
      omega
    · omega
  · intro x hx
    rw [hmem]
    rcases (hstack x).1 hx with rfl | hx
    · exact .inr rfl
    · exact .inl (h.numbered x hx)
  · refine List.pairwise_cons.2 ⟨fun x hx => ?_, h.decreasing.imp_of_mem fun ha hb hlt => ?_⟩
    · rw [hnumber, hext.number_eq x (h.numbered x hx)]
      exact h.bounded x (h.numbered x hx)
    · rwa [hext.number_eq _ (h.numbered _ ha), hext.number_eq _ (h.numbered _ hb)]
  · refine ⟨[], s.stack, rfl, ⟨by rw [hnumber], ⟨name, List.mem_cons_self, hnumber, .refl⟩,
      ⟨[], rfl, by simp⟩, by simp, by simp, by simp⟩, hedge, h.layered.extend hext h.numbered⟩
  · intro x hx hxstack y hxy hy
    rw [hdone]
    have := (hdone x).1 ⟨hx, hxstack⟩
    exact h.closed x this.1 this.2 y hxy hy

/-- What is off the stack, or no node at all, leads to nothing on the stack. -/
theorem Valid.not_mem_stack_of_reflTransGen (h : Valid g s) {a b : String}
    (ha : a ∈ s.numbers.names ∧ a ∉ s.stack) (hpath : ReflTransGen g.Edge a b) : b ∉ s.stack := by
  have hclosed : ∀ x y, (x ∈ g.names → x ∈ s.numbers.names ∧ x ∉ s.stack) → g.Edge x y →
      y ∈ g.names → y ∈ s.numbers.names ∧ y ∉ s.stack := by
    intro x y hx hxy hy
    obtain ⟨hnum, hstack⟩ := hx hxy.source_mem
    exact h.closed x hnum hstack y hxy hy
  intro hb
  have := mem_of_reflTransGen (p := fun x => x ∈ g.names → x ∈ s.numbers.names ∧ x ∉ s.stack)
    hclosed (fun _ => ha) hpath
  exact (this (h.entered b (h.numbered b hb))).2 hb

/-- A layer on top of the stack that lies on cycles through its root and leads to nothing below. -/
structure Closes (g : Graph) (s : Search) (root : String) (layer below : List String) : Prop where
  stack : s.stack = layer ++ below
  root_mem : root ∈ layer
  forth : ∀ x ∈ layer, ReflTransGen g.Edge root x
  back : ∀ x ∈ layer, ReflTransGen g.Edge x root
  leads : ∀ x ∈ layer, ∀ y, g.Edge x y → y ∈ g.names → y ∈ s.numbers.names ∧ y ∉ below

section Closing

variable {root : String} {layer below : List String}

theorem Closes.mem_stack_iff (hc : Closes g s root layer below) {x : String} :
    x ∈ s.stack ↔ x ∈ layer ∨ x ∈ below := by
  rw [hc.stack, List.mem_append]

theorem Closes.not_mem_below (hc : Closes g s root layer below) (h : Valid g s) {x : String}
    (hx : x ∈ layer) : x ∉ below := fun hbelow =>
  (List.nodup_append.1 (hc.stack ▸ h.nodup_stack)).2.2 x hx x hbelow rfl

/-- Without the layer, the rest of the stack is still not reached from what is off it. -/
theorem Closes.closed (hc : Closes g s root layer below) (h : Valid g s) {x y : String}
    (hx : x ∈ s.numbers.names) (hbelow : x ∉ below) (hxy : g.Edge x y) (hy : y ∈ g.names) :
    y ∈ s.numbers.names ∧ y ∉ below := by
  by_cases hstack : x ∈ s.stack
  · exact hc.leads x ((hc.mem_stack_iff.1 hstack).resolve_right hbelow) y hxy hy
  · obtain ⟨hnum, hystack⟩ := h.closed x hx hstack y hxy hy
    exact ⟨hnum, fun hb => hystack (hc.mem_stack_iff.2 (.inr hb))⟩

/-- What a member of the layer leads to and comes back from is a member. -/
theorem Closes.mem_layer (hc : Closes g s root layer below) (h : Valid g s) {a b : String}
    (ha : a ∈ layer) (hb : b ∈ g.names) (hab : ReflTransGen g.Edge a b)
    (hba : ReflTransGen g.Edge b a) : b ∈ layer := by
  have hastack := hc.mem_stack_iff.2 (.inl ha)
  have hreached := mem_of_reflTransGen
    (p := fun x => x ∈ g.names → x ∈ s.numbers.names ∧ x ∉ below)
    (fun x y hx hxy hy => hc.closed h (hx hxy.source_mem).1 (hx hxy.source_mem).2 hxy hy)
    (fun _ => ⟨h.numbered a hastack, hc.not_mem_below h ha⟩) hab hb
  by_cases hbstack : b ∈ s.stack
  · exact (hc.mem_stack_iff.1 hbstack).resolve_right hreached.2
  · exact absurd hastack (h.not_mem_stack_of_reflTransGen ⟨hreached.1, hbstack⟩ hba)

theorem Closes.isComponent (hc : Closes g s root layer below) (h : Valid g s) :
    g.IsComponent (g.inOrder layer) := by
  have hnodup : layer.Nodup := (List.nodup_append.1 (hc.stack ▸ h.nodup_stack)).1
  have hnodes : ∀ x ∈ layer, x ∈ g.names := fun x hx =>
    h.entered x (h.numbered x (hc.mem_stack_iff.2 (.inl hx)))
  refine ⟨List.ne_nil_of_mem (mem_inOrder.2 hc.root_mem), inOrder_sublist hnodup hnodes, ?_⟩
  intro a ha b hb
  rw [mem_inOrder] at ha ⊢
  constructor
  · intro hb
    exact ⟨(hc.back a ha).trans (hc.forth b hb), (hc.back b hb).trans (hc.forth a ha)⟩
  · rintro ⟨hab, hba⟩
    exact hc.mem_layer h ha hb hab hba

/-- A layer that leads to nothing below may leave the stack as a component. -/
theorem Valid.leaveStack (h : Valid g s) (hc : Closes g s root layer below) {frames : List Frame}
    (hframes : Layered g s frames below) :
    Valid g ⟨s.numbers, below, frames, g.inOrder layer :: s.found⟩ := by
  have hlayer : ∀ x ∈ layer, x ∈ s.stack := fun x hx => hc.mem_stack_iff.2 (.inl hx)
  have hbelow : ∀ x ∈ below, x ∈ s.stack := fun x hx => hc.mem_stack_iff.2 (.inr hx)
  have hcomponent := hc.isComponent h
  constructor
  case entered => exact h.entered
  case bounded => exact h.bounded
  case numbered => exact fun x hx => h.numbered x (hbelow x hx)
  case decreasing => exact (List.pairwise_append.1 (hc.stack ▸ h.decreasing)).2.1
  case layered =>
    exact Layered.extend (s := s) ⟨fun _ hx => hx, fun _ _ => rfl, fun x _ hx => hbelow x hx⟩
      (fun x hx => h.numbered x (hbelow x hx)) hframes
  case closed => exact fun x hx hxbelow y hxy hy => hc.closed h hx hxbelow hxy hy
  case mem_found =>
    intro x
    rw [List.flatten_cons, List.mem_append, mem_inOrder, h.mem_found]
    constructor
    · rintro (hx | ⟨hnum, hx⟩)
      · exact ⟨h.numbered x (hlayer x hx), hc.not_mem_below h hx⟩
      · exact ⟨hnum, fun hb => hx (hbelow x hb)⟩
    · rintro ⟨hnum, hx⟩
      by_cases hxstack : x ∈ s.stack
      · exact .inl ((hc.mem_stack_iff.1 hxstack).resolve_right hx)
      · exact .inr ⟨hnum, hxstack⟩
  case nodup_found =>
    rw [List.flatten_cons, List.nodup_append]
    refine ⟨hcomponent.sublist.nodup g.nodup_names, h.nodup_found, ?_⟩
    rintro x hx _ hfound rfl
    exact ((h.mem_found x).1 hfound).2 (hlayer x (mem_inOrder.1 hx))
  case component =>
    intro c hc
    rcases List.mem_cons.1 hc with rfl | hc
    · exact hcomponent
    · exact h.component c hc
  case leafFirst =>
    refine List.pairwise_cons.2 ⟨fun c hc a ha b hb hab => ?_, h.leafFirst⟩
    obtain ⟨hnum, hoff⟩ := (h.mem_found a).1 (List.mem_flatten.2 ⟨c, hc, ha⟩)
    have hbstack := hlayer b (mem_inOrder.1 hb)
    exact (h.closed a hnum hoff b hab (h.entered b (h.numbered b hbstack))).2 hbstack

end Closing

/-- The layer of a finished frame whose lowest number is its own leads to nothing below. -/
theorem Sound.closes {name : String} {above below : List String} (h : Valid g s)
    (hsound : Sound g s ⟨name, s.numberOf name, []⟩ above below)
    (hstack : s.stack = above ++ name :: below) : Closes g s name (above ++ [name]) below := by
  obtain ⟨done, hdone, hcovers⟩ := hsound.looked
  have hcovered : ∀ x ∈ above ++ [name], ∀ y, g.Edge x y → y ∈ g.names →
      s.Covers (s.numberOf name) y := by
    intro x hx y hxy hy
    rcases List.mem_append.1 hx with hx | hx
    · exact hsound.finished x hx y hxy hy
    · rw [List.mem_singleton.1 hx, Edge, hdone, List.append_nil] at hxy
      exact hcovers y hxy hy
  constructor
  case stack => rw [hstack, List.append_cons]
  case root_mem => exact List.mem_append_right _ List.mem_cons_self
  case forth =>
    intro x hx
    rcases List.mem_append.1 hx with hx | hx
    · exact hsound.forth x hx
    · rw [List.mem_singleton.1 hx]
  case back =>
    intro x hx
    rcases List.mem_append.1 hx with hx | hx
    · exact hsound.back x hx
    · rw [List.mem_singleton.1 hx]
  case leads =>
    intro x hx y hxy hy
    obtain ⟨hnum, hle⟩ := hcovered x hx y hxy hy
    refine ⟨hnum, fun hbelow => ?_⟩
    have := hle (hstack ▸ List.mem_append_right _ (List.mem_cons_of_mem _ hbelow))
    have := h.number_lt hstack hbelow
    omega

/-- A node above the layer of a frame has nothing to pass on to it. -/
theorem Layered.lowerFirst_eq {low : Nat} {frames : List Frame} {stack : List String}
    (h : Layered g s frames stack) (hunder : ∀ y ∈ stack, s.numberOf y < low) :
    lowerFirst low frames = frames := by
  cases frames with
  | nil => rfl
  | cons parent frames =>
    obtain ⟨above, below, rfl, hsound, -⟩ := h
    have hlt := hunder parent.name (by simp)
    simp only [lowerFirst]
    rw [Nat.min_eq_left (hsound.low_le.trans hlt.le)]

/-- A finished frame whose lowest number is its own holds a component, and nothing below is
lowered. -/
theorem Valid.close (h : Valid g s) {name : String} {frames : List Frame} {low : Nat}
    (hframes : s.frames = ⟨name, low, []⟩ :: frames) (hroot : s.number? name = some low) :
    Valid g (close g { s with frames := lowerFirst low frames } name) := by
  obtain rfl : s.numberOf name = low := numberOf_eq hroot
  obtain ⟨above, below, hstack, hsound, -, hbelow⟩ := hframes ▸ h.layered
  have hname : name ∉ above := fun hmem =>
    (List.nodup_append.1 (hstack ▸ h.nodup_stack)).2.2 name hmem name List.mem_cons_self rfl
  have hclose : Search.close g { s with frames := lowerFirst (s.numberOf name) frames } name =
      ⟨s.numbers, below, frames, g.inOrder (above ++ [name]) :: s.found⟩ := by
    simp only [Search.close, hbelow.lowerFirst_eq fun _ => h.number_lt hstack, hstack,
      takeWhile_append_cons hname, dropWhile_append_cons hname]
  rw [hclose]
  exact h.leaveStack (hsound.closes h hstack) hbelow

section Step

variable {name target : String} {low number : Nat} {todo : List String} {frames : List Frame}

/-- A finished frame whose lowest number is not its own passes it on. -/
theorem Valid.leave (h : Valid g s) (hframes : s.frames = ⟨name, low, []⟩ :: frames)
    (hroot : s.number? name ≠ some low) : Valid g { s with frames := lowerFirst low frames } := by
  refine h.withFrames ((hframes ▸ h.layered).leave h.decreasing fun hlow => hroot ?_)
  obtain ⟨above, below, hstack, -⟩ := hframes ▸ h.layered
  have hmem := h.numbered name (hstack ▸ by simp)
  obtain ⟨number, hnumber⟩ := Option.isSome_iff_exists.1 (Table.isSome_find?_iff.2 hmem)
  rw [hlow, numberOf_eq hnumber]
  exact hnumber

theorem Valid.edge_of_frames (h : Valid g s)
    (hframes : s.frames = ⟨name, low, target :: todo⟩ :: frames) : g.Edge name target := by
  obtain ⟨above, below, -, hsound, -⟩ := hframes ▸ h.layered
  obtain ⟨done, hdone, -⟩ := hsound.looked
  rw [Edge, hdone]
  simp

/-- An edge counts as looked at once its target has been entered. -/
theorem Valid.enterTarget (h : Valid g s)
    (hframes : s.frames = ⟨name, low, target :: todo⟩ :: frames) (hnode : target ∈ g.names)
    (hnew : target ∉ s.numbers.names) :
    Valid g ({ s with frames := ⟨name, low, todo⟩ :: frames }.enter g target) := by
  have htarget := h.edge_of_frames hframes
  obtain ⟨above, below, hstack, hsound, -⟩ := hframes ▸ h.layered
  have hentered := h.enter hnode hnew (by simpa [hframes] using htarget)
  have hcovers : (s.enter g target).Covers low target := by
    refine ⟨by simp [names_enter hnew], fun _ => ?_⟩
    rw [numberOf_enter, if_pos rfl]
    exact hsound.low_le.trans (h.bounded name (h.numbered name (hstack ▸ by simp))).le
  obtain ⟨above', below', hstack', hsound', -, hbelow'⟩ := hentered.layered
  rw [hframes] at hbelow'
  exact hentered.withFrames ⟨above', below', hstack', hsound', by simpa using htarget,
    hbelow'.advance fun _ => hcovers⟩

/-- An edge to the stack may lower the number of its frame. -/
theorem Valid.lower (h : Valid g s) (hframes : s.frames = ⟨name, low, target :: todo⟩ :: frames)
    (hnumber : s.number? target = some number) (hmem : target ∈ s.stack) :
    Valid g { s with frames := ⟨name, min low number, todo⟩ :: frames } := by
  have hlayered : Layered g s (⟨name, low, target :: todo⟩ :: frames) s.stack := hframes ▸ h.layered
  rw [← numberOf_eq hnumber]
  refine h.withFrames
    ((hlayered.lower h.decreasing hmem (.single (h.edge_of_frames hframes))).advance fun _ => ?_)
  exact ⟨mem_names_of_number? hnumber, fun _ => Nat.min_le_right _ _⟩

/-- An edge to no node, or to one that has its component, is passed over. -/
theorem Valid.pass (h : Valid g s) (hframes : s.frames = ⟨name, low, target :: todo⟩ :: frames)
    (hpassed : target ∈ g.names → target ∈ s.numbers.names ∧ target ∉ s.stack) :
    Valid g { s with frames := ⟨name, low, todo⟩ :: frames } := by
  have hlayered : Layered g s (⟨name, low, target :: todo⟩ :: frames) s.stack := hframes ▸ h.layered
  refine h.withFrames (hlayered.advance fun hnode => ?_)
  exact ⟨(hpassed hnode).1, fun hstack => absurd hstack (hpassed hnode).2⟩

end Step

/-- Every step keeps what holds throughout a search. -/
theorem Valid.step (h : Valid g s) : Valid g (s.step g) := by
  have hnode : ∀ {target}, g.contains target = true ↔ target ∈ g.names := by
    simp [Table.contains]
  fun_cases Search.step g s with
  | case1 => exact h
  | case2 name low frames hframes left hroot => exact h.close hframes hroot
  | case3 name low frames hframes left hroot => exact h.leave hframes hroot
  | case4 name low target todo frames hframes next hcontains hnew =>
    exact h.enterTarget hframes (hnode.1 hcontains) (not_mem_names_of_number? hnew)
  | case5 name low target todo frames hframes hcontains number hnumber hmem =>
    exact h.lower hframes hnumber hmem
  | case6 name low target todo frames hframes next hcontains number hnumber hmem =>
    exact h.pass hframes fun _ => ⟨mem_names_of_number? hnumber, hmem⟩
  | case7 name low target todo frames hframes next hcontains =>
    exact h.pass hframes fun htarget => absurd (hnode.2 htarget) hcontains

end Search

end GrammarOutline.Graph
