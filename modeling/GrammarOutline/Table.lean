/-!
# Tables of named entries

A table gives a value to each of its names and keeps the names in the order in which they first
came. Giving a name another value leaves its place.
-/
namespace GrammarOutline

variable {α β : Type}

/-- Named values in order, with no name twice. -/
structure Table (α : Type) where
  entries : List (String × α)
  nodup : (entries.map Prod.fst).Nodup

namespace Table

@[ext] theorem ext {s t : Table α} (h : s.entries = t.entries) : s = t := by
  cases s
  cases t
  cases h
  rfl

def empty : Table α := ⟨[], List.nodup_nil⟩

def names (t : Table α) : List String := t.entries.map Prod.fst

def find? (t : Table α) (name : String) : Option α := t.entries.lookup name

def contains (t : Table α) (name : String) : Bool := t.names.contains name

/-- The entries with the value of `name` replaced, or with a last entry for it. -/
def put (name : String) (value : α) : List (String × α) → List (String × α)
  | [] => [(name, value)]
  | entry :: rest =>
    if entry.1 = name then (name, value) :: rest else entry :: put name value rest

theorem map_fst_put (name : String) (value : α) (entries : List (String × α)) :
    (put name value entries).map Prod.fst =
      if name ∈ entries.map Prod.fst then entries.map Prod.fst
      else entries.map Prod.fst ++ [name] := by
  induction entries with
  | nil => simp [put]
  | cons entry rest ih =>
    by_cases h : entry.1 = name
    · simp [put, h]
    · have h' : ¬name = entry.1 := fun e => h e.symm
      simp only [put, h, if_false, List.map_cons, ih, List.mem_cons, h', false_or]
      split <;> simp

/-- Gives a value to a name, in its place if it has one and at the end otherwise. -/
def insert (t : Table α) (name : String) (value : α) : Table α where
  entries := put name value t.entries
  nodup := by
    have h := t.nodup
    rw [map_fst_put]
    by_cases hname : name ∈ t.entries.map Prod.fst
    · rw [if_pos hname]
      exact h
    · rw [if_neg hname, List.nodup_append]
      refine ⟨h, by simp, ?_⟩
      intro a ha b hb hab
      simp only [List.mem_singleton] at hb
      exact hname (hb ▸ hab ▸ ha)

/-- The table of a list of entries. A name that comes again takes the later value. -/
def ofList (entries : List (String × α)) : Table α :=
  entries.foldl (fun t entry => t.insert entry.1 entry.2) empty

/-- The entries of `s` and then those of `t`, as `insert` places them. -/
def append (s t : Table α) : Table α :=
  t.entries.foldl (fun u entry => u.insert entry.1 entry.2) s

/-- Changes every value, name by name. -/
def map (f : String → α → β) (t : Table α) : Table β where
  entries := t.entries.map fun entry => (entry.1, f entry.1 entry.2)
  nodup := by
    have h : (t.entries.map fun entry => (entry.1, f entry.1 entry.2)).map Prod.fst =
        t.entries.map Prod.fst := by simp
    rw [h]
    exact t.nodup

theorem nodup_names (t : Table α) : t.names.Nodup := t.nodup

@[simp] theorem names_empty : (empty : Table α).names = [] := rfl

theorem names_insert (t : Table α) (name : String) (value : α) :
    (t.insert name value).names =
      if name ∈ t.names then t.names else t.names ++ [name] :=
  map_fst_put name value t.entries

theorem lookup_cons (name key : String) (value : α) (rest : List (String × α)) :
    ((key, value) :: rest).lookup name = if name = key then some value else rest.lookup name := by
  rw [List.lookup_cons]
  by_cases h : name = key
  · simp [h]
  · simp [h, beq_false_of_ne h]

theorem lookup_put (name : String) (value : α) (entries : List (String × α)) (other : String) :
    (put name value entries).lookup other =
      if other = name then some value else entries.lookup other := by
  induction entries with
  | nil => rw [put, lookup_cons]
  | cons entry rest ih =>
    obtain ⟨key, old⟩ := entry
    by_cases hkey : key = name
    · subst hkey
      simp only [put, if_true, lookup_cons]
      split <;> rfl
    · simp only [put, if_neg hkey, lookup_cons, ih]
      by_cases h : other = key
      · simp [h, hkey]
      · simp [h]

theorem find?_insert (t : Table α) (name : String) (value : α) (other : String) :
    (t.insert name value).find? other = if other = name then some value else t.find? other :=
  lookup_put name value t.entries other

@[simp] theorem find?_empty (name : String) : (empty : Table α).find? name = none := rfl

theorem lookup_eq_none_iff {entries : List (String × α)} {name : String} :
    entries.lookup name = none ↔ name ∉ entries.map Prod.fst := by
  simp only [List.lookup_eq_none_iff, List.mem_map, not_exists, not_and]
  constructor
  · intro h entry hentry he
    simpa [he] using h entry hentry
  · intro h entry hentry
    have := h entry hentry
    simpa using fun e => this e.symm

theorem find?_eq_none_iff {t : Table α} {name : String} :
    t.find? name = none ↔ name ∉ t.names := lookup_eq_none_iff

theorem isSome_find?_iff {t : Table α} {name : String} :
    (t.find? name).isSome ↔ name ∈ t.names := by
  rw [Option.isSome_iff_ne_none, Ne, find?_eq_none_iff, Classical.not_not]

theorem lookup_eq_some_iff {entries : List (String × α)} (hnodup : (entries.map Prod.fst).Nodup)
    {name : String} {value : α} :
    entries.lookup name = some value ↔ (name, value) ∈ entries := by
  induction entries with
  | nil => simp
  | cons entry rest ih =>
    obtain ⟨key, old⟩ := entry
    rw [List.map_cons, List.nodup_cons] at hnodup
    rw [lookup_cons, List.mem_cons, Prod.mk.injEq]
    by_cases hkey : name = key
    · have hrest : (name, value) ∉ rest := fun hmem => hnodup.1 (by
        simpa [hkey] using List.mem_map_of_mem (f := Prod.fst) hmem)
      simp [hkey, hkey ▸ hrest, eq_comm]
    · simp [hkey, ih hnodup.2]

/-- A look-up finds the entries. -/
theorem find?_eq_some_iff {t : Table α} {name : String} {value : α} :
    t.find? name = some value ↔ (name, value) ∈ t.entries := lookup_eq_some_iff t.nodup

theorem mem_names_of_find? {t : Table α} {name : String} {value : α}
    (h : t.find? name = some value) : name ∈ t.names :=
  isSome_find?_iff.1 (by rw [h]; rfl)

theorem exists_find?_of_mem {t : Table α} {name : String} (h : name ∈ t.names) :
    ∃ value, t.find? name = some value := Option.isSome_iff_exists.1 (isSome_find?_iff.2 h)

theorem find?_map (f : String → α → β) (t : Table α) (name : String) :
    (t.map f).find? name = (t.find? name).map (f name) := by
  simp only [find?, map]
  induction t.entries with
  | nil => rfl
  | cons entry rest ih =>
    obtain ⟨key, value⟩ := entry
    rw [List.map_cons, lookup_cons, lookup_cons, ih]
    by_cases hkey : name = key <;> simp [hkey]

/-- A look-up in two joined tables asks the second one first. -/
theorem find?_append (s t : Table α) (name : String) :
    (s.append t).find? name = (t.find? name).or (s.find? name) := by
  have hfold : ∀ (entries : List (String × α)) (s : Table α), (entries.map Prod.fst).Nodup →
      (entries.foldl (fun u entry => u.insert entry.1 entry.2) s).find? name =
        (entries.lookup name).or (s.find? name) := by
    intro entries
    induction entries with
    | nil => exact fun s _ => rfl
    | cons entry rest ih =>
      intro s hnodup
      obtain ⟨key, value⟩ := entry
      rw [List.map_cons, List.nodup_cons] at hnodup
      rw [List.foldl_cons, ih _ hnodup.2, find?_insert, lookup_cons]
      by_cases hkey : name = key
      · subst hkey
        simp [lookup_eq_none_iff.2 hnodup.1]
      · simp [hkey]
  exact hfold t.entries s t.nodup

theorem mem_names_append {s t : Table α} {name : String} :
    name ∈ (s.append t).names ↔ name ∈ t.names ∨ name ∈ s.names := by
  simp only [← isSome_find?_iff, find?_append]
  cases t.find? name <;> simp

@[simp] theorem names_map (f : String → α → β) (t : Table α) : (t.map f).names = t.names := by
  simp [names, map]

theorem map_put (f : String → α → β) (name : String) (value : α) (entries : List (String × α)) :
    (put name value entries).map (fun entry => (entry.1, f entry.1 entry.2)) =
      put name (f name value) (entries.map fun entry => (entry.1, f entry.1 entry.2)) := by
  induction entries with
  | nil => rfl
  | cons entry rest ih =>
    by_cases h : entry.1 = name
    · simp [put, h]
    · simp [put, h, ih]

theorem map_insert (f : String → α → β) (t : Table α) (name : String) (value : α) :
    (t.insert name value).map f = (t.map f).insert name (f name value) :=
  ext (map_put f name value t.entries)

theorem map_append (f : String → α → β) (s t : Table α) :
    (s.append t).map f = (s.map f).append (t.map f) := by
  have hfold : ∀ (entries : List (String × α)) (s : Table α),
      (entries.foldl (fun u entry => u.insert entry.1 entry.2) s).map f =
        (entries.map fun entry => (entry.1, f entry.1 entry.2)).foldl
          (fun u entry => u.insert entry.1 entry.2) (s.map f) := by
    intro entries
    induction entries with
    | nil => exact fun s => rfl
    | cons entry rest ih =>
      intro s
      rw [List.foldl_cons, ih, map_insert, List.map_cons, List.foldl_cons]
  exact hfold t.entries s

theorem put_of_not_mem {name : String} {entries : List (String × α)} (value : α)
    (h : name ∉ entries.map Prod.fst) : put name value entries = entries ++ [(name, value)] := by
  induction entries with
  | nil => rfl
  | cons entry rest ih =>
    simp only [List.map_cons, List.mem_cons, not_or] at h
    rw [put, if_neg (Ne.symm h.1), ih h.2, List.cons_append]

/-- A new name comes last. -/
theorem entries_insert {t : Table α} {name : String} (value : α) (h : name ∉ t.names) :
    (t.insert name value).entries = t.entries ++ [(name, value)] := put_of_not_mem value h

@[simp] theorem empty_append (t : Table α) : empty.append t = t := by
  have hfold : ∀ (entries : List (String × α)) (s : Table α),
      ((s.entries ++ entries).map Prod.fst).Nodup →
      (entries.foldl (fun u entry => u.insert entry.1 entry.2) s).entries =
        s.entries ++ entries := by
    intro entries
    induction entries with
    | nil => exact fun s _ => (List.append_nil s.entries).symm
    | cons entry rest ih =>
      intro s hnodup
      have hname : entry.1 ∉ s.names := by
        rw [List.map_append, List.nodup_append] at hnodup
        exact fun hmem => hnodup.2.2 _ hmem _ List.mem_cons_self rfl
      have hentries := entries_insert entry.2 hname
      rw [List.foldl_cons, ih _ (by simpa [hentries] using hnodup), hentries, List.append_assoc,
        List.singleton_append]
  exact ext (hfold t.entries empty t.nodup)

/-- The table of entries with different names has just these. -/
theorem ofList_of_nodup {entries : List (String × α)} (h : (entries.map Prod.fst).Nodup) :
    ofList entries = ⟨entries, h⟩ := empty_append ⟨entries, h⟩

end Table

end GrammarOutline
