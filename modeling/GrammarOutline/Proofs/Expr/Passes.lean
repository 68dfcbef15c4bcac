import GrammarOutline.Proofs.Conversion.Order
import GrammarOutline.Proofs.Expr.Inline
import GrammarOutline.Proofs.Graph.Recursive

/-!
# Repeated passes

The bodies of a table may mention names of the table themselves, as long as no name leads back to
itself. A pass puts a body in the place of each name that stands under no blocked mark, and what it
mentions leads to fewer names. An operand that is blocked stays blocked, because it stays as it is.
So the passes come to an end, and then the names that are left stand under blocked marks.
-/
namespace GrammarOutline.Expr

/-- Passes are made until one of them changes nothing. -/
inductive PassesTo (bodies : Table Expr) : Expr → Expr → Prop where
  | done {e : Expr} (same : e.substitute bodies = .ok e) : PassesTo bodies e e
  | again {e next r : Expr} (pass : e.substitute bodies = .ok next) (changed : next ≠ e)
      (others : PassesTo bodies next r) : PassesTo bodies e r

section Run

variable {bodies : Table Expr}

theorem inlineWithin_eq_of_same {e : Expr} (h : substitute bodies e = .ok e) (passes : Nat) :
    inlineWithin bodies passes e = .ok e := by
  cases passes with
  | zero => rfl
  | succ passes => rw [inlineWithin, h, Except.bind, if_pos rfl]

theorem inlineWithin_succ {e next : Expr} (h : substitute bodies e = .ok next) (passes : Nat) :
    inlineWithin bodies (passes + 1) e = inlineWithin bodies passes next := by
  rw [inlineWithin, h, Except.bind]
  by_cases hsame : next = e
  · rw [if_pos hsame, hsame, inlineWithin_eq_of_same (hsame ▸ h)]
  · rw [if_neg hsame]

/-- The names of a table that lead to `count` of its names or more. -/
def namesLeadingTo (bodies : Table Expr) (count : Nat) : List String :=
  bodies.names.filter fun n => count ≤ (Definitions.graph bodies).reachCount n

/-- The body of a name mentions names that lead to fewer others. -/
theorem not_mem_namesLeadingTo_of_mention
    (hacyclic : (Definitions.graph bodies).Acyclic) {count : Nat} {n m : String} {b : Expr}
    (hb : bodies.find? n = some b) (hn : n ∉ namesLeadingTo bodies (count + 1))
    (hm : m ∈ b.references) : m ∉ namesLeadingTo bodies count := by
  intro hmem
  obtain ⟨hname, hcount⟩ := List.mem_filter.1 hmem
  have hedge : (Definitions.graph bodies).Edge n m :=
    Definitions.edge_graph_iff.2 ⟨⟨b, hb, hm⟩, hname⟩
  have hless := hacyclic.reachCount_lt_of_edge (by simpa using hname) hedge
  refine hn (List.mem_filter.2 ⟨Table.mem_names_of_find? hb, decide_eq_true ?_⟩)
  exact Nat.lt_of_le_of_lt (of_decide_eq_true hcount) hless

/-- No name of a table without cycles leads to all of its names. -/
theorem namesLeadingTo_length (hacyclic : (Definitions.graph bodies).Acyclic) :
    namesLeadingTo bodies bodies.names.length = [] := by
  refine List.filter_eq_nil_iff.2 fun n hn => ?_
  have hless := hacyclic.reachCount_lt_length (by simpa using hn)
  rw [Definitions.names_graph] at hless
  rw [decide_eq_true_eq]
  exact Nat.not_le.2 hless

/-- The passes end, one for each step down from `count`, and one more that changes nothing. -/
theorem exists_passesTo (hbodies : NormalBodies bodies)
    (hacyclic : (Definitions.graph bodies).Acyclic) {count : Nat} {e : Expr} (he : e.IsNormal)
    (h : OnlyUnder (namesLeadingTo bodies count) (Blocked bodies) e) :
    ∃ r, PassesTo bodies e r ∧ r.IsNormal ∧ OnlyUnder bodies.names (Blocked bodies) r ∧
      ∀ passes, count < passes → inlineWithin bodies passes e = .ok r := by
  induction count generalizing e with
  | zero =>
    have hall : namesLeadingTo bodies 0 = bodies.names := by simp [namesLeadingTo]
    rw [hall] at h
    have hsame := (isInlined_iff_onlyUnder.2 h).substitute_eq he
    exact ⟨e, .done hsame, he, h, fun passes _ => inlineWithin_eq_of_same hsame passes⟩
  | succ count ih =>
    obtain ⟨next, hnext, hnormal⟩ := exists_substitute hbodies he
    have hlower : OnlyUnder (namesLeadingTo bodies count) (Blocked bodies) next :=
      h.substitute hbodies (fun n hn => List.mem_of_mem_filter hn) (fun n b hb hn =>
        onlyUnder_of_forall_not_mem fun m hm =>
          not_mem_namesLeadingTo_of_mention hacyclic hb hn hm) he hnext
    obtain ⟨r, hpasses, hr, hunder, hwithin⟩ := ih hnormal hlower
    refine ⟨r, ?_, hr, hunder, fun passes hcount => ?_⟩
    · by_cases hsame : next = e
      · exact hsame ▸ hpasses
      · exact .again hnext hsame hpasses
    · obtain ⟨more, rfl⟩ : ∃ more, passes = more + 1 := ⟨passes - 1, by omega⟩
      rw [inlineWithin_succ hnext]
      exact hwithin more (by omega)

end Run

/-- When no name of a table leads back to itself, the passes over a normal form come to an end
without a second mark over an operand, and `inline` gives their end: a normal form that does not
change when it is inlined again, and in which every name that is left stands under a mark whose
operand a pass would make quantified. -/
theorem inline_ends_on_acyclic (bodies : Table Expr) (e : Expr) (he : e.IsNormal)
    (hbodies : NormalBodies bodies) (hacyclic : (Definitions.graph bodies).Acyclic) :
    ∃ r, PassesTo bodies e r ∧ e.inline bodies = .ok r ∧ r.IsNormal ∧
      r.substitute bodies = .ok r ∧ r.inline bodies = .ok r ∧
      OnlyUnder bodies.names (Blocked bodies) r := by
  have hnone : OnlyUnder (namesLeadingTo bodies bodies.names.length) (Blocked bodies) e := by
    rw [namesLeadingTo_length hacyclic]
    exact onlyUnder_of_forall_not_mem fun n _ => List.not_mem_nil
  obtain ⟨r, hpasses, hr, hunder, hwithin⟩ := exists_passesTo hbodies hacyclic he hnone
  have hsame := (isInlined_iff_onlyUnder.2 hunder).substitute_eq hr
  have hlength : bodies.names.length = bodies.entries.length := List.length_map _
  exact ⟨r, hpasses, hwithin _ (by omega), hr, hsame, inlineWithin_eq_of_same hsame _, hunder⟩

/-- A pair has two items, the second of them any number of times, and an item may be a word. Under
their own marks a word stays, and so does an item beside a name that vanishes. -/
theorem inline_ends_on_acyclic_pairs :
    let bodies : Table Expr := ⟨[("pair", .seq [.ref "item", .ref "rest"]),
      ("rest", .quant (.ref "item") "*"), ("item", .alt [.ref "word", .term "'x'"]),
      ("word", .quant (.term "[a-z]") "+"), ("void", .empty)], by decide⟩
    let e := Expr.seq [.quant (.ref "word") "?", .quant (.ref "pair") "+",
      .quant (.alt [.ref "void", .ref "item"]) "*"]
    let item := Expr.alt [.quant (.term "[a-z]") "+", .term "'x'"]
    let n := Expr.seq [.quant (.ref "word") "?", .quant (.seq [item, .quant item "*"]) "+",
      .quant (.alt [.ref "void", .ref "item"]) "*"]
    e.IsNormal ∧ NormalBodies bodies ∧ (Definitions.graph bodies).Acyclic ∧
      e.inline bodies = .ok n ∧ PassesTo bodies e n ∧ n.IsNormal ∧ n.inline bodies = .ok n ∧
      OnlyUnder bodies.names (Blocked bodies) n := by
  intro bodies e item n
  have he : e.IsNormal := isNormal_of_normalize (e := e) (by rfl)
  have hbodies : NormalBodies bodies := by
    have hall : ∀ entry ∈ bodies.entries, entry.2.normalize = .ok entry.2 := by decide
    exact fun name b hb => isNormal_of_normalize (hall (name, b) (Table.find?_eq_some_iff.1 hb))
  have hgraph : Definitions.graph bodies = ⟨[("pair", ["item", "rest"]), ("rest", ["item"]),
      ("item", ["word"]), ("word", []), ("void", [])], by decide⟩ := by rfl
  have hacyclic : (Definitions.graph bodies).Acyclic := by
    rw [hgraph, Graph.acyclic_iff]
    simp [Graph.reachesSelf, Graph.reaches, Graph.reachesFrom, Graph.successors, Table.names,
      Table.find?, Table.lookup_cons]
  have hinline : e.inline bodies = .ok n := by decide +kernel
  obtain ⟨r, hpasses, hr, hnormal, -, hagain, hunder⟩ :=
    inline_ends_on_acyclic bodies e he hbodies hacyclic
  obtain rfl : r = n := Except.ok.inj (hr.symm.trans hinline)
  exact ⟨he, hbodies, hacyclic, hinline, hpasses, hnormal, hagain, hunder⟩

end GrammarOutline.Expr
