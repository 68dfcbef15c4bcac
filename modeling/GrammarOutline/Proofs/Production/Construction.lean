import GrammarOutline.Graph.Basic
import GrammarOutline.Proofs.Production.Acceptance
import Mathlib.Data.Nat.Find

/-!
# Building grammars from productions

A production may stand behind others if none of them has its name and at most one of its rules is
without elements. A list of productions makes a grammar if each may stand behind those before it,
and otherwise the first that may not is reported. A rule is without elements if only action blocks
and precedence marks are written in it. Whatever is offered to a grammar, it stays one, and it has
the first acceptable production of each name.
-/
namespace GrammarOutline

namespace Production

open Lexeme

section Breaches

variable {p : Production} {ps before : List Production} {i n : Nat}

/-- The productions make a grammar: their names are distinct, and none has two rules without
elements. -/
def Fit (ps : List Production) : Prop := (ps.map name).Nodup ∧ ∀ p ∈ ps, p.emptyRules ≤ 1

/-- The production may not stand behind these: one of them has its name, or it has two rules without
elements. -/
def Breaks (before : List Production) (p : Production) : Prop :=
  p.name ∈ before.map name ∨ 1 < p.emptyRules

instance (before : List Production) (p : Production) : Decidable (Breaks before p) :=
  inferInstanceAs (Decidable (_ ∨ _))

/-- What is reported of a production that may not stand behind these. A repeated name comes
first. -/
def breach (before : List Production) (p : Production) : Fault :=
  if p.name ∈ before.map name then .duplicate p.name else .emptyAlternatives p.name p.emptyRules

/-- The first production of a list that may not stand behind those before it. -/
structure IsFirstBreach (ps : List Production) (i : Nat) (p : Production) : Prop where
  found : ps[i]? = some p
  breaks : Breaks (ps.take i) p
  first : ∀ j q, j < i → ps[j]? = some q → ¬Breaks (ps.take j) q

theorem fit_append : Fit (before ++ [p]) ↔ Fit before ∧ ¬Breaks before p := by
  have hnames : ((before ++ [p]).map name).Nodup ↔ (before.map name).Nodup ∧
      p.name ∉ before.map name := by
    simp [List.nodup_append]
  rw [Fit, Fit, Breaks, hnames, List.forall_mem_append, List.forall_mem_singleton,
    not_or, Nat.not_lt]
  tauto

theorem take_succ (h : ps[i]? = some p) : ps.take (i + 1) = ps.take i ++ [p] := by
  rw [List.take_add_one, h, Option.toList_some]

/-- In productions that make a grammar each may stand behind those before it. -/
theorem Fit.not_breaks (h : Fit ps) (hp : ps[i]? = some p) : ¬Breaks (ps.take i) p := by
  have hprefix : Fit (ps.take (i + 1)) :=
    ⟨((List.take_sublist _ ps).map name).nodup h.1, fun q hq => h.2 q (List.mem_of_mem_take hq)⟩
  rw [take_succ hp] at hprefix
  exact (fit_append.1 hprefix).2

/-- Productions make a grammar as far as each may stand behind those before it. -/
theorem fit_take (h : ∀ j q, j < n → ps[j]? = some q → ¬Breaks (ps.take j) q) :
    Fit (ps.take n) := by
  induction n with
  | zero => simp [Fit]
  | succ n ih =>
    have hbefore := ih fun j q hj => h j q (Nat.lt_succ_of_lt hj)
    cases hlast : ps[n]? with
    | none => rwa [List.take_add_one, hlast, Option.toList_none, List.append_nil]
    | some p =>
      rw [take_succ hlast]
      exact fit_append.2 ⟨hbefore, h n p (Nat.lt_succ_self n) hlast⟩

/-- Productions that make no grammar have a first one that is to blame. -/
theorem exists_isFirstBreach (h : ¬Fit ps) : ∃ i p, IsFirstBreach ps i p := by
  have hsome : ∃ i p, ps[i]? = some p ∧ Breaks (ps.take i) p := by
    by_contra hnone
    have hall := fit_take (n := ps.length) fun j q _ hq hbreaks => hnone ⟨j, q, hq, hbreaks⟩
    rw [List.take_length] at hall
    exact h hall
  classical
  obtain ⟨p, hfound, hbreaks⟩ := Nat.find_spec hsome
  exact ⟨Nat.find hsome, p, hfound, hbreaks,
    fun j q hj hq hbreaks => Nat.find_min hsome hj ⟨q, hq, hbreaks⟩⟩

theorem not_fit_iff : ¬Fit ps ↔ ∃ i p, IsFirstBreach ps i p := by
  refine ⟨exists_isFirstBreach, ?_⟩
  rintro ⟨i, p, hfirst⟩ hfit
  exact hfit.not_breaks hfirst.found hfirst.breaks

end Breaches

section Rows

variable {p : Production} {lexemes row more : List (List Char)} {rule : Rule} {rules : List Rule}
  {ps : List Production}

/-- The row has nothing but action blocks and precedence marks. -/
inductive OnlyMarks : List (List Char) → Prop where
  | nil : OnlyMarks []
  | action {text : List Char} {more : List (List Char)} (isBlock : IsActionBlock text)
      (others : OnlyMarks more) : OnlyMarks (text :: more)
  | precedence {text : List Char} {more : List (List Char)}
      (isSymbol : IsIdentifier text ∨ IsLiteral false text) (others : OnlyMarks more) :
      OnlyMarks ("%prec".toList :: text :: more)

/-- The production as it is written, with a row of lexemes for each of its rules. A rule is without
elements if there are only marks in its row. -/
structure HasRows (p : Production) (lexemes : List (List Char))
    (rows : List (List (List Char))) : Prop where
  isIdentifier : IsIdentifier p.name.toList
  layout : ∃ sign, IsDefinitionSign sign ∧
    lexemes = p.name.toList :: sign :: (["|".toList].intercalate rows ++ [";".toList])
  derives : List.Forall₂ DerivesRule rows p.rules
  empty_iff : List.Forall₂ (fun row rule => rule = [] ↔ OnlyMarks row) rows p.rules

theorem not_isActionBlock_precedence : ¬IsActionBlock "%prec".toList := by
  rintro ⟨body, -, hbody⟩
  exact absurd (List.cons.inj hbody).1 (by decide)

theorem not_isActionBlock_symbol {text : List Char} (h : IsIdentifier text ∨ IsLiteral false text) :
    ¬IsActionBlock text := by
  intro hblock
  rcases h with h | h
  · exact not_isIdentifier_of_isActionBlock hblock h
  · obtain ⟨body, -, rfl⟩ := hblock
    obtain ⟨c, _, hc, hquote⟩ := h.exists_head
    obtain ⟨rfl, -⟩ := List.cons.inj hc
    exact absurd hquote (by decide)

theorem ne_precedence_of_symbol {text : List Char} (h : IsIdentifier text ∨ IsLiteral false text) :
    text ≠ "%prec".toList := by
  rintro rfl
  rcases h with h | h
  · exact absurd h (by decide)
  · obtain ⟨c, _, hc, hquote⟩ := h.exists_head
    obtain ⟨rfl, -⟩ := List.cons.inj hc
    exact absurd hquote (by decide)

/-- An identifier or a literal is no mark. -/
theorem not_onlyMarks_symbol {text : List Char} (h : IsIdentifier text ∨ IsLiteral false text) :
    ¬OnlyMarks (text :: more) := by
  intro hmarks
  cases hmarks with
  | action isBlock _ => exact not_isActionBlock_symbol h isBlock
  | precedence _ _ => exact ne_precedence_of_symbol h rfl

theorem onlyMarks_action_iff {text : List Char} (h : IsActionBlock text) :
    OnlyMarks (text :: more) ↔ OnlyMarks more := by
  constructor
  · intro hmarks
    cases hmarks with
    | action _ others => exact others
    | precedence _ _ => exact absurd h not_isActionBlock_precedence
  · exact .action h

theorem onlyMarks_precedence_iff {text : List Char} (h : IsIdentifier text ∨ IsLiteral false text) :
    OnlyMarks ("%prec".toList :: text :: more) ↔ OnlyMarks more := by
  constructor
  · intro hmarks
    cases hmarks with
    | action isBlock _ => exact absurd isBlock not_isActionBlock_precedence
    | precedence _ others => exact others
  · exact .precedence h

/-- A rule is without elements exactly if only marks are written in its row. -/
theorem DerivesRule.eq_nil_iff (h : DerivesRule row rule) : rule = [] ↔ OnlyMarks row := by
  induction h with
  | nothing => exact ⟨fun _ => .nil, fun _ => rfl⟩
  | element isElement _ ih =>
    cases isElement with
    | name isIdentifier => simp [not_onlyMarks_symbol (.inl isIdentifier)]
    | literal isLiteral => simp [not_onlyMarks_symbol (.inr isLiteral)]
    | action isBlock => simpa [onlyMarks_action_iff isBlock] using ih
    | precedence isSymbol =>
      rw [Option.toList_none, List.nil_append, List.cons_append, List.singleton_append,
        onlyMarks_precedence_iff isSymbol]
      exact ih

theorem DerivesRules.exists_rows (h : DerivesRules lexemes rules) : ∃ row rows,
    lexemes = ["|".toList].intercalate (row :: rows) ∧
    List.Forall₂ DerivesRule (row :: rows) rules := by
  induction h with
  | @last row rule isRule => exact ⟨row, [], by simp, .cons isRule .nil⟩
  | @bar row _ rule rules isRule _ ih =>
    obtain ⟨row', rows, rfl, hrows⟩ := ih
    exact ⟨row, row' :: rows, by simp, .cons isRule hrows⟩

/-- What stands for productions has rows for each of them. -/
theorem DerivesAll.exists_rows (h : DerivesAll lexemes ps) :
    ∃ printed, lexemes = printed.flatten ∧
      List.Forall₂ (fun lexemes p => ∃ rows, HasRows p lexemes rows) printed ps := by
  induction h with
  | nil => exact ⟨[], rfl, .nil⟩
  | @cons name sign _ _ rules _ isIdentifier isSign body _ ih =>
    obtain ⟨printed, rfl, hprinted⟩ := ih
    obtain ⟨row, rows, rfl, hrows⟩ := body.exists_rows
    have hproduction : HasRows ⟨String.ofList name, rules⟩
        (name :: sign :: (["|".toList].intercalate (row :: rows) ++ [";".toList])) (row :: rows) :=
      ⟨by simpa using isIdentifier, ⟨sign, isSign, by simp⟩, hrows,
        hrows.imp fun _ _ h => h.eq_nil_iff⟩
    exact ⟨_ :: printed, by simp, .cons ⟨_, hproduction⟩ hprinted⟩

end Rows

end Production

namespace Grammar

variable {g : Grammar} {p : Production} {ps : List Production} {name : String} {fault : Fault}

theorem find?_eq_some_iff : g.find? name = some p ↔ p ∈ g.productions ∧ p.name = name := by
  have htable : (g.table id).find? name = g.find? name := by
    rw [NamedProductions.find?_table, Option.map_id_apply]
  rw [← htable, Table.find?_eq_some_iff]
  simp [NamedProductions.table, and_comm]

section Adding

theorem add_eq_error_iff : g.add p = .error fault ↔
    Production.Breaks g.productions p ∧ fault = Production.breach g.productions p := by
  have hcontains : g.contains p.name = true ↔ p.name ∈ g.productions.map Production.name := by
    simp [NamedProductions.contains, NamedProductions.names]
  unfold add
  by_cases hname : p.name ∈ g.productions.map Production.name
  · rw [dif_pos (hcontains.2 hname)]
    simp [Production.Breaks, Production.breach, hname, eq_comm]
  · rw [dif_neg fun h => hname (hcontains.1 h)]
    by_cases hempty : 1 < p.emptyRules <;>
      simp [Production.Breaks, Production.breach, hname, hempty, eq_comm]

theorem not_breaks_of_add {g' : Grammar} (h : g.add p = .ok g') :
    ¬Production.Breaks g.productions p := by
  intro hbreaks
  rw [add_eq_error_iff.2 ⟨hbreaks, rfl⟩] at h
  exact absurd h (by simp)

theorem addAll_append (g : Grammar) (ps qs : List Production) :
    g.addAll (ps ++ qs) = (g.addAll ps).bind fun g => g.addAll qs := by
  induction ps generalizing g with
  | nil => rfl
  | cons p ps ih =>
    rw [List.cons_append, addAll, addAll]
    cases g.add p with
    | error fault => rfl
    | ok g' => exact ih g'

theorem fit_productions (g : Grammar) : Production.Fit g.productions :=
  ⟨g.distinct, g.emptyRules_le_one⟩

/-- Productions are added to the empty grammar up to the first that may not stand behind those
before it. -/
theorem addAll_of_isFirstBreach {i : Nat} (h : Production.IsFirstBreach ps i p) :
    empty.addAll ps = .error (Production.breach (ps.take i) p) := by
  have hfit := Production.fit_take h.first
  have hbefore : empty.addAll (ps.take i) = .ok ⟨⟨ps.take i, hfit.1⟩, hfit.2⟩ :=
    addAll_eq_ok_iff.2 rfl
  have hsplit : ps = ps.take i ++ p :: ps.drop (i + 1) := by
    obtain ⟨hi, rfl⟩ := List.getElem?_eq_some_iff.1 h.found
    rw [List.cons_getElem_drop_succ, List.take_append_drop]
  have hrefused : Grammar.add ⟨⟨ps.take i, hfit.1⟩, hfit.2⟩ p =
      .error (Production.breach (ps.take i) p) :=
    add_eq_error_iff.2 ⟨h.breaks, rfl⟩
  conv_lhs => rw [hsplit]
  rw [addAll_append, hbefore]
  show addAll _ (p :: _) = _
  rw [addAll, hrefused]
  rfl

end Adding

section Offers

/-- Offers a production. A grammar that refuses it stays as it is. -/
def offer (g : Grammar) (p : Production) : Grammar :=
  match g.add p with
  | .error _ => g
  | .ok g' => g'

/-- Offers productions one after the other. -/
def offerAll (g : Grammar) (ps : List Production) : Grammar := ps.foldl offer g

theorem productions_offer (g : Grammar) (p : Production) : (g.offer p).productions =
    if Production.Breaks g.productions p then g.productions else g.productions ++ [p] := by
  cases hadd : g.add p with
  | error fault => rw [offer, hadd, if_pos (add_eq_error_iff.1 hadd).1]
  | ok g' => rw [offer, hadd, if_neg (not_breaks_of_add hadd), add_eq_ok_iff.1 hadd]

/-- A grammar finds what it found before, and otherwise what was offered, if that is acceptable. -/
theorem find?_offer (g : Grammar) (p : Production) (name : String) : (g.offer p).find? name =
    (g.find? name).or ([p].find? fun p => p.name = name && p.emptyRules ≤ 1) := by
  rw [NamedProductions.find?, NamedProductions.find?, productions_offer]
  by_cases hbreaks : Production.Breaks g.productions p
  · rw [if_pos hbreaks]
    by_cases hname : p.name = name ∧ p.emptyRules ≤ 1
    · obtain ⟨q, hq, hsame⟩ := List.mem_map.1 (hbreaks.resolve_right (Nat.not_lt.2 hname.2))
      have hfound : (g.productions.find? fun p => p.name = name).isSome := by
        rw [List.find?_isSome]
        exact ⟨q, hq, by simp [hsame, hname.1]⟩
      rw [Option.or_of_isSome hfound]
    · simp [hname]
  · have hempty : p.emptyRules ≤ 1 := Nat.not_lt.1 fun h => hbreaks (.inr h)
    rw [if_neg hbreaks, List.find?_append]
    simp [List.find?_cons, hempty]

/-- After any offers a grammar finds what it found before, and otherwise the first acceptable
production that was offered. -/
theorem find?_offerAll (g : Grammar) (ps : List Production) (name : String) :
    (g.offerAll ps).find? name =
      (g.find? name).or (ps.find? fun p => p.name = name && p.emptyRules ≤ 1) := by
  induction ps generalizing g with
  | nil => simp [offerAll]
  | cons p ps ih =>
    rw [offerAll, List.foldl_cons, ← offerAll, ih, find?_offer, Option.or_assoc,
      ← List.find?_append, List.singleton_append]

theorem eraseDups_of_nodup {names : List String} (h : names.Nodup) : names.eraseDups = names := by
  induction names with
  | nil => rfl
  | cons name names ih =>
    obtain ⟨hname, hnodup⟩ := List.nodup_cons.1 h
    have hothers : names.filter (fun n => !n == name) = names :=
      List.filter_eq_self.2 fun n hn => by simpa using fun e : n = name => hname (e ▸ hn)
    rw [List.eraseDups_cons, hothers, ih hnodup]

theorem names_offer (g : Grammar) (p : Production) : (g.offer p).names =
    if Production.Breaks g.productions p then g.names else g.names ++ [p.name] := by
  rw [NamedProductions.names, productions_offer]
  split
  · rfl
  · rw [List.map_append, List.map_singleton, NamedProductions.names]

/-- After any offers the names are those from before and those of the acceptable productions that
were offered, in the order in which they first come. -/
theorem names_offerAll (g : Grammar) (ps : List Production) : (g.offerAll ps).names =
    (g.names ++ (ps.filter fun p => p.emptyRules ≤ 1).map Production.name).eraseDups := by
  induction ps generalizing g with
  | nil =>
    have hnodup : g.names.eraseDups = g.names := eraseDups_of_nodup g.distinct
    simp [offerAll, hnodup]
  | cons p ps ih =>
    rw [offerAll, List.foldl_cons, ← offerAll, ih, names_offer]
    by_cases hempty : p.emptyRules ≤ 1
    · by_cases hname : p.name ∈ g.names
      · have hbreaks : Production.Breaks g.productions p := .inl hname
        simp [hbreaks, hempty, List.eraseDups_append, List.removeAll, hname]
      · have hfits : ¬Production.Breaks g.productions p := not_or.2 ⟨hname, Nat.not_lt.2 hempty⟩
        simp [hfits, hempty]
    · have hbreaks : Production.Breaks g.productions p := .inr (Nat.not_le.1 hempty)
      simp [hbreaks, hempty]

/-- The next production offered is refused with its fault, or comes last in the grammar. -/
theorem add_offerAll (g : Grammar) (calls : List Production) (p : Production) :
    let now := g.offerAll calls
    if Production.Breaks now.productions p then
      now.add p = .error (Production.breach now.productions p) ∧ g.offerAll (calls ++ [p]) = now
    else ∃ next, now.add p = .ok next ∧ next.productions = now.productions ++ [p] ∧
      g.offerAll (calls ++ [p]) = next := by
  intro now
  have hnext : g.offerAll (calls ++ [p]) = now.offer p := List.foldl_concat ..
  rw [hnext, offer]
  cases hadd : now.add p with
  | error fault =>
    obtain ⟨hbreaks, rfl⟩ := add_eq_error_iff.1 hadd
    rw [if_pos hbreaks]
    exact ⟨rfl, rfl⟩
  | ok next =>
    rw [if_neg (not_breaks_of_add hadd)]
    exact ⟨next, rfl, add_eq_ok_iff.1 hadd, rfl⟩

end Offers

section Results

/-- The grammar has the productions in order, and finds each by its name. -/
structure Holds (g : Grammar) (ps : List Production) : Prop where
  productions_eq : g.productions = ps
  mapping_eq : (g.table Production.rules).entries = ps.map fun p => (p.name, p.rules)
  find?_eq : ∀ p ∈ ps, g.find? p.name = some p
  mapping_find?_eq : ∀ p ∈ ps, (g.table Production.rules).find? p.name = some p.rules

/-- The productions make a grammar exactly if their names are distinct and none has two rules
without elements, that is, two in which only marks are written. Otherwise the first that may not
stand behind those before it is reported. -/
structure BuiltFrom (source : List Char) (ps : List Production) : Prop where
  read_iff : (∃ g, read source = .ok g) ↔ Production.Fit ps
  holds : ∀ g, read source = .ok g → g.Holds ps
  breach_iff : ¬Production.Fit ps ↔ ∃ i p, Production.IsFirstBreach ps i p
  reports : ∀ i p, Production.IsFirstBreach ps i p →
    read source = .error (Production.breach (ps.take i) p)
  printed : ∃ printed, Lexeme.LaidOut False printed.flatten (RulesSection.ofSource source).text ∧
    List.Forall₂ (fun lexemes p => ∃ rows, Production.HasRows p lexemes rows) printed ps

/-- After these offers it is still a grammar. What is refused leaves it as it is, what is not comes
last, and it has the first acceptable production of each name, in the order in which these names
first came. -/
structure Withstands (g : Grammar) (calls : List Production) : Prop where
  fit : Production.Fit (g.offerAll calls).productions
  next : ∀ p, if Production.Breaks (g.offerAll calls).productions p then
      (g.offerAll calls).add p = .error (Production.breach (g.offerAll calls).productions p) ∧
        g.offerAll (calls ++ [p]) = g.offerAll calls
    else ∃ next, (g.offerAll calls).add p = .ok next ∧
      next.productions = (g.offerAll calls).productions ++ [p] ∧ g.offerAll (calls ++ [p]) = next
  names_eq : (g.offerAll calls).names =
    (g.names ++ (calls.filter fun p => p.emptyRules ≤ 1).map Production.name).eraseDups
  find?_eq : ∀ name, (g.offerAll calls).find? name =
    (g.find? name).or (calls.find? fun p => p.name = name && p.emptyRules ≤ 1)

theorem holds_productions (g : Grammar) : g.Holds g.productions := by
  have hfind : ∀ p ∈ g.productions, g.find? p.name = some p := fun p hp =>
    find?_eq_some_iff.2 ⟨hp, rfl⟩
  refine ⟨rfl, rfl, hfind, fun p hp => ?_⟩
  rw [NamedProductions.find?_table, hfind p hp, Option.map_some]

theorem builtFrom_of_readRaw {source : List Char} (h : Production.readRaw source = .ok ps) :
    BuiltFrom source ps := by
  have hread : read source = empty.addAll ps := by rw [read, h]; rfl
  have hproductions : ∀ g, read source = .ok g → g.productions = ps := fun g hg =>
    addAll_eq_ok_iff.1 (hread.symm.trans hg)
  constructor
  case read_iff =>
    constructor
    · rintro ⟨g, hg⟩
      exact hproductions g hg ▸ fit_productions g
    · intro hfit
      exact ⟨⟨⟨ps, hfit.1⟩, hfit.2⟩, hread.trans (addAll_eq_ok_iff.2 rfl)⟩
  case holds => exact fun g hg => hproductions g hg ▸ holds_productions g
  case breach_iff => exact Production.not_fit_iff
  case reports => exact fun i p hfirst => hread.trans (addAll_of_isFirstBreach hfirst)
  case printed =>
    obtain ⟨lexemes, hderives, hlaid⟩ := Production.readRaw_eq_ok_iff.1 h
    obtain ⟨printed, rfl, hrows⟩ := hderives.exists_rows
    exact ⟨printed, hlaid, hrows⟩

/-- What is read is a grammar or is refused at the first production to blame, and whatever is
offered to a grammar, it stays one. -/
theorem read_reports_first_breach {source : List Char} (h : Production.readRaw source = .ok ps) :
    BuiltFrom source ps ∧ ∀ (g : Grammar) (calls : List Production), g.Withstands calls := by
  refine ⟨builtFrom_of_readRaw h, fun g calls => ?_⟩
  constructor
  case fit => exact fit_productions _
  case next => exact add_offerAll g calls
  case names_eq => exact names_offerAll g calls
  case find?_eq => exact find?_offerAll g calls

/-- The second production repeats a name, and that is reported although there are only marks in its
two rules. -/
theorem read_reports_first_breach_repeated :
    let source := "e : t ; e : \x7b x \x7d | %prec t ; t : | ;".toList
    let e : Production := ⟨"e", [[.name "t"]]⟩
    let e' : Production := ⟨"e", [[], []]⟩
    let t : Production := ⟨"t", [[], []]⟩
    Production.readRaw source = .ok [e, e', t] ∧ 1 < e'.emptyRules ∧
      read source = .error (.duplicate "e") := by
  intro source e e' t
  have hraw : Production.readRaw source = .ok [e, e', t] := by decide +kernel
  have hfirst : Production.IsFirstBreach [e, e', t] 1 e' := by
    refine ⟨rfl, by decide, fun j q hj hq => ?_⟩
    obtain rfl : j = 0 := by omega
    obtain rfl : e = q := Option.some.inj hq
    decide
  exact ⟨hraw, by decide, (read_reports_first_breach hraw).1.reports 1 e' hfirst⟩

/-- Of a production alone the number of its rules without elements is told. -/
example : (empty.add ⟨"t", [[], [.name "t"], []]⟩).map (·.productions) =
    .error (.emptyAlternatives "t" 2) := by decide

end Results

end Grammar

end GrammarOutline
