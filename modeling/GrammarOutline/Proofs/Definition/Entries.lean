import GrammarOutline.Definition.Reader
import GrammarOutline.Proofs.Expr.Normal

/-!
# The entries of a text of definitions

Definitions are added one after the other, each in normal form and with a new name. What is read is
a table of normal forms.
-/
namespace GrammarOutline

namespace Definition

/-- An entry is a written definition with the normal form of its body. -/
def Reads (raw entry : String × Expr) : Prop := raw.1 = entry.1 ∧ raw.2.normalize = .ok entry.2

/-- Adding definitions succeeds exactly when all names are new and all bodies have normal forms. -/
theorem addAll_eq_ok_iff {defs t : Definitions} {raw : List (String × Expr)} :
    addAll defs raw = .ok t ↔
      ∃ entries, List.Forall₂ Reads raw entries ∧ t.entries = defs.entries ++ entries := by
  induction raw generalizing defs with
  | nil =>
    simp only [addAll, Except.ok.injEq, List.forall₂_nil_left_iff, exists_eq_left, List.append_nil]
    exact ⟨fun h => h ▸ rfl, fun h => Table.ext h.symm⟩
  | cons definition raw ih =>
    obtain ⟨name, body⟩ := definition
    by_cases hname : name ∈ defs.names
    · have hcontains : defs.contains name = true := by simpa [Table.contains] using hname
      rw [addAll, if_pos hcontains]
      refine ⟨fun h => absurd h (by simp), ?_⟩
      rintro ⟨entries, hentries, ht⟩
      obtain ⟨entry, rest, hentry, -, rfl⟩ := List.forall₂_cons_left_iff.1 hentries
      have hnodup := t.nodup
      rw [ht, List.map_append, List.map_cons, ← hentry.1] at hnodup
      exact absurd rfl ((List.nodup_append.1 hnodup).2.2 name hname name List.mem_cons_self)
    · have hcontains : ¬defs.contains name = true := by simpa [Table.contains] using hname
      rw [addAll, if_neg hcontains]
      cases hbody : body.normalize with
      | error marks =>
        refine ⟨fun h => absurd h (by simp), ?_⟩
        rintro ⟨entries, hentries, -⟩
        obtain ⟨entry, rest, hentry, -, rfl⟩ := List.forall₂_cons_left_iff.1 hentries
        exact absurd (hbody.symm.trans hentry.2) (by simp)
      | ok normal =>
        dsimp only
        rw [ih, Table.entries_insert normal hname]
        constructor
        · rintro ⟨entries, hentries, ht⟩
          exact ⟨(name, normal) :: entries, .cons ⟨rfl, hbody⟩ hentries, by simpa using ht⟩
        · rintro ⟨entries, hentries, ht⟩
          obtain ⟨⟨n, b⟩, rest, ⟨hn, hb⟩, hrest, rfl⟩ := List.forall₂_cons_left_iff.1 hentries
          obtain rfl : name = n := hn
          obtain rfl : normal = b := Except.ok.inj (hbody.symm.trans hb)
          exact ⟨rest, hrest, by simpa using ht⟩

section Entries

variable {raw entries : List (String × Expr)}

theorem names_eq_of_reads (h : List.Forall₂ Reads raw entries) :
    raw.map Prod.fst = entries.map Prod.fst := by
  induction h with
  | nil => rfl
  | cons hfirst _ ih => rw [List.map_cons, List.map_cons, hfirst.1, ih]

theorem exists_normal_of_reads (h : List.Forall₂ Reads raw entries) :
    ∀ b ∈ raw, ∃ n, b.2.normalize = .ok n := by
  intro b hb
  obtain ⟨entry, -, hentry⟩ := exists_mem_of_forall₂ h.flip hb
  exact ⟨entry.2, hentry.2⟩

theorem exists_reads (h : ∀ b ∈ raw, ∃ n, b.2.normalize = .ok n) :
    ∃ entries, List.Forall₂ Reads raw entries := by
  refine exists_forall₂ fun b hb => ?_
  obtain ⟨n, hn⟩ := h b hb
  exact ⟨(b.1, n), rfl, hn⟩

end Entries

end Definition

namespace Definitions

variable {source : List Char} {defs : Definitions}

/-- A text is read as a table of the definitions that it writes, each in normal form. -/
theorem read_eq_ok_iff : Definitions.read source = .ok defs ↔
    ∃ raw, Definition.readRaw source = .ok raw ∧
      List.Forall₂ Definition.Reads raw defs.entries := by
  have hadd : ∀ raw, Definition.addAll Table.empty raw = .ok defs ↔
      List.Forall₂ Definition.Reads raw defs.entries := by
    intro raw
    rw [Definition.addAll_eq_ok_iff]
    constructor
    · rintro ⟨entries, hentries, hdefs⟩
      rw [hdefs]
      exact hentries
    · exact fun h => ⟨defs.entries, h, rfl⟩
  simp only [Definitions.read, bind_eq_ok_iff, hadd]

theorem normalize_of_read (h : Definitions.read source = .ok defs) {n : String} {b : Expr}
    (hb : defs.find? n = some b) : b.normalize = .ok b := by
  obtain ⟨raw, -, hentries⟩ := read_eq_ok_iff.1 h
  obtain ⟨_, -, -, hnormal⟩ := exists_mem_of_forall₂ hentries (Table.find?_eq_some_iff.1 hb)
  exact (Expr.isNormal_of_normalize hnormal).normalize_eq

end Definitions

end GrammarOutline
