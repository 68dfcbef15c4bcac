import GrammarOutline.Proofs.Parsing.Outcome
import GrammarOutline.Proofs.Parsing.Wording

/-!
# What replies ensure

A reply is judged by two conditions: one on the cursor and the hint of a success, and one on a
failure. Every form of a parser has a rule that takes the conditions on its reply back to conditions
on the replies of its parts, and the rule of a repetition has an invariant. A run that is exhausted
ensures anything. The parts of a choice that can be backed out of fail where the choice does, and
their hints are left behind by what is taken. A condition on failures that lasts through all forms
of parsers need only be shown of the scanners.
-/
namespace GrammarOutline.Parsing

variable {σ α β : Type} {n : Nat} {τ : Fin n → Type}

/-- A success leaves a cursor and a hint as in `read`, and a failure is as in `failed`. -/
def Reply.Ensures (read : Cursor σ → Option Failure → Prop) (failed : Failure → Prop) :
    Reply σ α → Prop
  | .success _ next hint => read next hint
  | .failure f => failed f
  | .exhausted => True

namespace Reply

section

variable {read : Cursor σ → Option Failure → Prop} {failed : Failure → Prop}

@[simp] theorem ensures_success {value : α} {next : Cursor σ} {hint : Option Failure} :
    (success value next hint).Ensures read failed ↔ read next hint := Iff.rfl

@[simp] theorem ensures_failure {f : Failure} :
    (failure f : Reply σ α).Ensures read failed ↔ failed f := Iff.rfl

end

theorem Ensures.mono {read read' : Cursor σ → Option Failure → Prop}
    {failed failed' : Failure → Prop} {reply : Reply σ α} (h : reply.Ensures read failed)
    (hread : ∀ next hint, read next hint → read' next hint)
    (hfailed : ∀ f, failed f → failed' f) : reply.Ensures read' failed' := by
  cases reply with
  | success value next hint => exact hread next hint h
  | failure f => exact hfailed f h
  | exhausted => trivial

theorem Ensures.mono_failed {read : Cursor σ → Option Failure → Prop}
    {failed failed' : Failure → Prop} {reply : Reply σ α} (h : reply.Ensures read failed)
    (hfailed : ∀ f, failed f → failed' f) :
    reply.Ensures read failed' := h.mono (fun _ _ hread => hread) hfailed

end Reply

section Rules

variable {call : (i : Fin n) → Cursor σ → Reply σ (τ i)} {c : Cursor σ}
  {read : Cursor σ → Option Failure → Prop} {failed : Failure → Prop}

theorem ensures_symbol {accepts : σ → Bool} {expected : String}
    (hread : ∀ s rest, c.rest = s :: rest → accepts s = true → read (c.advance 1) none)
    (hfailed : (∀ s ∈ c.rest.head?, accepts s = false) →
      failed ⟨expected, c.position, false, none⟩) :
    ((Parser.symbol accepts expected : Parser σ τ σ).runWith call c).Ensures read failed := by
  rw [Parser.symbol, Parser.runWith, Scanner.run]
  cases hrest : c.rest with
  | nil => exact hfailed (by simp [hrest])
  | cons s rest =>
    cases hs : accepts s with
    | true =>
      have hnext := hread s rest hrest hs
      simpa [Scanner.symbol, hs] using hnext
    | false =>
      have hrefused := hfailed (by simp [hrest, hs])
      simpa [Scanner.symbol, hs] using hrefused

theorem ensures_map {f : α → β} {p : Parser σ τ α} (h : (p.runWith call c).Ensures read failed) :
    ((Parser.map f p).runWith call c).Ensures read failed := by
  rw [Parser.runWith]
  cases hp : p.runWith call c with
  | success v next hint => rwa [hp] at h
  | failure g => rwa [hp] at h
  | exhausted => trivial

/-- The second parser starts where the first one stops, and its hints and failures are merged with
the hint that is left. -/
theorem ensures_both {p : Parser σ τ α} {q : Parser σ τ β}
    (h : (p.runWith call c).Ensures (fun mid hint => (q.runWith call mid).Ensures
      (fun next hint' => read next (Failure.join hint hint'))
      (fun f => failed (if f.committed then f else Failure.mergeInto hint f))) failed) :
    ((Parser.both p q).runWith call c).Ensures read failed := by
  rw [Parser.runWith]
  cases hp : p.runWith call c with
  | success v mid hint =>
    rw [hp, Reply.ensures_success] at h
    dsimp only
    cases hq : q.runWith call mid with
    | success w next hint' => rwa [hq] at h
    | failure f => rwa [hq] at h
    | exhausted => trivial
  | failure f => rwa [hp] at h
  | exhausted => trivial

/-- The second parser is tried where the first one fails without being committed. -/
theorem ensures_either {p q : Parser σ τ α}
    (h : (p.runWith call c).Ensures read fun f => if f.committed then failed f else
      (q.runWith call c).Ensures (fun next hint => read next (Failure.join (some f) hint))
        fun g => failed (if g.committed then g else f.merge g)) :
    ((Parser.either p q).runWith call c).Ensures read failed := by
  rw [Parser.runWith]
  cases hp : p.runWith call c with
  | success v next hint => rwa [hp] at h
  | failure f =>
    rw [hp, Reply.ensures_failure] at h
    dsimp only
    by_cases hcommitted : f.committed = true
    · rwa [if_pos hcommitted] at h ⊢
    · rw [if_neg hcommitted] at h ⊢
      cases hq : q.runWith call c with
      | success w next hint => rwa [hq] at h
      | failure g => rwa [hq] at h
      | exhausted => trivial
  | exhausted => trivial

theorem ensures_label {p : Parser σ τ α} {expected : String}
    (h : (p.runWith call c).Ensures read fun f => failed
      (if f.position = c.position && !f.committed then ⟨expected, c.position, false, none⟩
        else f)) :
    ((Parser.label p expected).runWith call c).Ensures read failed := by
  rw [Parser.runWith]
  cases hp : p.runWith call c with
  | success v next hint => rwa [hp] at h
  | failure f =>
    rw [hp, Reply.ensures_failure] at h
    dsimp only
    split_ifs at h ⊢ <;> exact h
  | exhausted => trivial

theorem ensures_commit {p : Parser σ τ α}
    (h : (p.runWith call c).Ensures read fun f => failed
      (if f.committed then f else ⟨f.expected, f.position, true, none⟩)) :
    ((Parser.commit p).runWith call c).Ensures read failed := by
  rw [Parser.runWith]
  cases hp : p.runWith call c with
  | success v next hint => rwa [hp] at h
  | failure f =>
    rw [hp, Reply.ensures_failure] at h
    dsimp only
    split_ifs at h ⊢ <;> exact h
  | exhausted => trivial

/-- A repetition keeps an invariant as long as its values take something. It ends with the first
that does not, or where nothing more is read. -/
theorem ensures_repeatFrom {step : Cursor σ → Reply σ α}
    (invariant : Cursor σ → Option Failure → Prop)
    (hstep : ∀ c hint, invariant c hint → (step c).Ensures
      (fun next hint' => if next.size < c.size then invariant next hint' else read next hint')
      (fun f => if f.committed then failed f else read c (some (Failure.mergeInto hint f))))
    {values : List α} {hint : Option Failure} (h : invariant c hint) :
    (repeatFrom step c values hint).Ensures read failed := by
  fun_induction repeatFrom step c values hint with
  | case1 c values hint f hf hcommitted =>
    have hreply := hstep c hint h
    rwa [hf, Reply.ensures_failure, if_pos hcommitted] at hreply
  | case2 c values hint f hf hcommitted =>
    have hreply := hstep c hint h
    rwa [hf, Reply.ensures_failure, if_neg hcommitted] at hreply
  | case3 => trivial
  | case4 c values hint value next hint' hsuccess hsize ih =>
    have hreply := hstep c hint h
    rw [hsuccess, Reply.ensures_success, if_pos hsize] at hreply
    exact ih hreply
  | case5 c values hint value next hint' hsuccess hsize =>
    have hreply := hstep c hint h
    rwa [hsuccess, Reply.ensures_success, if_neg hsize] at hreply

end Rules

section Places

/-- The hint is about a place before the cursor. -/
def Before (hint : Option Failure) (next : Cursor σ) : Prop :=
  ∀ f ∈ hint, f.position < next.position

/-- A success takes something, and it leaves only hints about places before its end. -/
def Past (c : Cursor σ) (read : Cursor σ → Prop) (next : Cursor σ) (hint : Option Failure) : Prop :=
  read next ∧ c.position < next.position ∧ Before hint next

/-- A failure that is not committed is one at the cursor, and then `refused` holds. -/
def FailsAt (c : Cursor σ) (failed : Failure → Prop) (refused : Prop) (f : Failure) : Prop :=
  if f.committed then failed f else f.position = c.position ∧ refused

/-- A failure that is not committed is the one that expects the texts at the cursor, and then
`refused` holds. -/
def Expects (c : Cursor σ) (failed : Failure → Prop) (texts : List String) (refused : Prop)
    (f : Failure) : Prop :=
  if f.committed then failed f else f = Failure.expecting texts c.position ∧ refused

variable {call : (i : Fin n) → Cursor σ → Reply σ (τ i)} {c next : Cursor σ}
  {read : Cursor σ → Prop} {failed : Failure → Prop}

theorem Expects.imp {texts : List String} {refused refused' : Prop} {f : Failure}
    (h : Expects c failed texts refused f) (himp : refused → refused') :
    Expects c failed texts refused' f := by
  rw [Expects] at h ⊢
  split_ifs at h ⊢
  · exact h
  · exact ⟨h.1, himp h.2⟩

theorem Expects.imp_failed {failed' : Failure → Prop} {texts : List String}
    {refused : Prop} {f : Failure} (h : Expects c failed texts refused f)
    (himp : f.committed = true → failed f → failed' f) : Expects c failed' texts refused f := by
  rw [Expects] at h ⊢
  split_ifs at h ⊢ with hcommitted
  · exact himp hcommitted h
  · exact h

theorem Expects.failsAt {texts : List String} {refused : Prop} {f : Failure}
    (h : Expects c failed texts refused f) : FailsAt c failed refused f := by
  rw [Expects] at h
  rw [FailsAt]
  split_ifs at h ⊢
  · exact h
  · exact ⟨by rw [h.1, Failure.expecting], h.2⟩

theorem before_none : Before none next := by simp [Before]

theorem before_some {f : Failure} (hplace : f.position = c.position)
    (hpast : c.position < next.position) : Before (some f) next := by
  rintro _ ⟨⟩
  rw [hplace]
  exact Int.ofNat_lt.2 hpast

theorem Before.mono {hint : Option Failure} {last : Cursor σ} (h : Before hint next)
    (hle : next.position ≤ last.position) : Before hint last :=
  fun f hf => Int.lt_of_lt_of_le (h f hf) (Int.ofNat_le.2 hle)

/-- A hint from before plays no part in what is expected at the cursor. -/
theorem Before.mergeInto {hint : Option Failure} (h : Before hint next) (texts : List String) :
    Failure.mergeInto hint (Failure.expecting texts next.position) =
      Failure.expecting texts next.position := Failure.mergeInto_of_forall_lt h

theorem Before.join_some {hint : Option Failure} (h : Before hint next) (texts : List String) :
    Failure.join hint (some (Failure.expecting texts next.position)) =
      some (Failure.expecting texts next.position) := by
  rw [Failure.join_some_right, h.mergeInto]

theorem Before.join {hint hint' : Option Failure} (h : Before hint next) (h' : Before hint' next) :
    Before (Failure.join hint hint') next := by
  match hint, hint' with
  | none, _ => exact h'
  | some _, none => exact h
  | some f, some g =>
    rintro _ ⟨⟩
    rw [Failure.position_merge]
    exact Int.max_lt.2 ⟨h f rfl, h' g rfl⟩

/-- Where both parsers can be backed out of, the choice fails at the same place. -/
theorem ensures_either_at {p q : Parser σ τ α} {refused refused' : Prop}
    (hp : (p.runWith call c).Ensures (Past c read) (FailsAt c failed refused))
    (hq : refused → (q.runWith call c).Ensures (Past c read) (FailsAt c failed refused')) :
    ((Parser.either p q).runWith call c).Ensures (Past c read)
      (FailsAt c failed (refused ∧ refused')) := by
  refine ensures_either (hp.mono_failed fun f hf => ?_)
  by_cases hcommitted : f.committed = true
  · rw [FailsAt, if_pos hcommitted] at hf
    rwa [if_pos hcommitted, FailsAt, if_pos hcommitted]
  · rw [FailsAt, if_neg hcommitted] at hf
    obtain ⟨hplace, hrefused⟩ := hf
    rw [if_neg hcommitted]
    refine (hq hrefused).mono (fun next hint hnext => ?_) fun g hg => ?_
    · obtain ⟨hread, hpast, hbefore⟩ := hnext
      exact ⟨hread, hpast, (before_some hplace hpast).join hbefore⟩
    · by_cases hcommitted' : g.committed = true
      · rw [FailsAt, if_pos hcommitted'] at hg
        rwa [if_pos hcommitted', FailsAt, if_pos hcommitted']
      · rw [FailsAt, if_neg hcommitted'] at hg
        rw [if_neg hcommitted', FailsAt, if_neg
          (by simp [Failure.committed_merge (by simpa using hcommitted)
          (by simpa using hcommitted')])]
        exact ⟨by rw [Failure.position_merge, hplace, hg.1, Int.max_self], hrefused, hg.2⟩

theorem ensures_label_at {p : Parser σ τ α} {read : Cursor σ → Option Failure → Prop}
    {expected : String} {refused : Prop}
    (h : (p.runWith call c).Ensures read (FailsAt c failed refused)) :
    ((Parser.label p expected).runWith call c).Ensures read
      (Expects c failed [expected] refused) := by
  refine ensures_label (h.mono_failed fun f hf => ?_)
  by_cases hcommitted : f.committed = true
  · rw [FailsAt, if_pos hcommitted] at hf
    rwa [if_neg (by simp [hcommitted]), Expects, if_pos hcommitted]
  · rw [FailsAt, if_neg hcommitted] at hf
    rw [if_pos (by simp [hcommitted, hf.1]), Expects, if_neg (by simp)]
    exact ⟨by simp [Failure.expecting], hf.2⟩

/-- A repetition keeps an invariant of cursor and hint, if every value takes something. It stops
where nothing more is read, and the texts that are expected there join the hint. -/
theorem ensures_many {p : Parser σ τ α} {read : Cursor σ → Option Failure → Prop}
    (invariant : Cursor σ → Option Failure → Prop) (texts : List String) (refused : Cursor σ → Prop)
    (hstep : ∀ c hint, invariant c hint → (p.runWith call c).Ensures
      (fun next hint' => next.size < c.size ∧ invariant next hint')
      (Expects c failed texts (refused c)))
    (hstop : ∀ c hint, invariant c hint → refused c →
      read c (some (Failure.mergeInto hint (Failure.expecting texts c.position))))
    (h : invariant c none) : ((Parser.many p).runWith call c).Ensures read failed := by
  refine ensures_repeatFrom invariant (fun c hint hc => (hstep c hint hc).mono
    (fun next hint' hnext => ?_) fun f hf => ?_) h
  · rw [if_pos hnext.1]
    exact hnext.2
  · rw [Expects] at hf
    split_ifs at hf ⊢
    · exact hf
    · obtain ⟨rfl, hrefused⟩ := hf
      exact hstop c hint hc hrefused

end Places

section Keeps

/-- All scanners of a parser are as in `holds`. Those of its rules are not among them. -/
def Parser.AllScanners (holds : {α : Type} → Scanner σ α → Prop) {α : Type} : Parser σ τ α → Prop
  | .scan s => holds s
  | .succeed _ | .rule _ => True
  | .both p q => p.AllScanners holds ∧ q.AllScanners holds
  | .either p q => p.AllScanners holds ∧ q.AllScanners holds
  | .map _ p | .label p _ | .commit p | .many p => p.AllScanners holds

theorem Parser.AllScanners.mono {holds holds' : {α : Type} → Scanner σ α → Prop} {p : Parser σ τ α}
    (h : p.AllScanners holds) (himp : ∀ {α : Type} (s : Scanner σ α), holds s → holds' s) :
    p.AllScanners holds' := by
  induction p with
  | scan s => exact himp s h
  | succeed | rule => trivial
  | both p q ihp ihq | either p q ihp ihq => exact ⟨ihp h.1, ihq h.2⟩
  | map f p ih | label p expected ih | commit p ih | many p ih => exact ih h

theorem Parser.allScanners_of_forall {holds : {α : Type} → Scanner σ α → Prop}
    (h : ∀ {α : Type} (s : Scanner σ α), holds s) (p : Parser σ τ α) : p.AllScanners holds := by
  induction p with
  | scan s => exact h s
  | succeed | rule => trivial
  | both p q ihp ihq | either p q ihp ihq => exact ⟨ihp, ihq⟩
  | map f p ih | label p expected ih | commit p ih | many p ih => exact ih

/-- A condition on failures that survives everything that is done with them at certain cursors: they
are merged, named by a label, and committed. -/
structure Lasting (place : Cursor σ → Prop) (holds : Failure → Prop) : Prop where
  merge : ∀ f g, holds f → holds g → holds (f.merge g)
  label : ∀ c expected, place c → holds ⟨expected, c.position, false, none⟩
  commit : ∀ f, holds f → holds ⟨f.expected, f.position, true, none⟩

/-- A success leaves a cursor as in `place`, and every hint and every failure is as in `holds`. -/
def Reply.Keeps (place : Cursor σ → Prop) (holds : Failure → Prop) (reply : Reply σ α) : Prop :=
  reply.Ensures (fun next hint => place next ∧ ∀ f ∈ hint, holds f) holds

variable {call : (i : Fin n) → Cursor σ → Reply σ (τ i)} {place : Cursor σ → Prop}
  {holds : Failure → Prop} {hint hint' : Option Failure}

theorem Lasting.mergeInto (h : Lasting place holds) (hhint : ∀ f ∈ hint, holds f) {g : Failure}
    (hg : holds g) : holds (Failure.mergeInto hint g) := by
  cases hint with
  | none => exact hg
  | some f => exact h.merge f g (hhint f rfl) hg

theorem Lasting.join (h : Lasting place holds) (hhint : ∀ f ∈ hint, holds f)
    (hhint' : ∀ f ∈ hint', holds f) : ∀ f ∈ Failure.join hint hint', holds f := by
  cases hint' with
  | none => rwa [Failure.join_none_right]
  | some g =>
    rw [Failure.join_some_right]
    rintro f ⟨⟩
    exact h.mergeInto hhint (hhint' g rfl)

/-- A condition on excerpts lasts, since nothing that is made of failures has one. -/
theorem Lasting.of_excerpt (place : Cursor σ → Prop)
    (h : ∀ f : Failure, f.excerpt = none → holds f) : Lasting place holds where
  merge f g hf hg := by
    rw [Failure.merge]
    split_ifs
    · exact hg
    · exact hf
    · exact h _ rfl
  label _ _ _ := h _ rfl
  commit _ _ := h _ rfl

/-- What holds of the failures of all scanners and lasts holds of every failure of a run. -/
theorem Parser.keeps_runWith (h : Lasting place holds)
    (hcall : ∀ i c, place c → (call i c).Keeps place holds) (p : Parser σ τ α)
    (hscan : p.AllScanners fun s => ∀ c, place c → (s.run c).Keeps place holds) {c : Cursor σ}
    (hc : place c) : (p.runWith call c).Keeps place holds := by
  induction p generalizing c with
  | scan s => exact hscan c hc
  | succeed value => exact ⟨hc, by simp⟩
  | rule i => exact hcall i c hc
  | map f p ih => exact ensures_map (ih hscan hc)
  | both p q ihp ihq =>
    refine ensures_both (Reply.Ensures.mono (ihp hscan.1 hc) (fun mid hint hmid => ?_)
      fun _ hf => hf)
    refine Reply.Ensures.mono (ihq hscan.2 hmid.1) (fun next hint' hnext => ?_) fun f hf => ?_
    · exact ⟨hnext.1, h.join hmid.2 hnext.2⟩
    · split_ifs
      · exact hf
      · exact h.mergeInto hmid.2 hf
  | either p q ihp ihq =>
    refine ensures_either (Reply.Ensures.mono_failed (ihp hscan.1 hc) fun f hf => ?_)
    split_ifs
    · exact hf
    · refine Reply.Ensures.mono (ihq hscan.2 hc) (fun next hint hnext => ?_) fun g hg => ?_
      · exact ⟨hnext.1, h.join (by rintro _ ⟨⟩; exact hf) hnext.2⟩
      · split_ifs
        · exact hg
        · exact h.merge f g hf hg
  | label p expected ih =>
    refine ensures_label (Reply.Ensures.mono_failed (ih hscan hc) fun f hf => ?_)
    split_ifs
    · exact h.label c expected hc
    · exact hf
  | commit p ih =>
    refine ensures_commit (Reply.Ensures.mono_failed (ih hscan hc) fun f hf => ?_)
    split_ifs
    · exact hf
    · exact h.commit f hf
  | many p ih =>
    refine ensures_repeatFrom (fun c hint => place c ∧ ∀ f ∈ hint, holds f) (fun c hint hkept => ?_)
      ⟨hc, by simp⟩
    refine Reply.Ensures.mono (ih hscan hkept.1) (fun next hint' hnext => ?_) fun f hf => ?_
    · split_ifs <;> exact hnext
    · split_ifs
      · exact hf
      · exact ⟨hkept.1, by rintro _ ⟨⟩; exact h.mergeInto hkept.2 hf⟩

theorem keeps_callRule (h : Lasting place holds) {rules : (i : Fin n) → Parser σ τ (τ i)}
    (hscan : ∀ i, (rules i).AllScanners fun s => ∀ c, place c → (s.run c).Keeps place holds)
    (budget : Nat) (i : Fin n) {c : Cursor σ} (hc : place c) :
    (callRule rules budget i c).Keeps place holds := by
  induction budget generalizing i c with
  | zero => trivial
  | succ budget ih => exact (rules i).keeps_runWith h (fun j _ hj => ih j hj) (hscan i) hc

theorem Parser.keeps_run (h : Lasting place holds) {rules : (i : Fin n) → Parser σ τ (τ i)}
    (hrules : ∀ i, (rules i).AllScanners fun s => ∀ c, place c → (s.run c).Keeps place holds)
    (p : Parser σ τ α) (hscan : p.AllScanners fun s => ∀ c, place c → (s.run c).Keeps place holds)
    {input : List σ} {position : Nat} (hc : place (Cursor.ofPosition input position)) :
    (p.run rules input position).Keeps place holds :=
  p.keeps_runWith h (fun i _ hi => keeps_callRule h hrules _ i hi) hscan hc

end Keeps

end GrammarOutline.Parsing
