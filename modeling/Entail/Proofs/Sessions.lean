import Entail.Entailment
import Entail.Proofs.Reduction
import Entail.Proofs.Refutation

set_option autoImplicit false

/-! # What answers rest on

An answer of an engine rests on what its caches hold and on what its oracle says. The caches hold
what was found before, and that is reported among the diagnostics; so the answers are right in every
session that reports nothing wrong. -/

namespace Entail

variable {V σ α β : Type}

/-! ## Triples -/

namespace Work

/-- Work adds to the diagnostics. If these are all `J` and `pre` is true, then `I` stays true of the
    session and `P` is true of the answer. -/
structure Ensures (I : Session σ → Prop) (J : Diagnostic → Prop) (pre : Prop) (x : Work σ α)
    (P : α → Prop) : Prop where
  grows : ∀ s, s.diagnostics <+: (x s).2.diagnostics
  holds : pre → ∀ s, I s → (∀ d ∈ (x s).2.diagnostics, J d) → I (x s).2 ∧ P (x s).1

variable {I : Session σ → Prop} {J : Diagnostic → Prop} {pre pre' : Prop} {P : α → Prop}
  {R : β → Prop}

theorem Ensures.pure {a : α} (h : pre → P a) : Ensures I J pre (Pure.pure a) P where
  grows _ := List.prefix_rfl
  holds hpre _ hs _ := ⟨hs, h hpre⟩

theorem Ensures.bind {x : Work σ α} {f : α → Work σ β} (hx : Ensures I J pre x P)
    (hf : ∀ a, Ensures I J (pre ∧ P a) (f a) R) : Ensures I J pre (x >>= f) R where
  grows s := (hx.grows s).trans ((hf _).grows _)
  holds hpre s hs hd := by
    -- what the first part reports is among what is reported in the end
    have hgrows := (hf (x s).1).grows (x s).2
    obtain ⟨hkeeps, hfirst⟩ := hx.holds hpre s hs fun d hmem => hd d (hgrows.subset hmem)
    exact (hf _).holds ⟨hpre, hfirst⟩ _ hkeeps hd

theorem Ensures.imp {x : Work σ α} {P' : α → Prop} (h : Ensures I J pre x P) (hpre : pre' → pre)
    (hP : pre' → ∀ a, P a → P' a) : Ensures I J pre' x P' where
  grows := h.grows
  holds hpre' s hs hd := by
    obtain ⟨hkeeps, ha⟩ := h.holds (hpre hpre') s hs hd
    exact ⟨hkeeps, hP hpre' _ ha⟩

theorem ensures_get : Ensures I J pre (get : Work σ (Session σ)) I where
  grows _ := List.prefix_rfl
  holds _ _ hs _ := ⟨hs, hs⟩

theorem ensures_modify {f : Session σ → Session σ} (hf : ∀ s, (f s).diagnostics = s.diagnostics)
    (hI : pre → ∀ s, I s → I (f s)) : Ensures I J pre (modify f) fun _ => True where
  grows s := by
    change s.diagnostics <+: (f s).diagnostics
    rw [hf s]
  holds hpre s hs _ := ⟨hI hpre s hs, trivial⟩

theorem ensures_report (hI : ∀ s ds, I s → I { s with diagnostics := s.diagnostics ++ ds })
    (ds : List Diagnostic) : Ensures I J pre (report ds) fun _ => ∀ d ∈ ds, J d where
  grows s := List.prefix_append s.diagnostics ds
  holds _ s hs hd := ⟨hI s ds hs, fun d hmem => hd d (List.mem_append_right _ hmem)⟩

end Work

namespace Inquiry

/-- A triple for work that may be refused: nothing is claimed of the answer then. -/
def Ensures (I : Session σ → Prop) (J : Diagnostic → Prop) (pre : Prop) (x : Inquiry σ α)
    (P : α → Prop) : Prop :=
  Work.Ensures I J pre x.run fun answer => ∀ a, answer = .ok a → P a

variable {I : Session σ → Prop} {J : Diagnostic → Prop} {pre pre' : Prop} {P : α → Prop}
  {R : β → Prop}

theorem Ensures.pure {a : α} (h : pre → P a) : Ensures I J pre (Pure.pure a) P :=
  Work.Ensures.pure fun hpre _ hb => Except.ok.inj hb ▸ h hpre

theorem Ensures.bind {x : Inquiry σ α} {f : α → Inquiry σ β} (hx : Ensures I J pre x P)
    (hf : ∀ a, Ensures I J (pre ∧ P a) (f a) R) : Ensures I J pre (x >>= f) R := by
  change Work.Ensures I J pre (x.run >>= ExceptT.bindCont f) _
  refine Work.Ensures.bind hx fun answer => ?_
  cases answer with
  | error refusal => exact Work.Ensures.pure fun _ _ hb => absurd hb nofun
  | ok a => exact (hf a).imp (fun h => ⟨h.1, h.2 a rfl⟩) fun _ _ hb => hb

theorem Ensures.imp {x : Inquiry σ α} {P' : α → Prop} (h : Ensures I J pre x P)
    (hpre : pre' → pre) (hP : pre' → ∀ a, P a → P' a) : Ensures I J pre' x P' :=
  Work.Ensures.imp h hpre fun hpre' _ hanswer a ha => hP hpre' a (hanswer a ha)

theorem ensures_lift {x : Work σ α} (h : Work.Ensures I J pre x P) :
    Ensures I J pre (liftM x) P :=
  Work.Ensures.bind h fun _ => Work.Ensures.pure fun ⟨_, ha⟩ _ hb => Except.ok.inj hb ▸ ha

theorem ensures_emit (hI : ∀ s ds, I s → I { s with diagnostics := s.diagnostics ++ ds })
    (event : Event) : Ensures I J pre (emit event) fun _ => J (.event event) :=
  ensures_lift ((Work.ensures_report hI [.event event]).imp id fun _ _ h =>
    h _ (List.mem_singleton.mpr rfl))

theorem ensures_debug (hI : ∀ s ds, I s → I { s with diagnostics := s.diagnostics ++ ds })
    (message : String) : Ensures I J pre (debug message) fun _ => True :=
  ensures_lift ((Work.ensures_report hI _).imp id fun _ _ _ => trivial)

theorem ensures_modify {f : Session σ → Session σ} (hf : ∀ s, (f s).diagnostics = s.diagnostics)
    (hI : pre → ∀ s, I s → I (f s)) : Ensures I J pre (modify f) fun _ => True :=
  ensures_lift (Work.ensures_modify hf hI)

end Inquiry

/-! ## What is right -/

namespace Model

variable (M : Model V)

/-- Every variable has a value of its sort. -/
def Total (ρ : Variable → V) : Prop := ∀ v, M.mem v.sort (ρ v)

/-- Every solution of `left` becomes one of `right` when values of their sorts are chosen for the
    existential variables. -/
def Entails (left right : Formula) (existentials : VarSet) : Prop :=
  ∀ ρ, M.Total ρ → left.Holds M.toAlgebra ρ →
    ∃ ρ', M.Total ρ' ∧ (∀ v, v ∉ existentials → ρ' v = ρ v) ∧ right.Holds M.toAlgebra ρ'

/-- Every solution of the formula is changed on new variables only to one of the answer. -/
def Carries (φ : Formula) (answer : Simplified) : Prop :=
  ∀ ρ, M.Total ρ → φ.Each (Term.TypedHead M ρ) → φ.Holds M.toAlgebra ρ →
    answer = .error .exhausted ∨ ∃ S ρ', answer = .ok S ∧ M.Total ρ' ∧
      (∀ v, v.isFresh = false → ρ' v = ρ v) ∧ S.Holds M.toAlgebra ρ' ∧
      S.Each (Term.TypedHead M ρ')

end Model

/-- An oracle says yes only to what is right in the model. -/
structure Oracle.Sound (o : Oracle σ) (M : Model V) : Prop where
  unsat : ∀ φ request s, (o.checkUnsat φ request s).1.answer = .ok true →
    ∀ ρ, M.Total ρ → ¬φ.Holds M.toAlgebra ρ
  implies : ∀ left right existentials request s,
    (o.implies left right existentials request s).1.answer = .ok true →
      M.Entails left right existentials

/-- What simplification answers to `φ`, or to a formula that compares equal to it. -/
def Formula.Simplifies (voc : Vocabulary) (Q : Symbol → Prop) (mode : SimplifyMode) (φ : Formula)
    (answer : Simplified) : Prop :=
  ∃ ψ : Formula, ψ.bare = φ.bare ∧ ψ.Within (fun v => voc.lattice.Known v.sort) Q ∧
    ψ.simplify voc Unifier.structural mode = answer

/-- An answer to `φ`: what simplification gives for a formula that compares equal to it. A test of
    sorts that misjudged refutes none that was not false already. -/
def Formula.AnsweredBy (voc : Vocabulary) (Q : Symbol → Prop) (mode : SimplifyMode) (φ : Formula)
    (answer : Simplified) : Prop :=
  ∃ ψ : Formula, ψ.bare = φ.bare ∧ ψ.Within (fun v => voc.lattice.Known v.sort) Q ∧
    ψ.simplify voc Unifier.structural mode = answer ∧
    ∀ r, answer = .error (.refuted r) → ψ.isFalse = false → ¬r.witness.Misjudged voc

/-- The caches hold answers of which `A` is true, and implications that are right. -/
structure Session.Trusted (M : Model V) (A : SimplifyMode → Formula → Simplified → Prop)
    (s : Session σ) : Prop where
  simplifications : ∀ entry ∈ s.simplifications.entries, A entry.1.mode entry.1.formula entry.2
  implications : ∀ entry ∈ s.implications.entries, entry.2 = true →
    M.Entails entry.1.left entry.1.right entry.1.existentials

/-- Empty caches hold nothing that is not right. -/
theorem Session.trusted_of_empty {M : Model V} {A : SimplifyMode → Formula → Simplified → Prop}
    {s : Session σ} (h : s.simplifications.entries = [] ∧ s.implications.entries = []) :
    s.Trusted M A where
  simplifications := by
    rw [h.1]
    exact List.forall_mem_nil _
  implications := by
    rw [h.2]
    exact List.forall_mem_nil _

/-- The caches hold answers of which `A` is true, and answers about implications of which `B` is
    true. -/
structure Session.Holding (A : SimplifyMode → Formula → Simplified → Prop)
    (B : ImplicationKey → Bool → Prop) (s : Session σ) : Prop where
  simplifications : ∀ entry ∈ s.simplifications.entries, A entry.1.mode entry.1.formula entry.2
  implications : ∀ entry ∈ s.implications.entries, B entry.1 entry.2

theorem Session.trusted_eq (M : Model V) (A : SimplifyMode → Formula → Simplified → Prop) :
    Session.Trusted (σ := σ) M A = Session.Holding A fun key answer => answer = true →
      M.Entails key.left key.right key.existentials :=
  funext fun _ => propext ⟨fun h => ⟨h.1, h.2⟩, fun h => ⟨h.1, h.2⟩⟩

/-- The caches hold right answers. -/
abbrev Session.Sound (M : Model V) (voc : Vocabulary) (Q : Symbol → Prop) (s : Session σ) : Prop :=
  s.Trusted M (Formula.AnsweredBy voc Q)

/-- A term whose value has sort `s`, whichever branches are taken. -/
structure Term.Fits (voc : Vocabulary) (s : SortName) (t : Term) : Prop where
  wellSorted : t.All (Term.WellSortedHead voc)
  branches : ∀ b ∈ t.branchSorts voc, voc.lattice.isSubsortEq s b = true

/-- What is reported is right to rely on. A goal is discharged by a formula that is not false and
    binds variables to terms of their sorts; a condition to split on is a truth value without
    existential variables; and a formula is not falsified by a test of sorts that misjudged. -/
def Diagnostic.Justified (voc : Vocabulary) (existentials : VarSet) : Diagnostic → Prop
  | .event (.provedBySimplification right) => right.isFalse = false ∧
      ∀ entry ∈ right.bindings.entries, entry.2.Fits voc entry.1.sort
  | .event (.caseSplit condition) => condition.Fits voc .bool ∧
      ∀ v ∈ condition.occurrences, v ∉ existentials
  | .event (.falsified witness) => ¬witness.Misjudged voc
  | _ => True

/-! ## Answers -/

/-- Some variables are given the values that another assignment gives them. -/
theorem exists_mixed (vars : List Variable) (ρ ρ' : Variable → V) :
    ∃ ρ'' : Variable → V, (∀ v ∈ vars, ρ'' v = ρ' v) ∧ ∀ v, v ∉ vars → ρ'' v = ρ v := by
  refine ⟨fun v => if v ∈ vars then ρ' v else ρ v, fun v hv => ?_, fun v hv => ?_⟩
  · simp [hv]
  · simp [hv]

namespace Formula

variable {voc : Vocabulary} {Q : Symbol → Prop} {mode : SimplifyMode} {φ ψ : Formula}
  {answer : Simplified}

theorem AnsweredBy.congr (h : φ.AnsweredBy voc Q mode answer) (heq : φ.bare = ψ.bare) :
    ψ.AnsweredBy voc Q mode answer := by
  obtain ⟨χ, hχ, hrest⟩ := h
  exact ⟨χ, hχ.trans heq, hrest⟩

theorem bare_occurrences (h : ψ.bare = φ.bare) : ψ.occurrences = φ.occurrences := by
  rw [← occurrences_bare ψ, h, occurrences_bare]

theorem holds_of_bare {A : Algebra V} {ρ : Variable → V} (h : ψ.bare = φ.bare)
    (hφ : φ.Holds A ρ) : ψ.Holds A ρ := by
  rw [← holds_bare_iff, h, holds_bare_iff]
  exact hφ

theorem AnsweredBy.simplifies (h : φ.AnsweredBy voc Q mode answer) :
    φ.Simplifies voc Q mode answer := by
  obtain ⟨ψ, hψ, hwithin, hsimplify, _⟩ := h
  exact ⟨ψ, hψ, hwithin, hsimplify⟩

variable {S : Formula}

/-- What solves the answer solves the formula. -/
theorem Simplifies.holds (h : φ.Simplifies voc Q mode (.ok S)) {A : Algebra V} {ρ : Variable → V}
    (hS : S.Holds A ρ) : φ.Holds A ρ := by
  obtain ⟨ψ, hψ, hwithin, hsimplify⟩ := h
  exact holds_of_bare hψ.symm (holds_of_simplify hwithin hsimplify hS)

theorem Simplifies.flat (h : φ.Simplifies voc Q mode (.ok S)) : S.Each Term.FlatHead := by
  obtain ⟨ψ, _, hwithin, hsimplify⟩ := h
  exact flat_simplify hwithin hsimplify

theorem Simplifies.resolved (h : φ.Simplifies voc Q mode (.ok S)) : S.bindings.Resolved := by
  obtain ⟨ψ, _, hwithin, hsimplify⟩ := h
  exact resolved_simplify hwithin hsimplify

/-- The answer has new variables only beside those of the formula. -/
theorem Simplifies.within {M : Model V} (hM : M.Lossless voc Q voc.lattice.Known)
    (h : φ.Simplifies voc Q mode (.ok S)) : S.Within (fun v => voc.lattice.Known v.sort ∧
      (v ∈ φ.occurrences ∨ v.isFresh = true)) Q := by
  obtain ⟨ψ, hψ, hwithin, hsimplify⟩ := h
  rw [← bare_occurrences hψ]
  exact within_simplify hM hwithin hsimplify

/-- A formula is carried to what simplification gives, unless a test of sorts that misjudged
    refutes it. -/
theorem carries_simplify {M : Model V} (hM : M.Lossless voc Q voc.lattice.Known)
    (hfolds : M.Folds mode) (hordered : M.Ordered voc.lattice) (hsorted : M.Sorted voc Q)
    (hwithin : φ.Within (fun v => voc.lattice.Known v.sort) Q)
    (hjudged : ∀ r, φ.simplify voc Unifier.structural mode = .error (.refuted r) →
      r.witness.Misjudged voc → ∀ ρ, M.Total ρ → ¬φ.Holds M.toAlgebra ρ) :
    M.Carries φ (φ.simplify voc Unifier.structural mode) := by
  intro ρ hρ htyped hholds
  rcases exists_simplified hM hfolds hordered hsorted hwithin (fun v _ => hρ v) hholds htyped with
    hexhausted | ⟨r, hr, hmisjudged⟩ | ⟨S, ρ', hS, hkept, hrespects, hholds', htyped'⟩
  · exact Or.inl hexhausted
  · exact absurd hholds (hjudged r hr hmisjudged ρ hρ)
  · -- outside the result the values stay as they were
    obtain ⟨ρ'', hinside, houtside⟩ := exists_mixed S.occurrences ρ ρ'
    have hscope := within_simplify hM hwithin hS
    refine Or.inr ⟨S, ρ'', hS, fun v => ?_, fun v hv => ?_, holds_of_agree hinside hholds', ?_⟩
    · by_cases hmem : v ∈ S.occurrences
      · rw [hinside v hmem]
        exact hrespects v hmem
      · rw [houtside v hmem]
        exact hρ v
    · by_cases hmem : v ∈ S.occurrences
      · rw [hinside v hmem]
        rcases (Within.occurrences hscope v hmem).2 with hold | hnew
        · exact hkept v hold
        · rw [hv] at hnew
          exact absurd hnew nofun
      · exact houtside v hmem
    · exact Each.imp (fun t => Term.typed_congr hinside)
        (within_occurrences hscope fun _ hv => hv) htyped'

/-- What a formula is carried to, one that compares equal is carried to. -/
theorem carries_congr {M : Model V} (h : ψ.bare = φ.bare) (hψ : M.Carries ψ answer) :
    M.Carries φ answer := by
  intro ρ hρ htyped hholds
  have hbare := each_bare_iff (Term.typed_bare_iff M ρ)
  have htypedBare : ψ.bare.Each (Term.TypedHead M ρ) := h ▸ (hbare φ).mpr htyped
  exact hψ ρ hρ ((hbare ψ).mp htypedBare) (holds_of_bare h hholds)

/-- An answer that refutes a formula with a solution is a wrong one. -/
theorem AnsweredBy.carries {M : Model V} (hM : M.Lossless voc Q voc.lattice.Known)
    (hfolds : M.Folds mode) (hordered : M.Ordered voc.lattice) (hsorted : M.Sorted voc Q)
    (h : φ.AnsweredBy voc Q mode answer) : M.Carries φ answer := by
  obtain ⟨ψ, hψ, hwithin, rfl, hjudged⟩ := h
  refine carries_congr hψ (carries_simplify hM hfolds hordered hsorted hwithin
    fun r hr hmisjudged ρ _ hholds => ?_)
  exact hjudged r hr (not_isFalse_of_holds hholds) hmisjudged

end Formula

/-! ## Looking up -/

theorem SimplificationKey.beq_iff (a b : SimplificationKey) :
    (a == b) = true ↔ a.formula.bare = b.formula.bare ∧ a.mode = b.mode := by
  change (a.formula == b.formula && a.mode == b.mode) = true ↔ _
  rw [Bool.and_eq_true, Formula.beq_iff, beq_iff_eq]

namespace SimplificationCache

variable {c : SimplificationCache} {key : SimplificationKey} {answer : Simplified}

theorem mem_of_get? (h : c.get? key = some answer) :
    ∃ entry ∈ c.entries, entry.1.formula.bare = key.formula.bare ∧ entry.1.mode = key.mode ∧
      entry.2 = answer := by
  obtain ⟨entry, hfound, hvalue⟩ := Option.map_eq_some_iff.mp h
  have hkey := List.find?_some hfound
  obtain ⟨hformula, hmode⟩ := (SimplificationKey.beq_iff entry.1 key).mp hkey
  exact ⟨entry, List.mem_of_find?_eq_some hfound, hformula, hmode, hvalue⟩

theorem insert_of_full (h : c.isFull = true) (key : SimplificationKey) (answer : Simplified) :
    c.insert key answer = (answer, { c with entries := [(key, answer)] }) := by
  rw [insert, if_pos h]
  rfl

theorem insert_of_present (hfull : c.isFull = false) (h : c.get? key = some answer)
    (new : Simplified) : c.insert key new = (answer, c) := by
  rw [insert, hfull, if_neg Bool.false_ne_true, h]

theorem insert_of_absent (hfull : c.isFull = false) (h : c.get? key = none)
    (answer : Simplified) :
    c.insert key answer = (answer, { c with entries := (key, answer) :: c.entries }) := by
  rw [insert, hfull, if_neg Bool.false_ne_true, h]

/-- What is stored in the end was stored before or is the new result. -/
theorem insert_spec (c : SimplificationCache) (key : SimplificationKey) (answer : Simplified) :
    ((c.insert key answer).1 = answer ∨ c.get? key = some (c.insert key answer).1) ∧
      ∀ entry ∈ (c.insert key answer).2.entries, entry = (key, answer) ∨ entry ∈ c.entries := by
  cases hfull : c.isFull with
  | true =>
    rw [insert_of_full hfull]
    exact ⟨.inl rfl, fun entry hentry => .inl (List.mem_singleton.mp hentry)⟩
  | false =>
    cases hget : c.get? key with
    | none =>
      rw [insert_of_absent hfull hget]
      exact ⟨.inl rfl, fun entry hentry => List.mem_cons.mp hentry⟩
    | some stored =>
      rw [insert_of_present hfull hget]
      exact ⟨.inr rfl, fun entry hentry => .inr hentry⟩

end SimplificationCache

namespace ImplicationCache

variable {c : ImplicationCache} {key : ImplicationKey} {answer : Bool}

theorem mem_of_get? (h : c.get? key = some answer) :
    ∃ entry ∈ c.entries, entry.1.left.bare = key.left.bare ∧
      entry.1.right.bare = key.right.bare ∧ entry.1.existentials = key.existentials ∧
      entry.2 = answer := by
  obtain ⟨entry, hfound, hvalue⟩ := Option.map_eq_some_iff.mp h
  have hkey := List.find?_some hfound
  obtain ⟨hformulas, hexistentials⟩ := Bool.and_eq_true_iff.mp hkey
  obtain ⟨hleft, hright⟩ := Bool.and_eq_true_iff.mp hformulas
  exact ⟨entry, List.mem_of_find?_eq_some hfound, (Formula.beq_iff _ _).mp hleft,
    (Formula.beq_iff _ _).mp hright, beq_iff_eq.mp hexistentials, hvalue⟩

/-- What is stored in the end was stored before or is the new answer. -/
theorem insert_spec (c : ImplicationCache) (key : ImplicationKey) (answer : Bool) :
    ((c.insert key answer).1 = answer ∨ c.get? key = some (c.insert key answer).1) ∧
      ∀ entry ∈ (c.insert key answer).2.entries, entry = (key, answer) ∨ entry ∈ c.entries := by
  unfold insert
  cases hget : c.get? key with
  | none => exact ⟨Or.inl rfl, fun entry hentry => List.mem_cons.mp hentry⟩
  | some stored => exact ⟨Or.inr rfl, fun entry hentry => Or.inr hentry⟩

end ImplicationCache

/-! ## The questions of an engine -/

/-- An engine that unifies structurally, with an oracle that is right in the model. -/
structure Engine.Sound (e : Engine σ) (M : Model V) : Prop where
  unifier : e.unifier = Unifier.structural
  oracle : e.oracle.Sound M

namespace Engine

/-- The triple for the work of an engine. -/
abbrev Does (e : Engine σ) (M : Model V) (Q : Symbol → Prop) (existentials : VarSet) (pre : Prop)
    (x : Work σ α) (P : α → Prop) : Prop :=
  Work.Ensures (Session.Sound M e.vocabulary Q) (Diagnostic.Justified e.vocabulary existentials) pre
    x P

/-- The triple for the inquiries of an engine. -/
abbrev Finds (e : Engine σ) (M : Model V) (Q : Symbol → Prop) (existentials : VarSet) (pre : Prop)
    (x : Inquiry σ α) (P : α → Prop) : Prop :=
  Inquiry.Ensures (Session.Sound M e.vocabulary Q)
    (Diagnostic.Justified e.vocabulary existentials) pre x P

/-- `A` is true of what simplification answers to formulas of which `G` is true, if refutations are
    reported as `J` asks; and it does not tell formulas apart that compare equal. -/
structure Answers (e : Engine σ) (J : Diagnostic → Prop) (G : Formula → Prop)
    (A : SimplifyMode → Formula → Simplified → Prop) : Prop where
  congr : ∀ {mode φ ψ answer}, A mode φ answer → φ.bare = ψ.bare → A mode ψ answer
  self : ∀ {mode φ answer}, G φ → φ.simplify e.vocabulary e.unifier mode = answer →
    (∀ r, answer = .error (.refuted r) → φ.isFalse = false → J (.event (.falsified r.witness))) →
    A mode φ answer

variable {e : Engine σ} {M : Model V} {J : Diagnostic → Prop} {G : Formula → Prop}
  {A : SimplifyMode → Formula → Simplified → Prop} {B : ImplicationKey → Bool → Prop}
  {existentials : VarSet} {pre : Prop}

theorem answers_answeredBy {Q : Symbol → Prop} (he : e.Sound M) :
    e.Answers (Diagnostic.Justified e.vocabulary existentials)
      (fun φ => φ.Within (fun v => e.vocabulary.lattice.Known v.sort) Q)
      (Formula.AnsweredBy e.vocabulary Q) where
  congr := .congr
  self hwithin hanswer hjudged := ⟨_, rfl, hwithin, he.unifier ▸ hanswer, hjudged⟩

theorem trusted_report (s : Session σ) (ds : List Diagnostic) (hs : s.Trusted M A) :
    Session.Trusted M A { s with diagnostics := s.diagnostics ++ ds } :=
  ⟨hs.simplifications, hs.implications⟩

theorem ensures_computeSimplified (hA : e.Answers J G A) (mode : SimplifyMode) (logFailures : Bool)
    {φ : Formula} (hφ : φ.simplify e.vocabulary e.unifier mode =
      φ.simplifyWithin e.vocabulary e.unifier mode φ.stepBound) :
    Work.Ensures (Session.Holding A B) J (G φ) (e.computeSimplified mode logFailures φ)
      (A mode φ) := by
  unfold computeSimplified
  dsimp only
  split
  · rename_i r hr
    refine .bind (Work.ensures_report (fun _ _ hs => ⟨hs.simplifications, hs.implications⟩) _)
      fun _ => .pure fun ⟨hG, hd⟩ => ?_
    refine hA.self hG hφ fun r' hr' _ => ?_
    rw [hr] at hr'
    obtain rfl := Halt.refuted.inj (Except.error.inj hr')
    exact hd (.event (.falsified r.witness)) (by simp [refutationReport])
  · rename_i hr
    exact .pure fun hG => hA.self hG hφ fun r hr' _ => (hr r hr').elim

/-- A simplified formula is the answer to the formula, whatever is known of implications. -/
theorem holding_simplify (hA : e.Answers J G A) (mode : SimplifyMode) (logFailures : Bool)
    (φ : Formula) :
    Work.Ensures (Session.Holding A B) J (G φ) (e.simplify mode logFailures φ) (A mode φ) := by
  unfold simplify
  split
  · exact .pure fun hG => hA.self hG rfl fun _ _ hfalse => Bool.noConfusion hfalse
  rename_i hfalse
  have hself : φ.simplify e.vocabulary e.unifier mode = if φ.isTrue then .ok φ
      else φ.simplifyWithin e.vocabulary e.unifier mode φ.stepBound := by
    rw [Formula.simplify]
    exact hfalse
  split
  · rename_i htrue
    rw [if_pos htrue] at hself
    exact .pure fun hG => hA.self hG hself fun _ h => absurd h (by simp)
  rename_i htrue
  rw [if_neg htrue] at hself
  split
  · exact ensures_computeSimplified hA mode logFailures hself
  refine .bind Work.ensures_get fun s => ?_
  split
  · rename_i stored hget
    refine .bind (Work.ensures_modify (fun _ => rfl) fun _ s' hs' => ⟨hs'.simplifications,
      hs'.implications⟩) fun _ => .pure fun hpre => ?_
    obtain ⟨⟨_, hs⟩, _⟩ := hpre
    obtain ⟨entry, hentry, hformula, hmode, rfl⟩ := SimplificationCache.mem_of_get? hget
    have hanswer := hs.simplifications entry hentry
    rw [hmode] at hanswer
    exact hA.congr hanswer hformula
  · refine .bind (Work.ensures_modify (fun _ => rfl) fun _ s' hs' => ⟨hs'.simplifications,
      hs'.implications⟩) fun _ => ?_
    refine .bind ((ensures_computeSimplified hA mode logFailures hself).imp (fun h => h.1.1)
      fun _ _ h => h) fun answer => ?_
    refine .bind Work.ensures_get fun s' => ?_
    obtain ⟨hstored, hentries⟩ := s'.simplifications.insert_spec ⟨φ, mode⟩ answer
    dsimp only
    refine .bind (Work.ensures_modify (fun _ => rfl) fun hpre s'' hs'' =>
      ⟨fun entry hentry => ?_, hs''.implications⟩) fun _ => .pure fun hpre => ?_
    · obtain ⟨⟨_, hanswer⟩, hs'⟩ := hpre
      rcases hentries entry hentry with rfl | hentry
      · exact hanswer
      · exact hs'.simplifications entry hentry
    · obtain ⟨⟨⟨_, hanswer⟩, hs'⟩, _⟩ := hpre
      rcases hstored with hstored | hget
      · rw [hstored]
        exact hanswer
      · obtain ⟨entry, hentry, hformula, hmode, hvalue⟩ := SimplificationCache.mem_of_get? hget
        have hold := hs'.simplifications entry hentry
        rw [hmode, hvalue] at hold
        exact hA.congr hold hformula

theorem ensures_simplify (hA : e.Answers J G A) (mode : SimplifyMode) (logFailures : Bool)
    (φ : Formula) :
    Work.Ensures (Session.Trusted M A) J (G φ) (e.simplify mode logFailures φ) (A mode φ) := by
  rw [Session.trusted_eq]
  exact holding_simplify hA mode logFailures φ

/-- What the oracle says with yes is right. -/
theorem finds_ask {question : Session σ → Verdict × σ} {P : Prop}
    (h : ∀ s, (question s).1.answer = .ok true → P) :
    Inquiry.Ensures (Session.Trusted M A) J pre (ask question) fun answer => answer = true → P where
  grows s := List.prefix_append s.diagnostics _
  holds _ s hs _ := ⟨⟨hs.simplifications, hs.implications⟩, fun _ hb htrue => h s (htrue ▸ hb)⟩

theorem finds_checkUnsat (he : e.Sound M) (φ : Formula) :
    Inquiry.Ensures (Session.Trusted M A) J pre (e.checkUnsat φ) fun answer => answer = true →
      ∀ ρ, M.Total ρ → ¬φ.Holds M.toAlgebra ρ := by
  unfold checkUnsat
  split
  · rename_i hfalse
    refine Inquiry.Ensures.pure fun _ _ ρ _ hφ => ?_
    rw [Formula.not_isFalse_of_holds hφ] at hfalse
    exact absurd hfalse nofun
  · exact finds_ask fun s hs => he.oracle.unsat φ _ _ hs

theorem entails_congr {left left' right right' : Formula} (hleft : left.bare = left'.bare)
    (hright : right.bare = right'.bare) (h : M.Entails left right existentials) :
    M.Entails left' right' existentials := by
  intro ρ hρ hholds
  obtain ⟨ρ', hρ', hkept, hright'⟩ := h ρ hρ (Formula.holds_of_bare hleft hholds)
  exact ⟨ρ', hρ', hkept, Formula.holds_of_bare hright.symm hright'⟩

/-- What the oracle or the cache says with yes is right. -/
theorem finds_askImpliesCached (he : e.Sound M) (left right : Formula) (vars : VarSet) :
    Inquiry.Ensures (Session.Trusted M A) J pre (e.askImpliesCached left right vars) fun answer =>
      answer = true → M.Entails left right vars := by
  have hask {pre : Prop} : Inquiry.Ensures (Session.Trusted M A) J pre
      (e.askImplies left right vars) fun answer => answer = true → M.Entails left right vars :=
    finds_ask fun s hs => he.oracle.implies left right vars _ _ hs
  unfold askImpliesCached
  split
  · exact hask
  refine .bind (Inquiry.ensures_lift Work.ensures_get) fun s => ?_
  split
  · rename_i stored hget
    refine .bind (Inquiry.ensures_modify (fun _ => rfl) fun _ s' hs' => ⟨hs'.simplifications,
      hs'.implications⟩) fun _ => .pure fun ⟨⟨_, hs⟩, _⟩ htrue => ?_
    obtain ⟨entry, hentry, hleft, hright, hvars, rfl⟩ := ImplicationCache.mem_of_get? hget
    have hentails := hs.implications entry hentry htrue
    rw [hvars] at hentails
    exact entails_congr hleft hright hentails
  · refine .bind (Inquiry.ensures_modify (fun _ => rfl) fun _ s' hs' => ⟨hs'.simplifications,
      hs'.implications⟩) fun _ => ?_
    refine .bind hask fun answer => ?_
    refine .bind (Inquiry.ensures_lift Work.ensures_get) fun s' => ?_
    obtain ⟨hstored, hentries⟩ := s'.implications.insert_spec ⟨left, right, vars⟩ answer
    dsimp only
    refine .bind (Inquiry.ensures_modify (fun _ => rfl) fun ⟨⟨_, hanswer⟩, hs'⟩ s'' hs'' =>
      ⟨hs''.simplifications, fun entry hentry => ?_⟩) fun _ =>
      .pure fun ⟨⟨⟨_, hanswer⟩, hs'⟩, _⟩ htrue => ?_
    · rcases hentries entry hentry with rfl | hentry
      · exact hanswer
      · exact hs'.implications entry hentry
    · rcases hstored with hstored | hget
      · exact hanswer (hstored ▸ htrue)
      · obtain ⟨entry, hentry, hleft, hright, hvars, hvalue⟩ := ImplicationCache.mem_of_get? hget
        have hentails := hs'.implications entry hentry (hvalue.trans htrue)
        rw [hvars] at hentails
        exact entails_congr hleft hright hentails

end Engine

end Entail
