import Entail.Proofs.Consistency
import Entail.Proofs.Sessions

set_option autoImplicit false

/-! # The queue of goals

A goal is shown by choosing values of the existential variables, and of the variables that
simplification introduced, in every solution of its left side. Reducing the right side, splitting on
a condition and simplifying the left side lead from a goal to goals that suffice for it; and a goal
is shown when nothing is left of it, or when the oracle says so.

What has to be known of formulas for this is gathered in a few rules. From the rules it follows,
whatever the caches hold and however many levels of goals there are, that what is answered with yes
is shown. -/

namespace Entail

variable {V σ : Type}

/-- Every solution of `left` is changed on existential and new variables only to one of both
    sides. -/
def Model.Proves (M : Model V) (existentials : VarSet) (left right : Formula) : Prop :=
  ∀ ρ, M.Total ρ → left.Each (Term.TypedHead M ρ) → left.Holds M.toAlgebra ρ →
    ∃ ρ', M.Total ρ' ∧ (∀ v, v.isFresh = false → v ∉ existentials → ρ' v = ρ v) ∧
      left.Holds M.toAlgebra ρ' ∧ right.Holds M.toAlgebra ρ'

namespace Formula

variable {M : Model V} {existentials : VarSet} {left right S : Formula}

/-- A goal suffices whose left side is what simplification gives. -/
theorem proves_of_carries (hcarries : M.Carries left (.ok S))
    (hholds : ∀ ρ, S.Holds M.toAlgebra ρ → left.Holds M.toAlgebra ρ)
    (hS : M.Proves existentials S right) : M.Proves existentials left right := by
  intro ρ hρ htyped hleft
  rcases hcarries ρ hρ htyped hleft with hexhausted | ⟨S', ρ', heq, hρ', hkept, hS', htyped'⟩
  · exact absurd hexhausted nofun
  · obtain rfl := Except.ok.inj heq
    obtain ⟨ρ'', hρ'', hkept', hS'', hright⟩ := hS ρ' hρ' htyped' hS'
    refine ⟨ρ'', hρ'', fun v hv hmem => ?_, hholds ρ'' hS'', hright⟩
    rw [hkept' v hv hmem, hkept v hv]

/-- A refuted left side proves everything. -/
theorem proves_of_refuted {r : Refutation} (hcarries : M.Carries left (.error (.refuted r))) :
    M.Proves existentials left right := by
  intro ρ hρ htyped hholds
  rcases hcarries ρ hρ htyped hholds with hexhausted | ⟨S, _, heq, _⟩
  · exact absurd (Except.error.inj hexhausted) nofun
  · exact absurd heq nofun

end Formula

/-! ## Rules -/

/-- `S` is what is left to show of `right`: it is enough to show `S`, nothing has to be shown of it
    if it is discharged, and it may be shown for both values of a condition. `L` and `R` are kept
    true of left and right sides, `J` of what is reported. -/
structure Model.Reduces (M : Model V) (existentials : VarSet) (J : Diagnostic → Prop)
    (L R : Formula → Prop) (left right S : Formula) : Prop where
  keeps : R S
  proves : M.Proves existentials left S → M.Proves existentials left right
  discharged : Engine.isDischarged S existentials = true →
    J (.event (.provedBySimplification S)) → M.Proves existentials left S
  split : ∀ c ∈ S.conditions, J (.event (.caseSplit c)) →
    (∀ b, L (left.addTerms c (.bool b))) ∧
      ((∀ b, M.Proves existentials (left.addTerms c (.bool b)) S) → M.Proves existentials left S)

/-- The right side of a goal with what the left side knows put into it. -/
def Engine.prepared (e : Engine σ) (left right : Formula) (existentials : VarSet) : Formula :=
  (right.orient e.vocabulary .unknown existentials).rewrite e.vocabulary left.facts
    left.bindings.get?

/-- What is known of the formulas of goals. Formulas of which `G` is true are simplified, and `A` is
    true of what comes of it. -/
structure Engine.Rules (e : Engine σ) (M : Model V) (existentials : VarSet)
    (J : Diagnostic → Prop) (G L R : Formula → Prop)
    (A : SimplifyMode → Formula → Simplified → Prop) : Prop extends e.Sound M where
  answers : e.Answers J G A
  left : ∀ {φ}, L φ → G φ
  apart : ∀ {φ}, L φ → ∀ v ∈ φ.occurrences, v ∉ existentials
  simplified : ∀ {φ S}, L φ → A .default φ (.ok S) →
    L S ∧ ∀ right, M.Proves existentials S right → M.Proves existentials φ right
  refuted : ∀ {φ r}, L φ → A .default φ (.error (.refuted r)) →
    ∀ right, M.Proves existentials φ right
  prepared : ∀ {left right}, L left → R right → G (e.prepared left right existentials)
  reduced : ∀ {left right S}, L left → R right →
    A .default (e.prepared left right existentials) (.ok S) →
      M.Reduces existentials J L R left right
        ((left.without S).orient e.vocabulary .unknown existentials)

namespace Engine.Rules

variable {e : Engine σ} {M : Model V} {existentials : VarSet} {J : Diagnostic → Prop}
  {G L R : Formula → Prop} {A : SimplifyMode → Formula → Simplified → Prop} {left right : Formula}

/-! ## Formulas -/

theorem ensures_simplify (h : e.Rules M existentials J G L R A) (φ : Formula) :
    Work.Ensures (Session.Trusted M A) J (L φ) (e.simplify .default false φ) fun answer =>
      (∀ S, answer = .ok S → L S ∧
        ∀ right, M.Proves existentials S right → M.Proves existentials φ right) ∧
      ∀ r, answer = .error (.refuted r) → ∀ right, M.Proves existentials φ right :=
  (Engine.ensures_simplify h.answers .default false φ).imp h.left fun hφ _ hanswer =>
    ⟨fun _ hS => h.simplified hφ (hS ▸ hanswer), fun _ hr => h.refuted hφ (hr ▸ hanswer)⟩

/-- Reducing the right side of a goal. -/
theorem ensures_reduce (h : e.Rules M existentials J G L R A) :
    Work.Ensures (Session.Trusted M A) J (L left ∧ R right) (e.reduce left right existentials)
      fun answer => ∀ S, answer = .ok S → M.Reduces existentials J L R left right S := by
  unfold reduce
  dsimp only
  refine .bind ((Engine.ensures_simplify h.answers .default false _).imp
    (fun hgoal => h.prepared hgoal.1 hgoal.2) fun _ _ hanswer => hanswer) fun answer => ?_
  split
  · exact .pure fun _ S hS => absurd hS nofun
  · refine .pure fun ⟨hgoal, hanswer⟩ S hS => ?_
    obtain rfl := Except.ok.inj hS
    exact h.reduced hgoal.1 hgoal.2 hanswer

/-- The goals for the truth values of a condition. -/
theorem ensures_branches (h : e.Rules M existentials J G L R A) {c : Term} (splits : List Term)
    (values : List Bool) :
    Work.Ensures (Session.Trusted M A) J (R right ∧ ∀ b, L (left.addTerms c (.bool b)))
      (e.branches left right c splits values) fun goals =>
        (∀ goal ∈ goals, L goal.left ∧ R goal.right) ∧
          ((∀ goal ∈ goals, M.Proves existentials goal.left goal.right) →
            ∀ b ∈ values, M.Proves existentials (left.addTerms c (.bool b)) right) := by
  induction values with
  | nil => exact .pure fun _ => ⟨nofun, fun _ => nofun⟩
  | cons b values ih =>
    unfold branches
    dsimp only
    refine .bind ((h.ensures_simplify _).imp (fun hpre => hpre.2 b) fun _ _ hanswer => hanswer)
      fun branch => ?_
    refine .bind (ih.imp (fun hpre => hpre.1) fun _ _ hrest => hrest) fun rest => ?_
    split
    · rename_i B
      refine .pure fun ⟨⟨⟨hright, _⟩, hB, _⟩, hformed, hproves⟩ => ?_
      obtain ⟨hBLeft, hBProves⟩ := hB B rfl
      refine ⟨List.forall_mem_cons.mpr ⟨⟨hBLeft, hright⟩, hformed⟩, fun hgoals => ?_⟩
      rw [List.forall_mem_cons] at hgoals
      exact List.forall_mem_cons.mpr ⟨hBProves _ hgoals.1, hproves hgoals.2⟩
    · rename_i r
      refine .pure fun ⟨⟨_, _, hrefuted⟩, hformed, hproves⟩ => ⟨hformed, fun hgoals => ?_⟩
      exact List.forall_mem_cons.mpr ⟨hrefuted r rfl right, hproves hgoals⟩
    · refine .pure fun ⟨⟨⟨hright, hassumed⟩, _⟩, hformed, hproves⟩ => ⟨?_, fun hgoals => ?_⟩
      · exact List.forall_mem_cons.mpr ⟨⟨hassumed b, hright⟩, hformed⟩
      · rw [List.forall_mem_cons] at hgoals
        exact List.forall_mem_cons.mpr ⟨hgoals.1, hproves hgoals.2⟩

/-! ## The oracle -/

/-- What the oracle says with yes is shown. -/
theorem finds_proveWithOracle (h : e.Rules M existentials J G L R A) :
    Inquiry.Ensures (Session.Trusted M A) J (L left) (e.proveWithOracle left right existentials)
      fun answer => answer = true → M.Proves existentials left right := by
  unfold proveWithOracle
  dsimp only
  refine .bind (finds_askImpliesCached h.toSound _ right existentials) fun answer => ?_
  have hshown (hleft : L left)
      (hanswer : answer = true → M.Entails (.all .empty left.equalities left.disjunctions) right
        existentials) (htrue : answer = true) : M.Proves existentials left right := by
    intro ρ hρ _ hholds
    have hrest : (Formula.all .empty left.equalities left.disjunctions).Holds M.toAlgebra ρ := by
      cases left with
      | falsified w => exact absurd hholds (Formula.not_holds_falsified _ _ w)
      | all s es ds =>
        obtain ⟨_, hes, hds⟩ := (Formula.holds_all_iff _ _ s es ds).mp hholds
        exact (Formula.holds_all_iff _ _ _ _ _).mpr ⟨nofun, hes, hds⟩
    obtain ⟨ρ', hρ', hkept, hright⟩ := hanswer htrue ρ hρ hrest
    refine ⟨ρ', hρ', fun v _ hv => hkept v hv, ?_, hright⟩
    exact Formula.holds_of_agree (fun v hv => hkept v (h.apart hleft v hv)) hholds
  split
  · refine .bind (Inquiry.ensures_emit trusted_report _) fun _ => .pure fun hpre => ?_
    exact hshown hpre.1.1 hpre.1.2
  · refine .bind (Inquiry.ensures_emit trusted_report _) fun _ => ?_
    split
    · refine .bind (Inquiry.ensures_debug trusted_report _) fun _ => .pure fun hpre => ?_
      exact hshown hpre.1.1.1 hpre.1.1.2
    · exact .pure fun hpre => hshown hpre.1.1 hpre.1.2

/-! ## One goal -/

/-- The goals that a goal comes down to suffice for it. -/
def Suffices (M : Model V) (existentials : VarSet) (L R : Formula → Prop) (left right : Formula) :
    GoalResult → Prop
  | .failed => True
  | .reduced goals => (∀ goal ∈ goals, L goal.left ∧ R goal.right) ∧
      ((∀ goal ∈ goals, M.Proves existentials goal.left goal.right) →
        M.Proves existentials left right)

theorem finds_proveReduced (h : e.Rules M existentials J G L R A) (maySplit : Bool) {S : Formula}
    (splits : List Term) :
    Inquiry.Ensures (Session.Trusted M A) J
      (L left ∧ M.Reduces existentials J L R left right S)
      (e.proveReduced existentials maySplit left S splits)
      (Suffices M existentials L R left S) := by
  unfold proveReduced
  split
  · rename_i hdischarged
    refine .bind (Inquiry.ensures_emit trusted_report _) fun _ => .pure fun hpre =>
      ⟨nofun, fun _ => ?_⟩
    exact hpre.1.2.discharged hdischarged hpre.2
  split
  · rename_i c hc
    have hmem : c ∈ S.conditions := by
      split at hc
      · exact List.mem_of_find?_eq_some hc
      · exact absurd hc nofun
    refine .bind (Inquiry.ensures_emit trusted_report _) fun _ => ?_
    refine .bind (Inquiry.ensures_lift ((h.ensures_branches (c :: splits) [true, false]).imp
      (fun hpre => ⟨hpre.1.2.keeps, (hpre.1.2.split c hmem hpre.2).1⟩) fun _ _ hgoals => hgoals))
      fun goals => ?_
    refine .pure fun ⟨⟨⟨_, hreduces⟩, hreported⟩, hformed, hproves⟩ =>
      ⟨hformed, fun hgoals => ?_⟩
    refine (hreduces.split c hmem hreported).2 fun b => hproves hgoals b ?_
    cases b <;> simp
  · refine .bind ((h.finds_proveWithOracle).imp (fun hpre => hpre.1) fun _ _ hanswer => hanswer)
      fun answer => ?_
    split
    · rename_i htrue
      exact .pure fun hpre => ⟨nofun, fun _ => hpre.2 htrue⟩
    · exact .pure fun _ => trivial

theorem finds_proveGoal (h : e.Rules M existentials J G L R A) (maySplit : Bool) (goal : Goal) :
    Inquiry.Ensures (Session.Trusted M A) J (L goal.left ∧ R goal.right)
      (e.proveGoal existentials maySplit goal)
      (Suffices M existentials L R goal.left goal.right) := by
  unfold proveGoal
  split
  · rename_i hfalse
    refine .pure fun _ => ⟨nofun, fun _ ρ _ _ hholds => ?_⟩
    exact absurd hholds (Formula.not_holds_of_isFalseExtended hfalse)
  refine .bind (Inquiry.ensures_lift h.ensures_reduce) fun answer => ?_
  split
  · refine .bind (Inquiry.ensures_debug trusted_report _) fun _ => ?_
    refine .bind (finds_checkUnsat h.toSound goal.left) fun answer => ?_
    split
    · rename_i htrue
      exact .pure fun hpre => ⟨nofun, fun _ ρ hρ _ hholds => absurd hholds (hpre.2 htrue ρ hρ)⟩
    · exact .pure fun _ => trivial
  · exact .pure fun _ => trivial
  · rename_i S
    refine (h.finds_proveReduced maySplit goal.splits).imp (fun hpre => ⟨hpre.1.1, hpre.2 S rfl⟩)
      fun hpre result hresult => ?_
    cases result with
    | failed => trivial
    | reduced goals =>
      exact ⟨hresult.1, fun hgoals => (hpre.2 S rfl).proves (hresult.2 hgoals)⟩

/-! ## All goals -/

/-- The goals of the next level suffice for those of a level. -/
theorem finds_proveLevel (h : e.Rules M existentials J G L R A) (maySplit : Bool)
    (goals : List Goal) :
    Inquiry.Ensures (Session.Trusted M A) J (∀ goal ∈ goals, L goal.left ∧ R goal.right)
      (e.proveLevel existentials maySplit goals) fun answer => ∀ next, answer = some next →
        (∀ goal ∈ next, L goal.left ∧ R goal.right) ∧
          ((∀ goal ∈ next, M.Proves existentials goal.left goal.right) →
            ∀ goal ∈ goals, M.Proves existentials goal.left goal.right) := by
  induction goals with
  | nil =>
    refine .pure fun _ next hnext => ?_
    obtain rfl := Option.some.inj hnext
    exact ⟨nofun, fun _ => nofun⟩
  | cons goal goals ih =>
    unfold proveLevel
    refine .bind ((h.finds_proveGoal maySplit goal).imp
      (fun hpre => hpre goal (List.mem_cons_self ..)) fun _ _ hresult => hresult) fun result => ?_
    split
    · exact .pure fun _ next hnext => absurd hnext nofun
    · rename_i first
      refine .bind (ih.imp (fun hpre => (List.forall_mem_cons.mp hpre.1).2)
        fun _ _ hlater => hlater) fun later => ?_
      split
      · exact .pure fun _ next hnext => absurd hnext nofun
      · rename_i later
        refine .pure fun ⟨⟨_, hfirst⟩, hlater⟩ next hnext => ?_
        obtain rfl := Option.some.inj hnext
        obtain ⟨hformed, hproves⟩ := hlater later rfl
        refine ⟨List.forall_mem_append.mpr ⟨hfirst.1, hformed⟩, fun hgoals => ?_⟩
        obtain ⟨hfirstGoals, hlaterGoals⟩ := List.forall_mem_append.mp hgoals
        exact List.forall_mem_cons.mpr ⟨hfirst.2 hfirstGoals, hproves hlaterGoals⟩

/-- Level after level, what is answered with yes is shown. -/
theorem finds_proveLevels (h : e.Rules M existentials J G L R A) (n : Nat) (goals : List Goal) :
    Inquiry.Ensures (Session.Trusted M A) J (∀ goal ∈ goals, L goal.left ∧ R goal.right)
      (e.proveLevels existentials n goals) fun answer => answer = true →
        ∀ goal ∈ goals, M.Proves existentials goal.left goal.right := by
  induction n generalizing goals with
  | zero =>
    unfold proveLevels
    refine .bind (h.finds_proveLevel false goals) fun answer => ?_
    split
    · exact .pure fun _ hanswer => absurd hanswer nofun
    · rename_i next
      refine .pure fun hpre hempty => (hpre.2 next rfl).2 ?_
      rw [List.isEmpty_iff.mp hempty]
      exact nofun
  | succ n ih =>
    unfold proveLevels
    refine .bind (h.finds_proveLevel true goals) fun answer => ?_
    split
    · exact .pure fun _ hanswer => absurd hanswer nofun
    · exact .pure fun hpre _ => (hpre.2 [] rfl).2 nofun
    · rename_i next _
      exact (ih next).imp (fun hpre => (hpre.2 next rfl).1) fun hpre _ hnext htrue =>
        (hpre.2 next rfl).2 (hnext htrue)

/-- What is answered with yes is shown. -/
theorem finds_implies (h : e.Rules M existentials J G L R A) :
    Inquiry.Ensures (Session.Trusted M A) J (L left ∧ R right) (e.implies left right existentials)
      fun answer => answer = true → M.Proves existentials left right := by
  unfold implies
  refine .bind (Inquiry.ensures_emit trusted_report _) fun _ => ?_
  refine .bind (Inquiry.ensures_lift ((h.ensures_simplify left).imp (fun hpre => hpre.1.1)
    fun _ _ hanswer => hanswer)) fun answer => ?_
  split
  · rename_i r
    exact .pure fun hpre _ => hpre.2.2 r rfl right
  · exact .pure fun _ hanswer => absurd hanswer nofun
  · rename_i S
    refine (h.finds_proveLevels _ _).imp (fun hpre => List.forall_mem_singleton.mpr
      ⟨(hpre.2.1 S rfl).1, hpre.1.1.2⟩) fun hpre _ hanswer htrue => ?_
    exact (hpre.2.1 S rfl).2 right (hanswer htrue _ (List.mem_singleton.mpr rfl))

end Engine.Rules

end Entail
