import Entail.Proofs.Passes
import Entail.Proofs.Values

set_option autoImplicit false

/-! # Solutions of a simplified formula

A run ends in a last worklist, whose next step gives the result or refutes it. Backwards along a run
every solution of the result is one of the formula; forwards a solution of the formula is extended,
step by step, to the variables that simplification introduced. -/

namespace Entail

variable {V : Type}

/-! ## The variables of a formula -/

namespace Formula

/-- The variables of a formula are in `X` and the symbols in `Q`. -/
abbrev Within (X : Variable → Prop) (Q : Symbol → Prop) (φ : Formula) : Prop :=
  φ.Each (Term.WithinHead X Q)

variable {X : Variable → Prop} {Q : Symbol → Prop}

theorem mem_occurrences_iff (s : Substitution) (es : List Equality) (ds : List Disjunction)
    (v : Variable) : v ∈ (all s es ds).occurrences ↔
      (∃ entry ∈ s.entries, v = entry.1 ∨ v ∈ entry.2.occurrences) ∨
        (∃ e ∈ es, v ∈ e.occurrences) ∨ ∃ d ∈ ds, ∃ φ ∈ d, v ∈ Formula.occurrences φ := by
  simp only [occurrences, occurrencesIn_eq, Substitution.occurrences, List.mem_append,
    List.mem_flatMap, List.mem_cons]

theorem Within.occurrences {φ : Formula} (h : φ.Within X Q) : ∀ v ∈ φ.occurrences, X v := by
  induction φ using Formula.ind with
  | falsified w => nofun
  | all s es ds ih =>
    obtain ⟨hs, hes, hds⟩ := (everywhere_all_iff s es ds).mp h
    intro v hv
    rcases (mem_occurrences_iff s es ds v).mp hv with ⟨entry, hentry, hv⟩ | ⟨e, he, hv⟩ |
      ⟨d, hd, φ, hφ, hv⟩
    · rcases hv with rfl | hv
      · exact (hs entry hentry).1
      · exact Term.Within.occurrences (hs entry hentry).2 v hv
    · rcases List.mem_append.mp hv with hv | hv
      · exact Term.Within.occurrences (hes e he).1 v hv
      · exact Term.Within.occurrences (hes e he).2 v hv
    · exact ih d hd φ hφ (hds d hd φ hφ) v hv

/-- Only the variables that occur matter. -/
theorem within_occurrences {X' : Variable → Prop} {φ : Formula} (h : φ.Within X Q)
    (hX : ∀ v ∈ φ.occurrences, X' v) : φ.Within X' Q := by
  induction φ using Formula.ind with
  | falsified w => trivial
  | all s es ds ih =>
    obtain ⟨hs, hes, hds⟩ := (everywhere_all_iff s es ds).mp h
    have hmem {v : Variable} := (mem_occurrences_iff s es ds v).mpr
    refine (everywhere_all_iff s es ds).mpr ⟨fun entry hentry => ?_, fun e he => ?_,
      fun d hd φ hφ => ?_⟩
    · exact ⟨hX _ (hmem (Or.inl ⟨entry, hentry, Or.inl rfl⟩)),
        Term.within_occurrences (hs entry hentry).2 fun v hv =>
          hX v (hmem (Or.inl ⟨entry, hentry, Or.inr hv⟩))⟩
    · have hv {v : Variable} (hv : v ∈ e.occurrences) : X' v :=
        hX v (hmem (Or.inr (Or.inl ⟨e, he, hv⟩)))
      exact ⟨Term.within_occurrences (hes e he).1 fun v h => hv (List.mem_append_left _ h),
        Term.within_occurrences (hes e he).2 fun v h => hv (List.mem_append_right _ h)⟩
    · exact ih d hd φ hφ (hds d hd φ hφ) fun v hv =>
        hX v (hmem (Or.inr (Or.inr ⟨d, hd, φ, hφ, hv⟩)))

theorem Within.mono {X' : Variable → Prop} (hX : ∀ v, X v → X' v) {φ : Formula}
    (h : φ.Within X Q) : φ.Within X' Q :=
  within_occurrences h fun v hv => hX v (Within.occurrences h v hv)

/-- Only the values of the variables that occur matter. -/
theorem holds_of_agree {A : Algebra V} {ρ ρ' : Variable → V} {φ : Formula}
    (h : ∀ v ∈ φ.occurrences, ρ' v = ρ v) (hφ : φ.Holds A ρ) : φ.Holds A ρ' := by
  induction φ using Formula.ind with
  | falsified w => exact hφ
  | all s es ds ih =>
    have hmem {v : Variable} := (mem_occurrences_iff s es ds v).mpr
    obtain ⟨hs, hes, hds⟩ := (holds_all_iff A ρ s es ds).mp hφ
    refine (holds_all_iff A ρ' s es ds).mpr ⟨fun entry hentry => ?_, fun e he => ?_,
      fun d hd => ?_⟩
    · rw [h entry.1 (hmem (Or.inl ⟨entry, hentry, Or.inl rfl⟩)), hs entry hentry]
      exact (Term.eval_congr A entry.2 fun v hv => h v (hmem (Or.inl ⟨entry, hentry, Or.inr hv⟩))).symm
    · have he' {v : Variable} (hv : v ∈ e.occurrences) : ρ' v = ρ v :=
        h v (hmem (Or.inr (Or.inl ⟨e, he, hv⟩)))
      have hheld : e.lhs.eval A ρ = e.rhs.eval A ρ := hes e he
      rw [Equality.Holds, Term.eval_congr A e.lhs fun v hv => he' (List.mem_append_left _ hv),
        Term.eval_congr A e.rhs fun v hv => he' (List.mem_append_right _ hv), hheld]
    · obtain ⟨ψ, hψ, hheld⟩ := hds d hd
      exact ⟨ψ, hψ, ih d hd ψ hψ (fun v hv => h v (hmem (Or.inr (Or.inr ⟨d, hd, ψ, hψ, hv⟩)))) hheld⟩

theorem mem_vars_iff (φ : Formula) (v : Variable) : v ∈ φ.vars ↔ v ∈ φ.occurrences := by
  have h := Sorted.mem_union_iff Variable.cmp_eq_iff [] φ.occurrences v
  exact h.trans (or_iff_right List.not_mem_nil)

end Formula

namespace Worklist

variable {Q : Symbol → Prop} {voc : Vocabulary} {mode : SimplifyMode}

/-! ## The beginning of a run -/

theorem holds_ofFormula_iff {A : Algebra V} {ρ : Variable → V} (s : Substitution)
    (es : List Equality) (ds : List Disjunction) :
    (ofFormula (.all s es ds)).Holds A ρ ↔ (Formula.all s es ds).Holds A ρ := by
  have hpending : (ofFormula (.all s es ds)).pending = s.equalities ++ es := rfl
  constructor
  · intro h
    have hes := h.pending
    rw [hpending] at hes
    exact (Step.structural_holds_iff s es ds).mpr ⟨hes, h.disjunctions⟩
  · intro h
    obtain ⟨hes, hds⟩ := (Step.structural_holds_iff s es ds).mp h
    exact ⟨nofun, nofun, hes, hds⟩

theorem each_ofFormula {p : Term → Prop} {φ : Formula} (h : φ.Each p) : (ofFormula φ).Each p := by
  cases φ with
  | falsified w => exact ⟨nofun, nofun, nofun, nofun⟩
  | all s es ds =>
    obtain ⟨hs, hes, hds⟩ := (Formula.everywhere_all_iff s es ds).mp h
    refine ⟨nofun, nofun, List.forall_mem_append.mpr ⟨?_, hes⟩, hds⟩
    rw [Formula.bindings, Substitution.equalities, List.forall_mem_map]
    exact hs

theorem good_ofFormula {X : Variable → Prop} {φ : Formula} (h : φ.Within X Q) :
    (ofFormula φ).Good (· ∈ φ.occurrences) Q where
  names v hv := List.mem_map_of_mem ((φ.mem_vars_iff v).mpr hv)
  each := each_ofFormula (Formula.within_occurrences h fun _ hv => hv)
  resolved := Substitution.resolved_empty

/-! ## Along a run -/

/-- Every solution of the result of a run is one of the worklist it began with. -/
theorem holds_of_run {A : Algebra V} {ρ : Variable → V} {X : Variable → Prop} {w : Worklist}
    (hw : w.Good X Q) {n : Nat} {φ : Formula}
    (h : w.run voc Unifier.structural mode n = .ok φ) (hφ : φ.Holds A ρ) : w.Holds A ρ := by
  induction n generalizing X w with
  | zero => exact absurd h nofun
  | succ n ih =>
    rw [run] at h
    split at h
    · exact absurd h nofun
    · rename_i φ' hdone
      obtain rfl := Except.ok.inj h
      exact (holds_done_iff hdone).mp hφ
    · rename_i w' hnext
      exact holds_of_next hw hnext (ih (hw.next hnext).2 h)

variable {M : Model V} {D : SortName → Prop} {X : Variable → Prop} {ρ : Variable → V}
  {w w' : Worklist}

/-- The values `ρ` of the variables in use, which have their sorts, solve a worklist. -/
structure Solved (M : Model V) (Q : Symbol → Prop) (D : SortName → Prop) (X : Variable → Prop)
    (ρ : Variable → V) (w : Worklist) : Prop where
  good : w.Good X Q
  sorts : ∀ v, X v → D v.sort
  respects : M.Respects X ρ
  holds : w.Holds M.toAlgebra ρ

/-- `ρ'` gives values to the variables of `X'` without changing those of the variables of `X`. -/
structure Grown (X X' : Variable → Prop) (names names' : FreshNames) (ρ ρ' : Variable → V) :
    Prop where
  scope : Extends X X' names names'
  kept : ∀ v, v.name ∈ names.taken → ρ' v = ρ v

theorem Grown.trans {X' X'' : Variable → Prop} {names names' names'' : FreshNames}
    {ρ' ρ'' : Variable → V} (h : Grown X X' names names' ρ ρ')
    (h' : Grown X' X'' names' names'' ρ' ρ'') : Grown X X'' names names'' ρ ρ'' where
  scope := h.scope.trans h'.scope
  kept v hv := (h'.kept v (h.scope.taken _ hv)).trans (h.kept v hv)

theorem Solved.next (hM : M.Lossless voc Q D) (hfolds : M.Folds mode)
    (hw : w.Solved M Q D X ρ) (h : w.next voc Unifier.structural mode = .ok (.inl w')) :
    ∃ X' ρ', w'.Solved M Q D X' ρ' ∧ Grown X X' w.fresh w'.fresh ρ ρ' := by
  obtain ⟨hextends, hgood⟩ := hw.good.next h
  obtain ⟨ρ', hkept, hrespects, hholds⟩ :=
    exists_of_next hM hfolds hw.good hw.sorts hw.respects hw.holds h
  exact ⟨_, ρ', ⟨hgood, sorts_of_next hM hw.good hw.sorts h, hrespects, hholds⟩, hextends, hkept⟩

/-- What every step keeps, with suitable values for the new variables, is true of the last worklist
    of a run. -/
theorem exists_last {P : (Variable → Prop) → (Variable → V) → Worklist → Prop}
    (hgood : ∀ {X ρ w}, P X ρ w → w.Good X Q)
    (hnext : ∀ {X ρ w w'}, P X ρ w → w.next voc Unifier.structural mode = .ok (.inl w') →
      ∃ X' ρ', P X' ρ' w' ∧ Grown X X' w.fresh w'.fresh ρ ρ') (hw : P X ρ w) (n : Nat) :
    w.run voc Unifier.structural mode n = .error .exhausted ∨
      ∃ X' ρ' w', P X' ρ' w' ∧ Grown X X' w.fresh w'.fresh ρ ρ' ∧
        ((∃ φ, w.run voc Unifier.structural mode n = .ok φ ∧
            w'.next voc Unifier.structural mode = .ok (.inr φ)) ∨
          ∃ r, w.run voc Unifier.structural mode n = .error (.refuted r) ∧
            w'.next voc Unifier.structural mode = .error r) := by
  induction n generalizing X ρ w with
  | zero => exact Or.inl rfl
  | succ n ih =>
    have hself : Grown X X w.fresh w.fresh ρ ρ := ⟨Extends.refl (hgood hw).names, fun _ _ => rfl⟩
    rw [run]
    cases hstep : w.next voc Unifier.structural mode with
    | error r => exact Or.inr ⟨X, ρ, w, hw, hself, Or.inr ⟨r, rfl, hstep⟩⟩
    | ok result =>
      cases result with
      | inr φ => exact Or.inr ⟨X, ρ, w, hw, hself, Or.inl ⟨φ, rfl, hstep⟩⟩
      | inl w₁ =>
        obtain ⟨X₁, ρ₁, hw₁, hgrown⟩ := hnext hw hstep
        refine (ih hw₁).imp_right fun ⟨X', ρ', w', hw', hgrown', hend⟩ => ?_
        exact ⟨X', ρ', w', hw', hgrown.trans hgrown', hend⟩

/-! ## What rewriting leaves -/

/-- `p` holds of all subterms of the bindings and of the equalities that were looked at. -/
structure Settled (p : Term → Prop) (w : Worklist) : Prop where
  bindings : ∀ entry ∈ w.bindings.entries, p (.var entry.1) ∧ entry.2.All p
  visited : ∀ e ∈ w.visited, e.All p

/-- What holds of all subterms of rewritten terms stays true of what is settled. -/
theorem settled_next {p : Term → Prop} (hp : Term.Plain p) (hvar : ∀ v, p (.var v))
    (happ : ∀ f xs s ys, p (.app f xs s) → p (voc.apply f ys))
    (hrewrite : ∀ facts f t, (Term.rewrite voc facts f t).All p) (hw : w.Good X Q)
    (hsettled : w.Settled p) (h : w.next voc Unifier.structural mode = .ok (.inl w')) :
    w'.Settled p := by
  rcases next_inl_cases h with ⟨_, hended⟩ | ⟨e, rest, hpending, hvisited⟩
  · cases hended with
    | again => exact ⟨hsettled.bindings, by simp⟩
    | absorbed a ha => exact ⟨hsettled.bindings, by simp⟩
  · obtain ⟨step, hstep, happly⟩ := step_of_visit hvisited
    have hsteps := Step.each_of_classify hp ⟨hrewrite _ _ _, hrewrite _ _ _⟩ hstep
      (fun _ _ _ v _ => hvar v) happ
    have hfits := (hw.step_spec hpending hstep).1
    cases step with
    | bind v t =>
      obtain ⟨s, hs, rfl⟩ := apply_bind happly
      refine ⟨?_, hsettled.visited⟩
      exact Substitution.forall_mem_compose hw.resolved hfits.1 hfits.2.1 hfits.2.2 hs hsteps
        fun old hold => ⟨(hsettled.bindings old hold).1, hrewrite _ _ _⟩
    | keep e' =>
      obtain rfl := Except.ok.inj happly
      exact ⟨hsettled.bindings, List.forall_mem_append.mpr
        ⟨hsettled.visited, List.forall_mem_singleton.mpr hsteps⟩⟩
    | _ =>
      obtain rfl := Except.ok.inj happly
      exact ⟨hsettled.bindings, hsettled.visited⟩

end Worklist

/-! ## Simplification -/

/-- The models that the subsort order and the signatures of the symbols of `Q` describe. -/
structure Model.Standard (M : Model V) (voc : Vocabulary) (Q : Symbol → Prop)
    (mode : SimplifyMode) : Prop where
  ordered : M.Ordered voc.lattice
  tight : M.Tight voc Q
  folds : M.Folds mode

namespace Formula

variable {Q : Symbol → Prop} {voc : Vocabulary} {mode : SimplifyMode}

/-- A false formula is refuted, a true one is simple, and for every other one there is a run. -/
theorem simplify_cases (voc : Vocabulary) (mode : SimplifyMode) (φ : Formula) :
    (∃ w, φ = .falsified w ∧
      φ.simplify voc Unifier.structural mode = .error (.refuted (.ofEquality w))) ∨
    (φ.isTrue = true ∧ φ.simplify voc Unifier.structural mode = .ok φ) ∨
    ∃ s es ds, φ = .all s es ds ∧ φ.simplify voc Unifier.structural mode =
      (Worklist.ofFormula φ).run voc Unifier.structural mode φ.stepBound := by
  cases φ with
  | falsified w => exact Or.inl ⟨w, rfl, rfl⟩
  | all s es ds =>
    rw [simplify]
    · split
      · rename_i htrue
        exact Or.inr (Or.inl ⟨htrue, rfl⟩)
      · exact Or.inr (Or.inr ⟨s, es, ds, rfl, rfl⟩)
    · nofun

/-- A solution of a formula solves the worklist that simplification begins with. -/
theorem solved_ofFormula {M : Model V} {D : SortName → Prop} {φ : Formula}
    (hφ : φ.Within (fun v => D v.sort) Q) {ρ : Variable → V}
    (hρ : M.Respects (· ∈ φ.occurrences) ρ) (hholds : φ.Holds M.toAlgebra ρ) :
    (Worklist.ofFormula φ).Solved M Q D (· ∈ φ.occurrences) ρ where
  good := Worklist.good_ofFormula hφ
  sorts := Within.occurrences hφ
  respects := hρ
  holds := by
    cases φ with
    | falsified w => exact absurd hholds (not_holds_falsified _ _ w)
    | all s es ds => exact (Worklist.holds_ofFormula_iff s es ds).mpr hholds

/-- A formula that is true as it is mentions no term. -/
theorem each_of_isTrue {p : Term → Prop} {φ : Formula} (h : φ.isTrue = true) : φ.Each p := by
  rw [eq_top_of_isTrue h]
  exact everywhere_top nofun

/-- What every step keeps is true of the worklist that gives the result. -/
theorem exists_done {P : (Variable → Prop) → (Variable → V) → Worklist → Prop}
    (hgood : ∀ {X ρ w}, P X ρ w → w.Good X Q)
    (hnext : ∀ {X ρ w w'}, P X ρ w → w.next voc Unifier.structural mode = .ok (.inl w') →
      ∃ X' ρ', P X' ρ' w' ∧ Worklist.Grown X X' w.fresh w'.fresh ρ ρ') {φ S : Formula}
    {X : Variable → Prop} {ρ : Variable → V} (hφ : P X ρ (Worklist.ofFormula φ))
    (h : φ.simplify voc Unifier.structural mode = .ok S) :
    (φ.isTrue = true ∧ S = φ) ∨ ∃ X' ρ' w, P X' ρ' w ∧
      Worklist.Grown X X' (Worklist.ofFormula φ).fresh w.fresh ρ ρ' ∧
      w.next voc Unifier.structural mode = .ok (.inr S) := by
  rcases φ.simplify_cases voc mode with ⟨w, _, herror⟩ | ⟨htrue, hself⟩ | ⟨s, es, ds, _, hrun⟩
  · rw [h] at herror
    exact absurd herror nofun
  · rw [h] at hself
    exact Or.inl ⟨htrue, Except.ok.inj hself⟩
  · rw [h] at hrun
    rcases Worklist.exists_last hgood hnext hφ φ.stepBound with
      hexhausted | ⟨X', ρ', w, hw, hgrown, ⟨S', hS', hdone⟩ | ⟨r, hr, _⟩⟩
    · rw [hexhausted] at hrun
      exact absurd hrun nofun
    · rw [hS'] at hrun
      obtain rfl := Except.ok.inj hrun
      exact Or.inr ⟨X', ρ', w, hw, hgrown, hdone⟩
    · rw [hr] at hrun
      exact absurd hrun nofun

section Static

variable {X : Variable → Prop} {D : SortName → Prop} {φ S : Formula}

/-- Simplification brings in new variables only, of sorts of `D`. -/
theorem within_simplify {M : Model V} (hM : M.Lossless voc Q D)
    (hφ : φ.Within (fun v => D v.sort) Q) (h : φ.simplify voc Unifier.structural mode = .ok S) :
    S.Within (fun v => D v.sort ∧ (v ∈ φ.occurrences ∨ v.isFresh = true)) Q := by
  rcases exists_done (Q := Q) (ρ := fun _ => ())
    (P := fun X _ w => w.Good X Q ∧ ∀ v, X v → D v.sort) And.left
    (fun {X ρ w w'} hw hnext => ⟨_, ρ, ⟨(hw.1.next hnext).2,
      Worklist.sorts_of_next hM hw.1 hw.2 hnext⟩, (hw.1.next hnext).1, fun _ _ => rfl⟩)
    ⟨Worklist.good_ofFormula hφ, Within.occurrences hφ⟩ h with
    ⟨htrue, rfl⟩ | ⟨X, _, w, hw, hgrown, hdone⟩
  · exact each_of_isTrue htrue
  · refine within_occurrences (hw.1.done hdone) fun v hv => ?_
    have hX := Within.occurrences (hw.1.done hdone) v hv
    exact ⟨hw.2 v hX, (hgrown.scope.new v hX).imp_right And.right⟩

/-- The bindings of the result are resolved. -/
theorem resolved_simplify (hφ : φ.Within X Q)
    (h : φ.simplify voc Unifier.structural mode = .ok S) : S.bindings.Resolved := by
  rcases exists_done (Q := Q) (ρ := fun _ => ()) (P := fun X _ w => w.Good X Q) (fun hw => hw)
    (fun {X ρ w w'} hw hnext => ⟨_, ρ, (hw.next hnext).2, (hw.next hnext).1, fun _ _ => rfl⟩)
    (Worklist.good_ofFormula hφ) h with ⟨htrue, rfl⟩ | ⟨X, _, w, hw, _, hdone⟩
  · rw [eq_top_of_isTrue htrue]
    exact Substitution.resolved_empty
  · obtain ⟨_, a, _, _, rfl⟩ := Worklist.next_inr_cases hdone
    exact hw.resolved

/-- What holds of all subterms of rewritten terms holds of those of the result. -/
theorem each_simplify {p : Term → Prop} (hp : Term.Plain p) (hvar : ∀ v, p (.var v))
    (happ : ∀ f xs s ys, p (.app f xs s) → p (voc.apply f ys))
    (hrewrite : ∀ facts f t, (Term.rewrite voc facts f t).All p) (hφ : φ.Within X Q)
    (h : φ.simplify voc Unifier.structural mode = .ok S) : S.Each p := by
  rcases exists_done (Q := Q) (ρ := fun _ => ())
    (P := fun X _ w => w.Good X Q ∧ w.Settled p) And.left
    (fun {X ρ w w'} hw hnext => ⟨_, ρ, ⟨(hw.1.next hnext).2,
      Worklist.settled_next hp hvar happ hrewrite hw.1 hw.2 hnext⟩, (hw.1.next hnext).1,
      fun _ _ => rfl⟩)
    ⟨Worklist.good_ofFormula hφ, ⟨nofun, nofun⟩⟩ h with ⟨htrue, rfl⟩ | ⟨X, _, w, hw, _, hdone⟩
  · exact each_of_isTrue htrue
  · exact Worklist.each_done hp.bool hw.2.bindings hw.2.visited hw.1.each.disjunctions
      (fun t _ => hrewrite _ _ t) hdone

/-- Every list in the result is flat. -/
theorem flat_simplify (hφ : φ.Within X Q) (h : φ.simplify voc Unifier.structural mode = .ok S) :
    S.Each Term.FlatHead :=
  each_simplify Term.plain_flatHead (fun _ => trivial) (fun _ _ _ _ _ => trivial)
    (fun facts f t => Term.flat_evaluate voc facts (t.substitute f)) hφ h

end Static

/-- What solves the result solves the formula. -/
theorem holds_of_simplify {A : Algebra V} {ρ : Variable → V} {X : Variable → Prop} {φ S : Formula}
    (hφ : φ.Within X Q) (h : φ.simplify voc Unifier.structural mode = .ok S) (hS : S.Holds A ρ) :
    φ.Holds A ρ := by
  rcases φ.simplify_cases voc mode with ⟨w, _, herror⟩ | ⟨_, hself⟩ | ⟨s, es, ds, heq, hrun⟩
  · rw [h] at herror
    exact absurd herror nofun
  · rw [h] at hself
    exact Except.ok.inj hself ▸ hS
  · rw [h] at hrun
    have hstart := Worklist.holds_of_run (Worklist.good_ofFormula hφ) hrun.symm hS
    subst heq
    exact (Worklist.holds_ofFormula_iff s es ds).mp hstart

/-- **Simplification preserves solutions.** What solves the result solves the formula. In a standard
    model, what solves the formula is extended, by values of the right sorts for new variables, to a
    solution of the result. -/
theorem solutions_of_simplify (hvoc : voc.Built) (hacyclic : voc.lattice.Acyclic)
    (hQ : ∀ f, Q f → voc.Knows f) {φ S : Formula}
    (hφ : φ.Within (fun v => voc.lattice.Known v.sort) Q)
    (h : φ.simplify voc Unifier.structural mode = .ok S) (M : Model V) :
    (∀ ρ, S.Holds M.toAlgebra ρ → φ.Holds M.toAlgebra ρ) ∧
      (M.Standard voc Q mode → ∀ ρ, M.Respects (· ∈ φ.occurrences) ρ → φ.Holds M.toAlgebra ρ →
        ∃ ρ' : Variable → V, (∀ v ∈ φ.occurrences, ρ' v = ρ v) ∧
          M.Respects (· ∈ S.occurrences) ρ' ∧ S.Holds M.toAlgebra ρ') := by
  refine ⟨fun ρ hS => ?_, fun hM ρ hρ hholds => ?_⟩
  · exact holds_of_simplify hφ h hS
  · have hlossless := hM.ordered.lossless hvoc.closed hacyclic hM.tight hQ
    have hstart := solved_ofFormula hφ hρ hholds
    rcases exists_done Worklist.Solved.good (fun hw hnext => hw.next hlossless hM.folds hnext)
      hstart h with ⟨_, rfl⟩ | ⟨X, ρ', w, hw, hgrown, hdone⟩
    · exact ⟨ρ, fun _ _ => rfl, hρ, hholds⟩
    · refine ⟨ρ', fun v hv => hgrown.kept v (hstart.good.names v hv), fun v hv => ?_,
        (Worklist.holds_done_iff hdone).mpr hw.holds⟩
      exact hw.respects v (Within.occurrences (hw.good.done hdone) v hv)

end Formula

/-! ### An overloaded constructor

An application of a constructor with two signatures is bound to a variable of the smaller result, so
its argument is narrowed. This is right where the values of applications have no other sorts than
their arguments give them, and it loses solutions where they do. -/

namespace Overloaded

/-- Arguments of sort `B` give terms of sort `S`, other arguments of sort `A` terms of sort `T`. -/
def symbol : Symbol := ⟨"f", .constructor, [⟨[⟨"B"⟩], ⟨"S"⟩⟩, ⟨[⟨"A"⟩], ⟨"T"⟩⟩]⟩

/-- `B` and `C` lie below `A`, and `S` lies below `T`. -/
def vocabulary : Vocabulary :=
  (((Vocabulary.initial.addSubsort ⟨"A"⟩ ⟨"B"⟩).addSubsort ⟨"A"⟩ ⟨"C"⟩).addSubsort ⟨"T"⟩
    ⟨"S"⟩).declareSymbol symbol

def x : Variable := ⟨"X", ⟨"S"⟩⟩

def y : Variable := ⟨"Y", ⟨"A"⟩⟩

def z : Variable := ⟨"_Y", ⟨"B"⟩⟩

/-- `X = f(Y)` -/
def formula : Formula := .all .empty [⟨.var x, vocabulary.apply symbol [.var y]⟩] []

/-- `X = f(_Y)` and `Y = _Y` -/
def narrowed : Formula := .all ⟨[(x, .app symbol [.var z] ⟨"S"⟩), (y, .var z)]⟩ [] []

theorem simplify_formula :
    formula.simplify vocabulary Unifier.structural .default = .ok narrowed := by
  cbv

theorem built : vocabulary.Built :=
  .declareSymbol _ (.addSubsort _ _ (.addSubsort _ _ (.addSubsort _ _ .initial)))

theorem acyclic : vocabulary.lattice.Acyclic := SortLattice.acyclic_of_entries (by decide)

theorem knows : ∀ f, f = symbol → vocabulary.Knows f := by
  rintro f rfl sig hsig
  simp only [symbol, List.mem_cons, List.not_mem_nil, or_false] at hsig
  rcases hsig with rfl | rfl
  · exact ⟨List.forall_mem_singleton.mpr (Or.inr ⟨_, rfl⟩), Or.inr ⟨_, rfl⟩⟩
  · exact ⟨List.forall_mem_singleton.mpr (Or.inr ⟨_, rfl⟩), Or.inr ⟨_, rfl⟩⟩

theorem within : formula.Within (fun v => vocabulary.lattice.Known v.sort) (· = symbol) := by
  refine (Formula.everywhere_all_iff _ _ _).mpr ⟨nofun, List.forall_mem_singleton.mpr ⟨?_, ?_⟩, nofun⟩
  · exact Or.inr ⟨_, rfl⟩
  · rw [Vocabulary.apply, Term.all_app_iff]
    exact ⟨rfl, List.forall_mem_singleton.mpr (Or.inr ⟨_, rfl⟩)⟩

/-- Values of applications have the sorts that their arguments give them. -/
noncomputable def model : Model Value :=
  Value.model vocabulary (fun _ => symbol) (fun _ _ => .nil) (fun _ _ => .nil)

theorem standard : model.Standard vocabulary (· = symbol) .default where
  ordered := Value.ordered_model built.closed acyclic
  tight := Value.tight_model fun _ hf _ => hf.symm
  folds := nofun

/-- `Y` has a value of sort `B`. -/
def solution (v : Variable) : Value := if v = x then .con "f" [.atom z] else .atom z

theorem occurrences_formula {v : Variable} (hv : v ∈ formula.occurrences) : v = x ∨ v = y := by
  simpa [formula, Formula.occurrences, Formula.occurrencesIn, Substitution.occurrences,
    Substitution.empty, Equality.occurrences, Vocabulary.apply, Term.occurrences,
    Term.allOccurrences] using hv

theorem extends_solution : formula.simplify vocabulary Unifier.structural .default = .ok narrowed ∧
    model.Respects (· ∈ formula.occurrences) solution ∧ formula.Holds model.toAlgebra solution ∧
    ∃ ρ : Variable → Value, (∀ v ∈ formula.occurrences, ρ v = solution v) ∧
      model.Respects (· ∈ narrowed.occurrences) ρ ∧ narrowed.Holds model.toAlgebra ρ := by
  have hrespects : model.Respects (· ∈ formula.occurrences) solution := by
    intro v hv
    rcases occurrences_formula hv with rfl | rfl
    · rfl
    · rfl
  have hholds : formula.Holds model.toAlgebra solution :=
    (Formula.holds_all_iff _ _ _ _ _).mpr ⟨nofun, List.forall_mem_singleton.mpr rfl, nofun⟩
  exact ⟨simplify_formula, hrespects, hholds, (Formula.solutions_of_simplify built acyclic knows
    within simplify_formula model).2 standard solution hrespects hholds⟩

/-- Values of applications have sort `S` whatever the arguments are. -/
noncomputable def wideModel : Model Value :=
  Value.model vocabulary (fun _ => ⟨"f", .constructor, [⟨[⟨"A"⟩], ⟨"S"⟩⟩]⟩) (fun _ _ => .nil)
    (fun _ _ => .nil)

/-- `Y` has a value of sort `A` only. -/
def wideSolution (v : Variable) : Value := if v = x then .con "f" [.atom y] else .atom y

theorem loses_solution : formula.simplify vocabulary Unifier.structural .default = .ok narrowed ∧
    wideModel.Ordered vocabulary.lattice ∧ wideModel.Folds .default ∧
    wideModel.Respects (· ∈ formula.occurrences) wideSolution ∧
    formula.Holds wideModel.toAlgebra wideSolution ∧
    ¬∃ ρ : Variable → Value, (∀ v ∈ formula.occurrences, ρ v = wideSolution v) ∧
      wideModel.Respects (· ∈ narrowed.occurrences) ρ ∧ narrowed.Holds wideModel.toAlgebra ρ := by
  refine ⟨simplify_formula, Value.ordered_model built.closed acyclic, nofun, fun v hv => ?_,
    (Formula.holds_all_iff _ _ _ _ _).mpr ⟨nofun, List.forall_mem_singleton.mpr rfl, nofun⟩, ?_⟩
  · rcases occurrences_formula hv with rfl | rfl
    · rfl
    · rfl
  · rintro ⟨ρ, hkept, hrespects, hholds⟩
    have hy : ρ y = ρ z := ((Formula.holds_all_iff _ _ _ _ _).mp hholds).1 (y, .var z)
      (List.mem_cons_of_mem _ (List.mem_cons_self ..))
    have hkeptY : ρ y = .atom y := hkept y (by decide)
    have hz := hrespects z (by decide)
    rw [← hy, hkeptY] at hz
    change vocabulary.lattice.isSubsortEq z.sort y.sort = true at hz
    exact absurd hz (by decide)

end Overloaded

end Entail
