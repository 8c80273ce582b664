import Entail.Proofs.Applied
import Entail.Proofs.NormalForm

set_option autoImplicit false

/-! # What every formula keeps

A property that holds of the empty and the false formulas, that adding keeps, that is not lost with
some of the parts, and that the results of simplification have, holds of every formula that is put
together by the operations of this library, in any order. One such property is that formulas are
tidy: the last pass of simplification looked at each equality that is left, and the disjunctions
that are left were added again. A false formula has no parts, and nothing that is added to it
changes it. -/

namespace Entail

/-! ## Any sequence of operations -/

/-- What can be added to a formula. -/
inductive Addition where
  | equality (e : Equality)
  | terms (lhs rhs : Term)
  | conditions (ts : List Term)
  | substitution (s : Substitution)
  | binding (v : Variable) (t : Term)
  | disjunction (alternatives : List Formula)
  | formula (φ : Formula)

/-- The formulas that are part of an addition. -/
def Addition.formulas : Addition → List Formula
  | .disjunction alternatives => alternatives
  | .formula φ => [φ]
  | _ => []

/-- What can be done to a formula without another one. -/
inductive Change where
  | minus (e : Equality)
  | removeBindings (vars : VarSet)
  | orient (voc : Vocabulary) (facts : Facts) (vars : VarSet)
  | resolve (names : List String)
  | rewrite (voc : Vocabulary) (facts : Facts) (f : Variable → Option Term)

namespace Formula

variable {φ ψ : Formula}

def add (φ : Formula) : Addition → Formula
  | .equality e => φ.addEquality e
  | .terms lhs rhs => φ.addTerms lhs rhs
  | .conditions ts => φ.addConditions ts
  | .substitution s => φ.addSubstitution s
  | .binding v t => φ.addBinding v t
  | .disjunction alternatives => φ.addDisjunction (Disjunction.ofList alternatives)
  | .formula ψ => φ.addFormula ψ

def change (φ : Formula) : Change → Formula
  | .minus e => φ.minus e
  | .removeBindings vars => φ.removeBindings vars
  | .orient voc facts vars => φ.orient voc facts vars
  | .resolve names => φ.resolve names
  | .rewrite voc facts f => φ.rewrite voc facts f

/-- The formulas that the operations give, in any order: the empty, the false and the listed ones,
    what is added to them, changed about them or taken out of them, and the results of simplifying
    them with any vocabulary, unifier and mode, also of runs whose length is not bounded
    beforehand. -/
inductive Built : Formula → Prop
  | top : Built top
  | falsified (w : Equality) : Built (.falsified w)
  | ofEqualities (es : List Equality) : Built (ofEqualities es)
  | add {φ : Formula} {a : Addition} (hφ : Built φ) (ha : ∀ ψ ∈ a.formulas, Built ψ) :
      Built (φ.add a)
  | change {φ : Formula} (c : Change) (hφ : Built φ) : Built (φ.change c)
  | without {φ ψ : Formula} (hφ : Built φ) (hψ : Built ψ) : Built (φ.without ψ)
  | alternative {φ ψ : Formula} {d : Disjunction} (hφ : Built φ) (hd : d ∈ φ.disjunctions)
      (hψ : ψ ∈ d) : Built ψ
  | normal {φ ψ : Formula} (hφ : Built φ) (hψ : ψ ∈ φ.toDnf) : Built ψ
  | simplified {φ S : Formula} {voc : Vocabulary} {unifier : Unifier} {mode : SimplifyMode}
      (hφ : Built φ) (hS : φ.simplify voc unifier mode = .ok S) : Built S
  | simplifiedWithin {φ S : Formula} {voc : Vocabulary} {unifier : Unifier} {mode : SimplifyMode}
      {steps : Nat} (hφ : Built φ) (hS : φ.simplifyWithin voc unifier mode steps = .ok S) :
      Built S

/-! ## Properties that the operations keep -/

theorem subset_minus (s : Substitution) (v : Variable) :
    ∀ entry ∈ (s.minus v).entries, entry ∈ s.entries := fun _ => List.mem_of_mem_filter

theorem subset_unbind (s : Substitution) (lhs rhs : Term) :
    ∀ entry ∈ (unbind s lhs rhs).entries, entry ∈ s.entries := by
  unfold unbind
  split
  · split
    · exact subset_minus s _
    · exact fun _ => id
  · exact fun _ => id

theorem subset_minusAll (s : Substitution) (vars : VarSet) :
    ∀ entry ∈ (s.minusAll vars).entries, entry ∈ s.entries := by
  unfold Substitution.minusAll
  induction vars generalizing s with
  | nil => exact fun _ => id
  | cons v vars ih => exact fun entry hentry => subset_minus s v entry (ih (s.minus v) entry hentry)

variable {P : Formula → Prop}

/-- What has to be shown of a property to know that it holds of all formulas. -/
structure Kept (P : Formula → Prop) : Prop where
  top : P top
  falsified (w : Equality) : P (.falsified w)
  subset {s s' : Substitution} {es es' : List Equality} {ds ds' : List Disjunction}
    (h : P (.all s es ds)) (hs : ∀ entry ∈ s'.entries, entry ∈ s.entries) (hes : es' ⊆ es)
    (hds : ds' ⊆ ds) : P (.all s' es' ds')
  alternative {φ ψ : Formula} {d : Disjunction} (hφ : P φ) (hd : d ∈ φ.disjunctions)
    (hψ : ψ ∈ d) : P ψ
  addEquality {φ : Formula} (hφ : P φ) (e : Equality) : P (φ.addEquality e)
  addBinding {φ : Formula} (hφ : P φ) (v : Variable) (t : Term) : P (φ.addBinding v t)
  addDisjunction {φ : Formula} (hφ : P φ) {ψs : List Formula} (hψs : ∀ ψ ∈ ψs, P ψ) :
    P (φ.addDisjunction (Disjunction.ofList ψs))
  merge {ψ φ : Formula} (hψ : P ψ) (hφ : P φ) : P (merge ψ φ)
  addRewritten {φ : Formula} (hφ : P φ) (voc : Vocabulary) (facts : Facts)
    (f : Variable → Option Term) (ds : List Disjunction) :
    P (φ.addDisjunctions (ds.map (Disjunction.rewrite voc facts f)))
  simplifyWithin {φ S : Formula} {voc : Vocabulary} {unifier : Unifier} {mode : SimplifyMode}
    {steps : Nat} (h : φ.simplifyWithin voc unifier mode steps = .ok S) : P S

namespace Kept

theorem addEqualities (hP : Kept P) (hφ : P φ) (es : List Equality) : P (φ.addEqualities es) := by
  unfold Formula.addEqualities
  induction es generalizing φ with
  | nil => exact hφ
  | cons e es ih => exact ih (hP.addEquality hφ e)

theorem addConditions (hP : Kept P) (hφ : P φ) (ts : List Term) : P (φ.addConditions ts) := by
  unfold Formula.addConditions
  induction ts generalizing φ with
  | nil => exact hφ
  | cons t ts ih => exact ih (hP.addEquality hφ ⟨t, .bool true⟩)

theorem addBindings (hP : Kept P) (hφ : P φ) (entries : List (Variable × Term)) :
    P (φ.addBindings entries) := by
  unfold Formula.addBindings
  induction entries generalizing φ with
  | nil => exact hφ
  | cons entry entries ih => exact ih (hP.addBinding hφ entry.1 entry.2)

theorem add (hP : Kept P) (hφ : P φ) {a : Addition} (ha : ∀ ψ ∈ a.formulas, P ψ) :
    P (φ.add a) := by
  cases a with
  | equality e => exact hP.addEquality hφ e
  | terms lhs rhs => exact hP.addEquality hφ ⟨lhs, rhs⟩
  | conditions ts => exact hP.addConditions hφ ts
  | substitution s => exact hP.addEqualities hφ s.equalities
  | binding v t => exact hP.addBinding hφ v t
  | disjunction alternatives => exact hP.addDisjunction hφ ha
  | formula ψ => exact hP.merge (ha ψ (List.mem_singleton.mpr rfl)) hφ

/-! ### Taking parts away and turning bindings around -/

theorem minus (hP : Kept P) (hφ : P φ) (e : Equality) : P (φ.minus e) := by
  cases φ with
  | falsified w => exact hφ
  | all s es ds =>
    refine hP.subset hφ (fun entry hentry => ?_) (fun e' he' => ?_) (List.Subset.refl ds)
    · exact subset_unbind s _ _ entry (subset_unbind _ _ _ entry hentry)
    · exact List.mem_of_mem_filter (List.mem_of_mem_filter he')

theorem removeBindings (hP : Kept P) (hφ : P φ) (vars : VarSet) : P (φ.removeBindings vars) := by
  cases φ with
  | falsified w => exact hφ
  | all s es ds =>
    exact hP.subset hφ (subset_minusAll s vars) (List.Subset.refl es)
      (List.Subset.refl ds)

theorem without (hP : Kept P) (φ : Formula) (hψ : P ψ) : P (φ.without ψ) := by
  cases ψ with
  | falsified w => exact hψ
  | all s es ds =>
    exact hP.subset hψ (fun _ => List.mem_of_mem_filter) (List.filter_subset_self _)
      (List.filter_subset_self _)

theorem orient (hP : Kept P) (voc : Vocabulary) (facts : Facts) (hφ : P φ) (vars : VarSet) :
    P (φ.orient voc facts vars) := by
  cases φ with
  | falsified w => exact hφ
  | all s es ds =>
    unfold Formula.orient
    dsimp only
    split
    · exact hφ
    · exact hP.addRewritten (hP.addEqualities (hP.addBindings hP.top _) _) voc facts _ ds

theorem rewrite (hP : Kept P) (voc : Vocabulary) (facts : Facts) (f : Variable → Option Term)
    (φ : Formula) : P (φ.rewrite voc facts f) := by
  cases φ with
  | falsified w => exact hP.falsified w
  | all s es ds =>
    rw [Formula.rewrite, rewriteDisjunctions_eq]
    exact hP.addRewritten (hP.addEqualities hP.top _) voc facts f ds

theorem addResolved (hP : Kept P) (names : List String) (hφ : P φ) (t u : Term) :
    P (addResolved names t u φ) := by
  induction t using Term.ind generalizing u φ with
  | app f xs s ih =>
    have all (ys : List Term) : P (addResolvedAll names xs ys φ) := by
      induction xs generalizing ys with
      | nil => exact hφ
      | cons x xs ihxs =>
        rw [List.forall_mem_cons] at ih
        cases ys with
        | nil => exact hφ
        | cons y ys => exact ih.1 (ihxs ih.2 ys) y
    cases u with
    | app g ys s' =>
      rw [Formula.addResolved]
      split
      · exact all ys
      · exact hP.addEquality hφ _
    | _ => exact hP.addEquality hφ _
  | _ => cases u <;> exact hP.addEquality hφ _

theorem resolve (hP : Kept P) (hφ : P φ) (names : List String) : P (φ.resolve names) := by
  cases φ with
  | falsified w => exact hφ
  | all s es ds =>
    have start : P (.all s [] ds) :=
      hP.subset hφ (fun _ => id) (List.nil_subset es) (List.Subset.refl ds)
    unfold Formula.resolve
    dsimp only
    clear hφ
    induction es with
    | nil => exact start
    | cons e es ih => exact hP.addResolved names ih e.lhs e.rhs

theorem change (hP : Kept P) (hφ : P φ) (c : Change) : P (φ.change c) := by
  cases c with
  | minus e => exact hP.minus hφ e
  | removeBindings vars => exact hP.removeBindings hφ vars
  | orient voc facts vars => exact hP.orient voc facts hφ vars
  | resolve names => exact hP.resolve hφ names
  | rewrite voc facts f => exact hP.rewrite voc facts f φ

/-! ### Normal forms and results of simplification -/

theorem of_mem_toDnf (hP : Kept P) (hφ : P φ) : ∀ ψ ∈ φ.toDnf, P ψ := by
  induction φ using Formula.ind with
  | falsified w => exact List.forall_mem_singleton.mpr hφ
  | all s es ds ih =>
    exact forall_mem_toDnf (fun _ => hφ) (hP.addEqualities (hP.addBindings hP.top _) es)
      (fun d hd χ hχ => ih d hd χ hχ (hP.alternative hφ hd hχ)) fun _ _ hφ hψ => hP.merge hψ hφ

theorem simplify (hP : Kept P) {S : Formula} {voc : Vocabulary} {unifier : Unifier}
    {mode : SimplifyMode} (h : φ.simplify voc unifier mode = .ok S) : P S := by
  unfold Formula.simplify at h
  split at h
  · exact absurd h nofun
  · split at h
    · rename_i htrue
      obtain rfl := Except.ok.inj h
      rw [eq_top_of_isTrue htrue]
      exact hP.top
    · exact hP.simplifyWithin h

end Kept

theorem Built.of_kept (hP : Kept P) (h : Built φ) : P φ := by
  induction h with
  | top => exact hP.top
  | falsified w => exact hP.falsified w
  | ofEqualities es => exact hP.addEqualities hP.top es
  | add _ _ ih iha => exact hP.add ih iha
  | change c _ ih => exact hP.change ih c
  | without _ _ _ ih => exact hP.without _ ih
  | alternative _ hd hψ ih => exact hP.alternative ih hd hψ
  | normal _ hψ ih => exact hP.of_mem_toDnf ih _ hψ
  | simplified _ hS _ => exact hP.simplify hS
  | simplifiedWithin _ hS _ => exact hP.simplifyWithin hS

end Formula

/-! ## What a run of simplification has seen -/

/-- What is kept is open: this is looked at first. -/
theorem Step.truth_of_classify {voc : Vocabulary} {unifier : Unifier} {mode : SimplifyMode}
    {names : FreshNames} {e e' : Equality}
    (h : classify voc unifier mode names e = .ok (.keep e')) : e'.truth = .unknown := by
  obtain rfl := kept_of_classify h
  unfold classify at h
  split at h
  · exact absurd h nofun
  · exact absurd h nofun
  · assumption

namespace Worklist

variable {voc : Vocabulary} {unifier : Unifier} {mode : SimplifyMode} {w w' : Worklist}

/-- What holds of every equality that is looked at and kept holds of all that a pass has seen. -/
theorem forall_visited_run {P : Equality → Prop}
    (hP : ∀ (w : Worklist) e rest, Step.classify voc unifier mode w.fresh (w.looked voc e rest) =
      .ok (.keep (w.looked voc e rest)) → P (w.looked voc e rest))
    (hw : ∀ e ∈ w.visited, P e) (h : Relation.ReflTransGen (Leads voc unifier mode) w w') :
    ∀ e ∈ w'.visited, P e := by
  induction h with
  | refl => exact hw
  | @tail w w' _ hleads ih =>
    rcases next_inl_cases hleads with ⟨_, hended⟩ | ⟨e, rest, _, hvisited⟩
    · -- a pass that starts has seen nothing
      cases hended with
      | again => exact fun _ => by simp
      | absorbed => exact fun _ => by simp
    · obtain ⟨step, hstep, happly⟩ := step_of_visit hvisited
      cases step with
      | keep kept =>
        obtain rfl := Except.ok.inj happly
        obtain rfl := Step.kept_of_classify hstep
        exact List.forall_mem_append.mpr ⟨ih, List.forall_mem_singleton.mpr (hP w e rest hstep)⟩
      | bind v t =>
        obtain ⟨_, _, rfl⟩ := apply_bind happly
        exact ih
      | _ =>
        obtain rfl := Except.ok.inj happly
        exact ih

/-- All that the pass has seen and kept is open. -/
def Seen (w : Worklist) : Prop := ∀ e ∈ w.visited, e.IsOpen

theorem Seen.run (hw : w.Seen) (h : Relation.ReflTransGen (Leads voc unifier mode) w w') :
    w'.Seen :=
  forall_visited_run
    (fun _ _ _ hkeep => Equality.isOpen_of_truth (Step.truth_of_classify hkeep)) hw h

end Worklist

namespace Formula

variable {φ S : Formula} {voc : Vocabulary} {unifier : Unifier} {mode : SimplifyMode}

/-- The formula that is simplified need not be tidy. -/
theorem tidy_simplifyWithin {steps : Nat}
    (h : φ.simplifyWithin voc unifier mode steps = .ok S) : S.Tidy := by
  obtain ⟨last, hsteps, hlast⟩ := Worklist.exists_leads_of_run h
  have hstart : (Worklist.ofFormula φ).Seen := fun _ => nofun
  have hseen := hstart.run hsteps
  obtain ⟨_, a, habsorb, _, rfl⟩ := Worklist.next_inr_cases hlast
  have htidy := Worklist.tidy_absorb habsorb
  exact (tidy_all_iff _ _ _).mpr ⟨fun e he => hseen e (Sorted.mem_ofListLast he),
    fun d hd => htidy d (Sorted.mem_dedup (Sorted.mem_ofListLast hd))⟩

end Formula

/-! ## All formulas are tidy -/

namespace Formula

variable {φ : Formula}

theorem kept_tidy : Kept Tidy where
  top := tidy_top
  falsified := .falsified
  subset h _ hes hds := tidy_of_subset h hes hds
  alternative hφ hd hψ := (hφ.alternatives _ hd).2 _ hψ
  addEquality := grows_tidy.addEquality
  addBinding := tidy_addBinding
  addDisjunction := grows_tidy.addDisjunction
  merge := grows_tidy.merge
  addRewritten hφ voc facts f ds :=
    grows_tidy.addDisjunctions hφ (grows_tidy.rewrites voc facts f ds)
  simplifyWithin := tidy_simplifyWithin

theorem Built.tidy (h : Built φ) : φ.Tidy := h.of_kept kept_tidy

/-- A false formula stays as it is. Several equalities and disjunctions are added as by merging a
    formula that has no other parts. -/
theorem add_falsified (w : Equality) (a : Addition) : (falsified w).add a = .falsified w := by
  cases a with
  | equality e => exact addEquality_falsified w e
  | terms lhs rhs => exact addEquality_falsified w ⟨lhs, rhs⟩
  | conditions ts =>
    unfold add addConditions
    induction ts with
    | nil => rfl
    | cons t ts ih => simpa [addTerms] using ih
  | substitution s => exact merge_falsified (.all .empty s.equalities []) w
  | binding v t => exact addBinding_falsified w v t
  | disjunction alternatives =>
    exact merge_falsified (.all .empty [] [Disjunction.ofList alternatives]) w
  | formula ψ => exact merge_falsified ψ w

/-- **What every formula keeps.** A formula that is built by the operations is tidy; if it is false
    it has no parts and every addition leaves it as it is; and it states no equality between an
    empty list and a list with elements. -/
theorem representation_invariant (h : Built φ) :
    φ.Tidy ∧
      (φ.isFalse = true → φ.bindings = .empty ∧ φ.equalities = [] ∧ φ.disjunctions = [] ∧
        ∀ a : Addition, φ.add a = φ) ∧
      ∀ e ∈ φ.equalities, e.isEmptyVsNonEmptyList = false := by
  refine ⟨h.tidy, fun hfalse => ?_, fun e he => ?_⟩
  · obtain ⟨w, rfl⟩ := (isFalse_iff φ).mp hfalse
    exact ⟨rfl, rfl, rfl, add_falsified w⟩
  · cases φ with
    | falsified w => exact absurd he List.not_mem_nil
    | all s es ds => exact (((tidy_all_iff s es ds).mp h.tidy).1 e he).isEmptyVsNonEmptyList_eq

end Formula

/-! ### The chain of bindings, and a variable that is bound twice -/

namespace Chain

open Formula

theorem built_formula : Built formula := by
  have hformula : formula = ((ofEqualities [⟨.var x, .var y⟩, ⟨.var y, .int 1⟩]).add
      (.disjunction [.ofEqualities [⟨.var z, .var y⟩], .ofEqualities [⟨.var z, .int 2⟩]])) := by
    cbv
  rw [hformula]
  refine .add (.ofEqualities _) fun ψ hψ => ?_
  rcases List.mem_pair.mp hψ with rfl | rfl
  · exact .ofEqualities _
  · exact .ofEqualities _

/-- `X = 1` and then `X = 2` -/
def twice : Formula := (top.add (.binding x (.int 1))).add (.binding x (.int 2))

theorem representation_simple : simple.Tidy ∧
    twice.bindings = .empty ∧ ∀ a : Addition, twice.add a = twice := by
  obtain ⟨htidy, _⟩ := representation_invariant (.simplified built_formula simplify_formula)
  have hbuilt : Built twice := .add (.add .top fun _ => nofun) fun _ => nofun
  obtain ⟨hnone, _, _, hadd⟩ := (representation_invariant hbuilt).2.1 rfl
  exact ⟨htidy, hnone, hadd⟩

end Chain

end Entail
