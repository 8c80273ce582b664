import Entail.Proofs.Solutions
import Entail.Proofs.Tidy
import Mathlib.Logic.Relation

set_option autoImplicit false

/-! # Bindings are applied everywhere

Whatever the unifier, a pass keeps only equalities without bound variables as long as it eliminates
nothing, and the disjunctions of a result were rewritten with its bindings. So no bound variable is
left in a result. The equality that gives a binding was rewritten with the earlier ones, which is
why the new binding can always be composed with them. -/

namespace Entail

/-! ## Deciding about an equality, whatever the unifier -/

namespace Step

variable {voc : Vocabulary} {unifier : Unifier} {mode : SimplifyMode} {names : FreshNames}
  {e : Equality}

/-- The unifier is asked only to take rigid terms apart. -/
theorem classify_cases (voc : Vocabulary) (unifier : Unifier) (mode : SimplifyMode)
    (names : FreshNames) (e : Equality) :
    classify voc unifier mode names e = unify unifier mode e ∨
      classify voc unifier mode names e = classify voc Unifier.structural mode names e := by
  cases hrigid : e.isSimplifiable mode.patternFolding with
  | false =>
    right
    simp only [classify, hrigid, Bool.false_eq_true, if_false]
  | true =>
    unfold classify
    split
    · exact Or.inr rfl
    · exact Or.inr rfl
    · split
      · exact Or.inr rfl
      · exact Or.inl rfl

/-- What is taken apart stays as it is or comes down to parts. -/
theorem unify_cases {step : Step} (h : unify unifier mode e = .ok step) :
    step = .keep e ∨ ∃ parts ds, step = .split parts ds := by
  unfold unify at h
  split at h
  · exact absurd h nofun
  · exact absurd h nofun
  · dsimp only at h
    split at h
    · exact Or.inl (Except.ok.inj h).symm
    · exact Or.inr ⟨_, _, (Except.ok.inj h).symm⟩

/-- A binding comes from an equality between its variable and a term without that variable. -/
theorem relates_of_classify {v : Variable} {t : Term}
    (h : classify voc unifier mode names e = .ok (.bind v t)) :
    e.Relates v t ∧ v ∉ t.occurrences := by
  rcases classify_cases voc unifier mode names e with hunify | hsame
  · rw [h] at hunify
    rcases unify_cases hunify.symm with hkeep | ⟨parts, ds, hsplit⟩
    · exact absurd hkeep nofun
    · exact absurd hsplit nofun
  · have hstep := classified voc mode names e
    rw [← hsame, h] at hstep
    cases hstep with
    | bind v t he hoccurs => exact ⟨he, hoccurs⟩

/-- An equality that stays, stays as it is. -/
theorem kept_of_classify {e' : Equality}
    (h : classify voc unifier mode names e = .ok (.keep e')) : e' = e := by
  rcases classify_cases voc unifier mode names e with hunify | hsame
  · rw [h] at hunify
    rcases unify_cases hunify.symm with hkeep | ⟨parts, ds, hsplit⟩
    · exact Step.keep.inj hkeep
    · exact absurd hsplit nofun
  · have hstep := classified voc mode names e
    rw [← hsame, h] at hstep
    cases hstep <;> rfl

end Step

/-! ## No false alternatives -/

namespace Formula

/-- No alternative inside the formula is false. -/
inductive Proper : Formula → Prop
  | falsified (w : Equality) : Proper (.falsified w)
  | all (s : Substitution) (es : List Equality) (ds : List Disjunction)
      (hfalse : ∀ d ∈ ds, ∀ φ ∈ d, Formula.isFalse φ = false)
      (hproper : ∀ d ∈ ds, ∀ φ ∈ d, Proper φ) : Proper (.all s es ds)

theorem proper_all_iff (s : Substitution) (es : List Equality) (ds : List Disjunction) :
    (all s es ds).Proper ↔ ∀ d ∈ ds, ∀ φ ∈ d, Formula.isFalse φ = false ∧ Formula.Proper φ :=
  ⟨fun | .all _ _ _ hfalse hproper => fun d hd φ hφ => ⟨hfalse d hd φ hφ, hproper d hd φ hφ⟩,
    fun h => .all s es ds (fun d hd φ hφ => (h d hd φ hφ).1) fun d hd φ hφ => (h d hd φ hφ).2⟩

/-- Undecided disjunctions have no false alternatives. -/
theorem Tidy.proper {φ : Formula} (h : φ.Tidy) : φ.Proper := by
  induction φ using Formula.ind with
  | falsified w => exact .falsified w
  | all s es ds ih =>
    have hds := h.alternatives
    exact (proper_all_iff s es ds).mpr fun d hd ψ hψ =>
      ⟨(hds d hd).1.not_false ψ hψ, ih d hd ψ hψ ((hds d hd).2 ψ hψ)⟩

end Formula

namespace Worklist

variable {voc : Vocabulary} {unifier : Unifier} {mode : SimplifyMode} {w w' : Worklist}

/-- One step leads from one worklist to another. -/
def Leads (voc : Vocabulary) (unifier : Unifier) (mode : SimplifyMode) (w w' : Worklist) : Prop :=
  w.next voc unifier mode = .ok (.inl w')

/-- The bindings are resolved, and what a pass has seen mentions no bound variable as long as the
    pass eliminated nothing. -/
structure Current (w : Worklist) : Prop where
  resolved : w.bindings.Resolved
  visited : w.progress = false → ∀ e ∈ w.visited, ∀ v ∈ e.occurrences, ¬w.bindings.Binds v

theorem current_ofFormula (φ : Formula) : (ofFormula φ).Current :=
  ⟨Substitution.resolved_empty, fun _ => nofun⟩

/-- No bound variable is left in an equality that was rewritten with resolved bindings. -/
theorem unbound_looked (voc : Vocabulary) (hw : w.bindings.Resolved) (e : Equality)
    (rest : List Equality) : ∀ v ∈ (w.looked voc e rest).occurrences, ¬w.bindings.Binds v := by
  have side (t : Term) : ∀ v ∈ (t.rewrite voc (w.restFacts rest) w.bindings.get?).occurrences,
      ¬w.bindings.Binds v := by
    intro v hv
    have hwithin : (t.rewrite voc (w.restFacts rest) w.bindings.get?).Within
        (fun v => True ∧ ¬w.bindings.Binds v) fun _ => True :=
      within_rewrite hw (fun entry _ => ⟨trivial, Term.within_any entry.2⟩) (Term.within_any t)
    exact (hwithin.occurrences v hv).2
  intro v hv
  rcases List.mem_append.mp hv with hv | hv
  · exact side e.lhs v hv
  · exact side e.rhs v hv

/-- What was decided about an equality of the worklist binds, if anything, a variable that is not
    bound to a term without bound variables. -/
theorem fits_of_classify (hw : w.bindings.Resolved) {e : Equality} {rest : List Equality}
    {step : Step}
    (h : Step.classify voc unifier mode w.fresh (w.looked voc e rest) = .ok step) :
    Fits w.bindings step := by
  cases step with
  | bind v t =>
    obtain ⟨hrelates, hoccurs⟩ := Step.relates_of_classify h
    have hunbound := unbound_looked voc hw e rest
    have hmem : ∀ x, x = v ∨ x ∈ t.occurrences → x ∈ (w.looked voc e rest).occurrences := by
      intro x hx
      rcases hrelates with heq | heq
      · rw [heq, Equality.occurrences, List.mem_append]
        exact hx.imp_left fun hxv => List.mem_singleton.mpr hxv
      · rw [heq, Equality.occurrences, List.mem_append]
        exact hx.symm.imp_right fun hxv => List.mem_singleton.mpr hxv
    exact ⟨hunbound v (hmem v (Or.inl rfl)), hoccurs, fun x hx => hunbound x (hmem x (Or.inr hx))⟩
  | _ => trivial

/-- A step keeps the worklist current. -/
theorem Current.next (hw : w.Current) (h : w.Leads voc unifier mode w') : w'.Current := by
  rcases next_inl_cases h with ⟨_, hended⟩ | ⟨e, rest, _, hvisited⟩
  · cases hended with
    | again => exact ⟨hw.resolved, by simp⟩
    | absorbed => exact ⟨hw.resolved, by simp⟩
  · obtain ⟨step, hstep, happly⟩ := step_of_visit hvisited
    have hresolved := resolved_apply hw.resolved (fits_of_classify hw.resolved hstep) happly
    cases step with
    | drop =>
      obtain rfl := Except.ok.inj happly
      exact ⟨hresolved, hw.visited⟩
    | keep kept =>
      obtain rfl := Except.ok.inj happly
      obtain rfl := Step.kept_of_classify hstep
      refine ⟨hresolved, fun hprogress => List.forall_mem_append.mpr ⟨hw.visited hprogress, ?_⟩⟩
      exact List.forall_mem_singleton.mpr (unbound_looked voc hw.resolved e rest)
    | split parts ds =>
      obtain rfl := Except.ok.inj happly
      exact ⟨hresolved, by simp⟩
    | introduce parts names =>
      obtain rfl := Except.ok.inj happly
      exact ⟨hresolved, by simp⟩
    | bind v t =>
      -- the pass has eliminated something, so nothing is claimed of what it has seen
      obtain ⟨_, _, rfl⟩ := apply_bind happly
      exact ⟨hresolved, by simp⟩

/-- All along a run the worklist is current. -/
theorem Current.run (hw : w.Current)
    (h : Relation.ReflTransGen (Leads voc unifier mode) w w') : w'.Current := by
  induction h with
  | refl => exact hw
  | tail _ hleads ih => exact ih.next hleads

/-- A run that gives a result passes through a worklist that gives it in one step. -/
theorem exists_leads_of_run {n : Nat} {S : Formula} (h : w.run voc unifier mode n = .ok S) :
    ∃ last, Relation.ReflTransGen (Leads voc unifier mode) w last ∧
      last.next voc unifier mode = .ok (.inr S) := by
  induction n generalizing w with
  | zero => cases h
  | succ n ih =>
    rw [Worklist.run] at h
    split at h
    · exact absurd h (by simp)
    · rename_i S' hdone
      obtain rfl := Except.ok.inj h
      exact ⟨w, .refl, hdone⟩
    · rename_i w' hleads
      obtain ⟨last, hsteps, hlast⟩ := ih h
      exact ⟨last, .head hleads hsteps, hlast⟩

end Worklist

/-! ## The result -/

namespace Worklist

/-- Absorbing adds the disjunctions again, so those that are left are in formulas that grew. -/
theorem grown_of_absorb {P : Formula → Prop} (hP : Formula.Grows P) {voc : Vocabulary}
    {s : Substitution} {ds : List Disjunction} {a : Absorbed} (h : absorb voc s ds = .ok a) :
    ∀ d ∈ a.disjunctions, ∃ φ : Formula, P φ ∧ d ∈ φ.disjunctions := by
  induction ds generalizing a with
  | nil =>
    obtain rfl := Except.ok.inj h
    nofun
  | cons d ds ih =>
    obtain ⟨t, es, kept, rest, hadded, hrest, _, hkept, _⟩ := absorb_cons h
    have hgrown : P (Formula.top.addDisjunction (d.rewrite voc .unknown s.get?)) :=
      hP.addDisjunctions hP.top (hP.rewrites voc .unknown s.get? [d])
    rw [hadded] at hgrown
    rw [hkept]
    exact List.forall_mem_append.mpr ⟨fun d hd => ⟨_, hgrown, hd⟩, ih hrest⟩

theorem tidy_absorb {voc : Vocabulary} {s : Substitution} {ds : List Disjunction} {a : Absorbed}
    (h : absorb voc s ds = .ok a) :
    ∀ d ∈ a.disjunctions, d.Undecided ∧ ∀ ψ ∈ d, ψ.Tidy := by
  intro d hd
  obtain ⟨φ, hφ, hd⟩ := grown_of_absorb Formula.grows_tidy h d hd
  exact hφ.alternatives d hd

end Worklist

namespace Formula

/-- No bound variable occurs in a bound term, in a pending equality, or anywhere inside a
    disjunction; and no alternative inside a disjunction is false. -/
structure Applied (φ : Formula) : Prop where
  bindings : ∀ v, φ.bindings.Binds v → ∀ entry ∈ φ.bindings.entries, v ∉ entry.2.occurrences
  equalities : ∀ v, φ.bindings.Binds v → ∀ e ∈ φ.equalities, v ∉ e.occurrences
  disjunctions : ∀ v, φ.bindings.Binds v → ∀ d ∈ φ.disjunctions, ∀ ψ ∈ d, v ∉ ψ.occurrences
  proper : φ.Proper

variable {voc : Vocabulary} {unifier : Unifier} {mode : SimplifyMode}

theorem within_any (φ : Formula) : φ.Within (fun _ => True) fun _ => True := by
  induction φ using Formula.ind with
  | falsified w => trivial
  | all s es ds ih =>
    exact (everywhere_all_iff s es ds).mpr
      ⟨fun entry _ => ⟨trivial, Term.within_any entry.2⟩,
        fun e _ => ⟨Term.within_any e.lhs, Term.within_any e.rhs⟩, ih⟩

/-- A result is the true formula or what the last pass of a run leaves. -/
theorem simplify_result {φ S : Formula} (h : φ.simplify voc unifier mode = .ok S) :
    S = top ∨ φ.simplifyWithin voc unifier mode φ.stepBound = .ok S := by
  unfold simplify at h
  split at h
  · exact absurd h nofun
  · split at h
    · rename_i htrue
      obtain rfl := Except.ok.inj h
      exact .inl (eq_top_of_isTrue htrue)
    · exact .inr h

/-- Every formula is simplified to one that is not false. -/
theorem isFalse_of_simplify {φ S : Formula} (h : φ.simplify voc unifier mode = .ok S) :
    S.isFalse = false := by
  rcases simplify_result h with rfl | hrun
  · rfl
  · obtain ⟨_, _, hlast⟩ := Worklist.exists_leads_of_run hrun
    obtain ⟨_, _, _, _, rfl⟩ := Worklist.next_inr_cases hlast
    rfl

theorem applied_of_isTrue {φ : Formula} (h : φ.isTrue = true) : φ.Applied := by
  rw [eq_top_of_isTrue h]
  refine ⟨fun v hv => ?_, fun _ _ => nofun, fun _ _ => nofun, (proper_all_iff _ _ _).mpr nofun⟩
  obtain ⟨entry, hentry, _⟩ := hv
  exact absurd hentry List.not_mem_nil

/-- A current worklist that gives a result gives one in which all bindings are applied. -/
theorem applied_of_next {w : Worklist} {S : Formula} (hw : w.Current)
    (h : w.next voc unifier mode = .ok (.inr S)) : S.Applied := by
  have hvisited := hw.visited (Worklist.progress_of_next_inr h)
  obtain ⟨_, a, ha, _, rfl⟩ := Worklist.next_inr_cases h
  -- the disjunctions were rewritten with the bindings of the result
  obtain ⟨_, hunbound⟩ : (∀ e ∈ a.equalities, e.All (Term.WithinHead (fun v => True ∧
      ¬w.bindings.Binds v) fun _ => True)) ∧ _ :=
    Worklist.each_absorb (fun _ => trivial)
      (fun t ht => Worklist.within_rewrite hw.resolved
        (fun entry _ => ⟨trivial, Term.within_any entry.2⟩) ht)
      (fun d _ φ _ => within_any φ) ha
  have htidy := Worklist.tidy_absorb ha
  have hmem {d : Disjunction} (hd : d ∈ (ofParts w.bindings w.visited
      (Sorted.dedup Disjunction.cmp a.disjunctions)).disjunctions) : d ∈ a.disjunctions :=
    Sorted.mem_dedup (Sorted.mem_ofListLast hd)
  refine ⟨fun v hv entry hentry hoccurs => ?_, fun v hv e he hoccurs => ?_,
    fun v hv d hd ψ hψ hoccurs => ?_, ?_⟩
  · exact hw.resolved.unbound entry hentry v hoccurs hv
  · exact hvisited e (Sorted.mem_ofListLast he) v hoccurs hv
  · have hψ := (hunbound d (hmem hd) ψ hψ).each
    exact (Within.occurrences hψ v hoccurs).2 hv
  · exact (proper_all_iff _ _ _).mpr fun d hd ψ hψ =>
      ⟨(htidy d (hmem hd)).1.not_false ψ hψ, ((htidy d (hmem hd)).2 ψ hψ).proper⟩

/-- **Bindings are fully applied.** Whatever the unifier and the number of steps, a bound variable
    of the result occurs in no bound term, in no pending equality and nowhere inside a disjunction;
    and on the way there no binding that is found fails to compose with the earlier ones. -/
theorem applied_simplify (voc : Vocabulary) (unifier : Unifier) (mode : SimplifyMode)
    (φ : Formula) :
    (∀ S, φ.simplify voc unifier mode = .ok S → S.Applied) ∧
      (∀ steps S, φ.simplifyWithin voc unifier mode steps = .ok S → S.Applied) ∧
      ∀ w, Relation.ReflTransGen (Worklist.Leads voc unifier mode) (Worklist.ofFormula φ) w →
        ∀ e rest v t, w.pending = e :: rest →
          Step.classify voc unifier mode w.fresh
            (e.rewrite voc (w.restFacts rest) w.bindings.get?) = .ok (.bind v t) →
          ∃ s, w.bindings.compose voc .unknown (.singleton v t) = .ok s := by
  have hwithin (steps : Nat) (S : Formula)
      (h : φ.simplifyWithin voc unifier mode steps = .ok S) : S.Applied := by
    obtain ⟨last, hsteps, hlast⟩ := Worklist.exists_leads_of_run h
    exact applied_of_next ((Worklist.current_ofFormula φ).run hsteps) hlast
  refine ⟨fun S h => ?_, hwithin, fun w hsteps e rest v t _ hstep => ?_⟩
  · unfold simplify at h
    split at h
    · exact absurd h nofun
    · split at h
      · rename_i htrue
        obtain rfl := Except.ok.inj h
        exact applied_of_isTrue htrue
      · exact hwithin _ S h
  · have hcurrent := (Worklist.current_ofFormula φ).run hsteps
    obtain ⟨hbinds, hoccurs, hterms⟩ := Worklist.fits_of_classify hcurrent.resolved hstep
    obtain ⟨s, hs, _⟩ := Substitution.compose_singleton voc hcurrent.resolved hbinds hoccurs hterms
    exact ⟨s, hs⟩

end Formula

/-! ### A chain of bindings -/

namespace Chain

def x : Variable := ⟨"X", .int⟩

def y : Variable := ⟨"Y", .int⟩

def z : Variable := ⟨"Z", .int⟩

/-- `Z = t` or `Z = 2` -/
def choice (t : Term) : Disjunction :=
  [.all .empty [⟨.var z, t⟩] [], .all .empty [⟨.var z, .int 2⟩] []]

/-- `X = Y` and `Y = 1`, and `Z = Y` or `Z = 2` -/
def formula : Formula :=
  .all .empty [⟨.var x, .var y⟩, ⟨.var y, .int 1⟩] [choice (.var y)]

/-- `X = 1` and `Y = 1`, and `Z = 1` or `Z = 2` -/
def simple : Formula := .all ⟨[(x, .int 1), (y, .int 1)]⟩ [] [choice (.int 1)]

theorem simplify_formula :
    formula.simplify .initial Unifier.structural .default = .ok simple := by
  cbv

theorem applied_simple : simple.Applied ∧
    ∃ s, Substitution.empty.compose .initial .unknown (.singleton y (.var x)) = .ok s :=
  ⟨(Formula.applied_simplify .initial Unifier.structural .default formula).1 simple
      simplify_formula,
    (Formula.applied_simplify .initial Unifier.structural .default formula).2.2
      (Worklist.ofFormula formula) .refl ⟨.var x, .var y⟩ [⟨.var y, .int 1⟩] y (.var x) rfl rfl⟩

end Chain

end Entail
