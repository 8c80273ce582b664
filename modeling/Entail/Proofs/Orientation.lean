import Entail.Proofs.Narrowing
import Entail.Proofs.Reduction

set_option autoImplicit false

/-! # What turning bindings around keeps

Turning bindings around never adds a solution. It loses none if no variable that is turned is bound
itself, as such a binding would give the variable a second term, and it keeps bindings within their
sorts if both variables of each binding that is turned have the same values. A variable outside the
set stays bound to a variable of the set only where renaming turns its term into one. -/

namespace Entail

variable {V : Type}

namespace Formula

/-- The formula binds the variable `key`, which is not in `vars`, to the variable `v` of `vars`. -/
def Crosses (φ : Formula) (vars : VarSet) (key v : Variable) : Prop :=
  (key, .var v) ∈ φ.bindings.entries ∧ key ∉ vars ∧ v ∈ vars

variable {φ : Formula} {vars : VarSet} {voc : Vocabulary}

theorem crosses_of_get? {v : Variable} {t : Term}
    (h : (turnable vars φ.bindings).get? v = some t) :
    ∃ key, t = .var key ∧ φ.Crosses vars key v :=
  crosses_of_turnable (Substitution.mem_of_get? h)

/-! ## Solutions -/

/-- Turned bindings can be added together if no variable that is turned is bound. -/
theorem exists_turned (voc : Vocabulary) (hsingle : φ.bindings.Single)
    (hfree : ∀ key v, φ.Crosses vars key v → ¬φ.bindings.Binds v) :
    ∃ s' : Substitution, top.addBindings
        (φ.bindings.entries.map (turnBinding voc .unknown (turnable vars φ.bindings))) =
          .all s' [] [] ∧
      ∀ entry ∈ s'.entries, ∃ old ∈ φ.bindings.entries,
        turnBinding voc .unknown (turnable vars φ.bindings) old = entry := by
  have hturned := single_turned voc hsingle fun v key hv => by
    obtain ⟨key', _, hcrosses⟩ := crosses_of_get? hv
    exact hfree key' v hcrosses
  obtain ⟨s', hs', hentries, _⟩ := exists_addBindings hturned (Substitution.agrees_empty _) [] []
  exact ⟨s', hs', fun entry hentry =>
    List.mem_map.mp ((hentries entry hentry).resolve_left List.not_mem_nil)⟩

/-- No solution is lost if no variable that is turned is bound. -/
theorem holds_orient {A : Algebra V} {ρ : Variable → V} (hsingle : φ.bindings.Single)
    (hfree : ∀ key v, φ.Crosses vars key v → ¬φ.bindings.Binds v) (hφ : φ.Holds A ρ) :
    (φ.orient voc .unknown vars).Holds A ρ := by
  cases h : (turnable vars φ.bindings).isEmpty with
  | true =>
    rw [orient_of_isEmpty h]
    exact hφ
  | false =>
    cases φ with
    | falsified w => exact hφ
    | all s es ds =>
      obtain ⟨hs, hes, hds⟩ := (holds_all_iff A ρ s es ds).mp hφ
      obtain ⟨s', hs', hentries⟩ := exists_turned voc hsingle hfree
      -- the renaming is true, as each variable is renamed to one that is bound to it
      have hrenaming : ∀ v t, (turnable vars s).get? v = some t → ρ v = t.eval A ρ := by
        intro v t hv
        obtain ⟨key, rfl, hentry⟩ := mem_turnable (Substitution.mem_of_get? hv)
        exact (hs _ hentry).symm
      have hbindings : (all s' [] []).Holds A ρ := by
        refine (holds_all_iff A ρ s' [] []).mpr ⟨fun entry hentry => ?_, nofun, nofun⟩
        obtain ⟨old, hold, rfl⟩ := hentries entry hentry
        exact (turnBinding_holds_iff hrenaming old).mpr (hs old hold)
      unfold orient
      dsimp only
      split
      · exact hφ
      · refine (holds_addDisjunctions_iff (flat_members voc .unknown _ ds) _).mpr
          ⟨holds_addEqualities ?_ ?_ (hs' ▸ hbindings), ?_⟩
        · exact List.forall_mem_map.mpr fun e _ => flat_rewrite voc _ _ e
        · exact List.forall_mem_map.mpr fun e he =>
            (Equality.holds_rewrite_iff voc (Facts.unknown_sound A ρ) hrenaming e).mpr (hes e he)
        · exact List.forall_mem_map.mpr fun d hd =>
            (Disjunction.holds_rewrite_iff (Facts.unknown_sound A ρ) hrenaming d).mpr (hds d hd)

/-! ## Sorts -/

/-- Bindings suit their variables if those that are turned do so in both directions. -/
theorem suits_orient {Q : Symbol → Prop} (hQ : voc.Narrows Q) (hl : voc.lattice.Closed)
    (hφ : φ.bindings.EachBinding (Term.Suits voc Q))
    (hsorts : ∀ key v, φ.Crosses vars key v →
      voc.lattice.isSubsortEq v.sort key.sort = true) :
    (φ.orient voc .unknown vars).bindings.EachBinding (Term.Suits voc Q) := by
  cases h : (turnable vars φ.bindings).isEmpty with
  | true =>
    rw [orient_of_isEmpty h]
    exact hφ
  | false =>
    have hrenaming : (turnable vars φ.bindings).EachBinding (Term.Suits voc Q) := by
      rintro ⟨v, t⟩ hentry
      obtain ⟨key, rfl, hcrosses⟩ := crosses_of_turnable hentry
      exact ⟨⟨trivial, rfl⟩, hsorts key v hcrosses⟩
    intro entry hentry
    obtain ⟨old, hold, rfl⟩ := mem_orient h entry hentry
    rcases turnBinding_cases voc vars φ.bindings old with ⟨v, _, hget, heq⟩ | ⟨_, heq⟩
    · rw [heq]
      exact hrenaming (v, .var old.1) (Substitution.mem_of_get? hget)
    · obtain ⟨hsettled, hle⟩ := hφ old hold
      have hnew := Term.narrowed_rewrite hQ hl hrenaming .unknown hsettled.fit
      rw [heq]
      refine ⟨hnew.settled, hQ.trans hl hle ?_⟩
      rw [hsettled.sort_eq, hnew.settled.sort_eq]
      exact hnew.le

/-! ## Variables that stay as they are -/

/-- A variable outside the set is bound to a variable of the set only if another term was renamed
    to it. -/
theorem crosses_orient {key v : Variable}
    (h : (φ.orient voc .unknown vars).Crosses vars key v) :
    ∃ t, (key, t) ∈ φ.bindings.entries ∧ t.isVar = false ∧
      t.rewrite voc .unknown (turnable vars φ.bindings).get? = .var v := by
  obtain ⟨hentry, hkey, hv⟩ := h
  cases hturnable : (turnable vars φ.bindings).isEmpty with
  | true =>
    rw [orient_of_isEmpty hturnable] at hentry
    obtain ⟨key', hget⟩ := exists_turnable hentry hkey hv
    rw [Substitution.isEmpty, List.isEmpty_iff] at hturnable
    have hmem := Substitution.mem_of_get? hget
    rw [hturnable] at hmem
    exact absurd hmem List.not_mem_nil
  | false =>
    obtain ⟨⟨oldKey, t⟩, hold, hturned⟩ := mem_orient hturnable _ hentry
    rcases turnBinding_cases voc vars φ.bindings (oldKey, t) with ⟨w, _, hget, heq⟩ | ⟨_, heq⟩
    · obtain ⟨rfl, _⟩ := Prod.mk.inj (heq.symm.trans hturned)
      obtain ⟨_, _, _, _, hw⟩ := crosses_of_get? hget
      exact absurd hw hkey
    · obtain ⟨rfl, hrewrite⟩ := Prod.mk.inj (heq.symm.trans hturned)
      refine ⟨t, hold, ?_, hrewrite⟩
      rw [Bool.eq_false_iff]
      intro hvar
      obtain ⟨u, rfl⟩ := (Term.isVar_eq_true_iff t).mp hvar
      -- a variable is renamed to one outside the set, or stays because nothing is turned to it
      have hoccurs : v ∈ ((Term.var u).rewrite voc .unknown
          (turnable vars φ.bindings).get?).occurrences := hrewrite ▸ List.mem_singleton.mpr rfl
      rcases occurrences_renamed voc vars φ.bindings (.var u) hoccurs with ⟨hu, hnone⟩ | ⟨w, hw⟩
      · obtain rfl := List.mem_singleton.mp hu
        obtain ⟨key', hget⟩ := exists_turnable hold hkey hv
        rw [hnone] at hget
        exact absurd hget (by simp)
      · obtain ⟨key', heqVar, _, houtside, _⟩ := crosses_of_get? hw
        obtain rfl := Term.var.inj heqVar
        exact houtside hv

/-- **Turning bindings around.** Every solution of the result solves the formula, and the other way
    round if no variable that is turned is bound; bindings stay within their sorts if those that are
    turned can be read in both directions; and a variable outside the set is bound to a variable of
    the set only where renaming made another term this variable. -/
theorem orient_keeps_solutions (voc : Vocabulary) (φ : Formula) (vars : VarSet) :
    (∀ {V : Type} (A : Algebra V) (ρ : Variable → V),
      (φ.orient voc .unknown vars).Holds A ρ → φ.Holds A ρ) ∧
    (φ.bindings.Single → (∀ key v, φ.Crosses vars key v → ¬φ.bindings.Binds v) →
      ∀ {V : Type} (A : Algebra V) (ρ : Variable → V),
        φ.Holds A ρ → (φ.orient voc .unknown vars).Holds A ρ) ∧
    (∀ Q, voc.Built → voc.Narrows Q → φ.bindings.EachBinding (Term.Suits voc Q) →
      (∀ key v, φ.Crosses vars key v → voc.lattice.isSubsortEq v.sort key.sort = true) →
      (φ.orient voc .unknown vars).bindings.EachBinding (Term.Suits voc Q)) ∧
    ∀ key v, (φ.orient voc .unknown vars).Crosses vars key v →
      ∃ t, (key, t) ∈ φ.bindings.entries ∧ t.isVar = false ∧
        t.rewrite voc .unknown (turnable vars φ.bindings).get? = .var v :=
  ⟨fun _ _ => holds_of_orient, fun hsingle hfree _ _ _ => holds_orient hsingle hfree,
    fun _ hvoc hQ => suits_orient hQ hvoc.closed, fun _ _ => crosses_orient⟩

end Formula

/-! ### A binding that is turned, and bindings that must not be -/

namespace Turned

open Straying (sortA sortB sortS f regular)

def x (s : SortName) : Variable := ⟨"X", s⟩

def y (s : SortName) : Variable := ⟨"Y", s⟩

def z (s : SortName) : Variable := ⟨"Z", s⟩

/-- `X` is bound to `Y` and `Z` to `f(Y)`. -/
def formula : Formula :=
  .all ⟨[(x sortA, .var (y sortA)), (z sortS, .app f [.var (y sortA)] sortS)]⟩ [] []

theorem mem_formula {entry : Variable × Term} (h : entry ∈ formula.bindings.entries) :
    entry = (x sortA, .var (y sortA)) ∨ entry = (z sortS, .app f [.var (y sortA)] sortS) :=
  List.mem_pair.mp h

theorem crosses_formula {key v : Variable} (h : formula.Crosses [y sortA] key v) :
    key = x sortA ∧ v = y sortA := by
  rcases mem_formula h.1 with hentry | hentry
  · obtain ⟨rfl, hv⟩ := Prod.mk.inj hentry
    exact ⟨rfl, Term.var.inj hv⟩
  · exact absurd (Prod.mk.inj hentry).2 nofun

theorem suits_formula : formula.bindings.EachBinding (Term.Suits regular (· = f)) := by
  refine List.forall_mem_cons.mpr ⟨⟨⟨trivial, rfl⟩, by decide⟩, List.forall_mem_singleton.mpr ?_⟩
  refine ⟨(Term.all_app_iff _ _ _).mpr ⟨⟨rfl, ?_⟩, List.forall_mem_singleton.mpr ⟨trivial, rfl⟩⟩,
    by decide⟩
  decide

/-- `Y` is bound to `X` and `Z` to `f(X)`: the same solutions, and bindings within their sorts. -/
theorem orient_keeps_solutions_formula :
    formula.orient regular .unknown [y sortA] =
      .all ⟨[(y sortA, .var (x sortA)), (z sortS, .app f [.var (x sortA)] sortS)]⟩ [] [] ∧
    (∀ (V : Type) (A : Algebra V) (ρ : Variable → V),
      (formula.orient regular .unknown [y sortA]).Holds A ρ ↔ formula.Holds A ρ) ∧
    ∀ entry ∈ (formula.orient regular .unknown [y sortA]).bindings.entries,
      regular.lattice.isSubsortEq entry.1.sort entry.2.sort = true := by
  obtain ⟨hback, hkeep, hsorts, _⟩ :=
    Formula.orient_keeps_solutions regular formula [y sortA]
  have hsingle : formula.bindings.Single := by
    intro entry hentry other hother hkeys
    rcases mem_formula hentry with rfl | rfl <;> rcases mem_formula hother with rfl | rfl
    · rfl
    · exact absurd hkeys (by decide)
    · exact absurd hkeys (by decide)
    · rfl
  have hfree : ∀ key v, formula.Crosses [y sortA] key v → ¬formula.bindings.Binds v := by
    rintro key v hcrosses ⟨entry, hentry, heq⟩
    obtain ⟨rfl, rfl⟩ := crosses_formula hcrosses
    rcases mem_formula hentry with rfl | rfl
    · exact absurd heq (by decide)
    · exact absurd heq (by decide)
  refine ⟨by cbv, fun V A ρ => ⟨hback A ρ, hkeep hsingle hfree A ρ⟩, fun entry hentry => ?_⟩
  refine (hsorts (· = f) Straying.built_regular Straying.narrows_regular suits_formula
    (fun key v hcrosses => ?_) entry hentry).2
  obtain ⟨rfl, rfl⟩ := crosses_formula hcrosses
  decide

/-- `X` is bound to `Y` and `Y` to `1`. -/
def chained : Formula := .all ⟨[(x .int, .var (y .int)), (y .int, .int 1)]⟩ [] []

/-- `B` lies below `A`. -/
def ordered : Vocabulary := Vocabulary.initial.addSubsort sortA sortB

/-- `X` of sort `A` is bound to `Y` of sort `B`. -/
def widened : Formula := .all ⟨[(x sortA, .var (y sortB))]⟩ [] []

/-- `X` is bound to `Y`, and `Z` to a conditional that asks whether `X` and `Y` are equal. -/
def conditional : Formula :=
  .all ⟨[(x .int, .var (y .int)),
    (z .int, .ite (.eqK (.var (x .int)) (.var (y .int))) (.var ⟨"V", .int⟩) (.int 0))]⟩ [] []

/-- A second term for `Y` loses the solution `X = Y = 1`; `Y` is bound to a variable of a larger sort;
    and the conditional becomes a variable that `Z` is still bound to. -/
theorem orient_changes :
    (∀ (V : Type) (A : Algebra V), ∃ ρ, chained.Holds A ρ ∧
      ¬(chained.orient .initial .unknown [y .int]).Holds A ρ) ∧
    (ordered.Built ∧ (∀ entry ∈ widened.bindings.entries,
        ordered.lattice.isSubsortEq entry.1.sort entry.2.sort = true) ∧
      ∃ entry ∈ (widened.orient ordered .unknown [y sortB]).bindings.entries,
        ordered.lattice.isSubsortEq entry.1.sort entry.2.sort = false) ∧
    (conditional.orient .initial .unknown [⟨"V", .int⟩, y .int]).Crosses [⟨"V", .int⟩, y .int]
      (z .int) ⟨"V", .int⟩ ∧ Nonempty (Algebra Value) := by
  refine ⟨fun V A => ⟨fun _ => A.int 1, ?_, ?_⟩, ⟨.addSubsort _ _ .initial, ?_, ?_⟩, ⟨?_, ?_, ?_⟩,
    ⟨Value.algebra (fun _ _ => .nil) fun _ _ => .nil⟩⟩
  · refine (Formula.holds_all_iff _ _ _ _ _).mpr ⟨?_, nofun, nofun⟩
    exact List.forall_mem_cons.mpr ⟨rfl, List.forall_mem_singleton.mpr rfl⟩
  · exact Formula.not_holds_falsified A _ ⟨.var (x .int), .int 1⟩
  · exact List.forall_mem_singleton.mpr (by decide)
  · exact ⟨(y sortB, .var (x sortA)), List.mem_singleton.mpr rfl, by decide⟩
  · have horient : conditional.orient .initial .unknown [⟨"V", .int⟩, y .int] =
        .all ⟨[(y .int, .var (x .int)), (z .int, .var ⟨"V", .int⟩)]⟩ [] [] := by
      cbv
    rw [horient]
    exact List.mem_cons_of_mem _ (List.mem_singleton.mpr rfl)
  · decide
  · decide

end Turned

end Entail
