import Entail.Proofs.Stored
import Entail.Proofs.Values

set_option autoImplicit false

/-! # What merging states

Merging adds what a formula stores. Its equalities are open and its disjunctions undecided, so that
none of them refutes anything when it is added; only its bindings can, as a variable keeps the term
that it is bound to. So merging states the same as both formulas, unless they bind a variable to
different terms: then the result is false, also if the terms can have the same value. -/

namespace Entail

variable {V : Type}

namespace Formula

variable {φ ψ : Formula}

section Holding

variable {A : Algebra V} {ρ : Variable → V}

/-- What is stored refutes nothing when it is added. -/
theorem holds_addStored (hφ : φ.Holds A ρ) {e : Equality} (hopen : e.IsOpen) (hstored : e.Stored)
    (he : e.Holds A ρ) : (φ.addEquality e).Holds A ρ := by
  rcases hstored with hpart | hflat
  · rw [addEquality, hpart]
    refine holds_addPart_of_truth hφ ?_ he
    rw [hopen.truth_eq]
    simp
  · exact holds_addEquality hφ hflat he

theorem holds_addAllStored {es : List Equality} (hopen : ∀ e ∈ es, e.IsOpen)
    (hstored : ∀ e ∈ es, e.Stored) (hes : ∀ e ∈ es, e.Holds A ρ) (hφ : φ.Holds A ρ) :
    (φ.addEqualities es).Holds A ρ := by
  unfold addEqualities
  induction es generalizing φ with
  | nil => exact hφ
  | cons e es ih =>
    rw [List.forall_mem_cons] at hopen hstored hes
    exact ih hopen.2 hstored.2 hes.2 (holds_addStored hφ hopen.1 hstored.1 hes.1)

/-- Undecided disjunctions do not collapse. -/
theorem holds_mergeUndecided {ds : List Disjunction} (hundecided : ∀ d ∈ ds, d.Undecided)
    (hds : ∀ d ∈ ds, d.Holds A ρ) (hφ : φ.Holds A ρ) : (mergeDisjunctions ds φ).Holds A ρ := by
  induction ds generalizing φ with
  | nil => exact hφ
  | cons d ds ih =>
    rw [List.forall_mem_cons] at hundecided hds
    rw [mergeDisjunctions]
    refine ih hundecided.2 hds.2 (holds_addAlternatives (fun ψ _ hmembers => ?_) hφ hds.1)
    -- a single alternative is merged, but here two are left
    have hall : d.filter (!·.isFalse) = d :=
      List.filter_eq_self.mpr fun χ hχ => by rw [hundecided.1.not_false χ hχ]; rfl
    have htwo := hundecided.1.two_le
    rw [← hall, hmembers] at htwo
    exact absurd htwo (by simp)

theorem holds_merge_of_agrees (hψ : Built ψ) (hagrees : φ.bindings.Agrees ψ.bindings)
    (hφholds : φ.Holds A ρ) (hψholds : ψ.Holds A ρ) : (merge ψ φ).Holds A ρ := by
  cases ψ with
  | falsified w => exact absurd hψholds (not_holds_falsified A ρ w)
  | all s' es' ds' =>
    obtain ⟨hsingle, hstored, _⟩ := (everywhere_all_iff s' es' ds').mp hψ.wellStored
    obtain ⟨hopen, hds'⟩ := (tidy_all_iff s' es' ds').mp hψ.tidy
    obtain ⟨hs'Holds, hes'Holds, hds'Holds⟩ := (holds_all_iff A ρ s' es' ds').mp hψholds
    cases φ with
    | falsified w => exact absurd hφholds (not_holds_falsified A ρ w)
    | all s es ds =>
      -- only the bindings can refute the result, and they agree
      obtain ⟨joined, hjoined, hentries, _⟩ := exists_addBindings (s := s) hsingle hagrees es ds
      rw [merge, hjoined]
      refine holds_mergeUndecided (fun d hd => (hds' d hd).1) hds'Holds
        (holds_addAllStored hopen hstored hes'Holds ?_)
      obtain ⟨hsHolds, hrest⟩ := (holds_all_iff A ρ s es ds).mp hφholds
      refine (holds_all_iff A ρ joined es ds).mpr ⟨fun entry hentry => ?_, hrest⟩
      exact (hentries entry hentry).elim (hsHolds entry) (hs'Holds entry)

theorem holds_addFormula_iff (hψ : Built ψ) (hagrees : φ.bindings.Agrees ψ.bindings) :
    (φ.addFormula ψ).Holds A ρ ↔ φ.Holds A ρ ∧ ψ.Holds A ρ :=
  ⟨holds_of_merge, fun h => holds_merge_of_agrees hψ hagrees h.1 h.2⟩

theorem holds_addDisjunction_iff {d : Disjunction} (hd : ∀ χ ∈ d, Built χ)
    (hagrees : ∀ χ, d.filter (!·.isFalse) = [χ] → φ.bindings.Agrees χ.bindings) :
    (φ.addDisjunction d).Holds A ρ ↔ φ.Holds A ρ ∧ d.Holds A ρ := by
  constructor
  · intro h
    obtain ⟨hφ, hholds⟩ := holds_of_mergeDisjunctions (fun _ _ _ _ _ => holds_of_merge) h
    exact ⟨hφ, hholds d (List.mem_singleton.mpr rfl)⟩
  · rintro ⟨hφ, hholds⟩
    refine holds_addAlternatives (fun χ hχ hmembers => ?_) hφ hholds
    have hmem : χ ∈ d.filter (!·.isFalse) := hmembers ▸ List.mem_singleton.mpr rfl
    rw [mergeFirst_eq hmembers]
    exact holds_merge_of_agrees (hd χ (mem_filter_notFalse.mp hmem).1) (hagrees χ hmembers) hφ hχ

end Holding

/-- A second term for a variable makes the result false. -/
theorem isFalse_addFormula (h : ¬φ.bindings.Agrees ψ.bindings) :
    (φ.addFormula ψ).isFalse = true := by
  cases φ with
  | falsified w => exact absurd (Substitution.agrees_empty _) h
  | all s es ds =>
    cases ψ with
    | falsified w => exact absurd (fun _ _ _ _ => nofun) h
    | all s' es' ds' =>
      obtain ⟨w, hfalse⟩ : ∃ w, (all s es ds).addBindings s'.entries = .falsified w :=
        exists_addBindings_falsified h es ds
      rw [addFormula, merge, hfalse]
      exact congrArg isFalse (merge_falsified (.all .empty es' ds') w)

/-- A disjunction with one alternative that is not false is this alternative. -/
theorem addDisjunction_eq {d : Disjunction} (hmembers : d.filter (!·.isFalse) = [ψ]) (φ : Formula) :
    φ.addDisjunction d = φ.addFormula ψ := by
  rw [addFormula, ← mergeFirst_eq hmembers φ]
  cases φ with
  | falsified w => exact (mergeFirst_eq hmembers _).trans (merge_falsified ψ w) |>.symm
  | all s es ds =>
    rw [addDisjunction, addDisjunctions, mergeDisjunctions, mergeDisjunctions, addAlternatives,
      hmembers]

/-- **Merging keeps the common solutions.** Adding a formula leaves the solutions of both, and
    adding a disjunction the solutions of the formula and of an alternative, unless a formula that is
    merged binds a variable to another term than the one it is bound to: then the result is false.
    Of a disjunction only an alternative is merged that is the only one that is not false. -/
theorem merging_keeps_common_solutions (φ : Formula) {ψ : Formula} (hψ : Built ψ)
    {d : Disjunction} (hd : ∀ χ ∈ d, Built χ) :
    ((φ.bindings.Agrees ψ.bindings → ∀ {V : Type} (A : Algebra V) (ρ : Variable → V),
        (φ.addFormula ψ).Holds A ρ ↔ φ.Holds A ρ ∧ ψ.Holds A ρ) ∧
      (¬φ.bindings.Agrees ψ.bindings → (φ.addFormula ψ).isFalse = true)) ∧
    ((∀ χ, d.filter (!·.isFalse) = [χ] → φ.bindings.Agrees χ.bindings) →
        ∀ {V : Type} (A : Algebra V) (ρ : Variable → V),
          (φ.addDisjunction d).Holds A ρ ↔ φ.Holds A ρ ∧ d.Holds A ρ) ∧
      ∀ χ, d.filter (!·.isFalse) = [χ] → ¬φ.bindings.Agrees χ.bindings →
        (φ.addDisjunction d).isFalse = true := by
  refine ⟨⟨fun hagrees _ _ _ => holds_addFormula_iff hψ hagrees, isFalse_addFormula⟩,
    fun hagrees _ _ _ => holds_addDisjunction_iff hd hagrees, fun χ hmembers hdiffers => ?_⟩
  rw [addDisjunction_eq hmembers]
  exact isFalse_addFormula hdiffers

end Formula

/-! ### Two terms for one variable -/

namespace Rebound

open Formula

def x : Variable := ⟨"X", .int⟩

def y : Variable := ⟨"Y", .int⟩

/-- `X` is bound to `Y`. -/
def renamed : Formula := top.add (.binding x (.var y))

/-- `X` is bound to `1`. -/
def fixed : Formula := top.add (.binding x (.int 1))

/-- `Y` is bound to `1`. -/
def other : Formula := top.add (.binding y (.int 1))

theorem built_binding (v : Variable) (t : Term) : Built (top.add (.binding v t)) :=
  .add .top fun _ => nofun

/-- `X = Y = 1` solves both formulas, but merging them finds two terms for `X`. -/
theorem merging_loses_solution : Built renamed ∧ Built fixed ∧
    (∀ (V : Type) (A : Algebra V), ∃ ρ, renamed.Holds A ρ ∧ fixed.Holds A ρ ∧
      ¬(renamed.addFormula fixed).Holds A ρ ∧ ¬(renamed.addDisjunction [fixed]).Holds A ρ) ∧
    Nonempty (Algebra Value) := by
  refine ⟨built_binding x _, built_binding x _, fun V A => ⟨fun _ => A.int 1, ?_, ?_, ?_, ?_⟩,
    ⟨Value.algebra (fun _ _ => .nil) fun _ _ => .nil⟩⟩
  · exact (holds_all_iff _ _ _ _ _).mpr ⟨List.forall_mem_singleton.mpr rfl, nofun, nofun⟩
  · exact (holds_all_iff _ _ _ _ _).mpr ⟨List.forall_mem_singleton.mpr rfl, nofun, nofun⟩
  · exact not_holds_falsified A _ ⟨.var y, .int 1⟩
  · exact not_holds_falsified A _ ⟨.var y, .int 1⟩

/-- `Y = 1`, or something false -/
def alternatives : Disjunction := [other, .falsified ⟨.int 0, .int 1⟩]

theorem merging_keeps_common_solutions_other : renamed.bindings.Agrees other.bindings ∧
    ∀ (V : Type) (A : Algebra V) (ρ : Variable → V),
      ((renamed.addFormula other).Holds A ρ ↔ renamed.Holds A ρ ∧ other.Holds A ρ) ∧
      ((renamed.addDisjunction alternatives).Holds A ρ ↔
        renamed.Holds A ρ ∧ alternatives.Holds A ρ) := by
  have hagrees : renamed.bindings.Agrees other.bindings := by
    intro v t u ht hu
    obtain ⟨rfl, _⟩ := Prod.mk.inj (List.mem_singleton.mp (Substitution.mem_of_get? ht))
    exact absurd hu nofun
  have hother : Built other := built_binding y (.int 1)
  have halternatives : ∀ χ ∈ alternatives, Built χ :=
    List.forall_mem_cons.mpr ⟨hother, List.forall_mem_singleton.mpr (.falsified _)⟩
  obtain ⟨⟨hformula, _⟩, hdisjunction, _⟩ :=
    merging_keeps_common_solutions renamed hother halternatives
  refine ⟨hagrees, fun V A ρ => ⟨hformula hagrees A ρ, hdisjunction (fun χ hχ => ?_) A ρ⟩⟩
  have hsame : [other] = [χ] := hχ
  obtain ⟨rfl, _⟩ := List.cons.inj hsame
  exact hagrees

end Rebound

end Entail
