import Entail.Proofs.Representation

set_option autoImplicit false

/-! # What is stored can be added again

A formula stores equalities part by part, so that what it stores is not taken apart again when it is
added to another formula. Only simplification stores equalities as they come, and those were
rewritten, so that all lists in them are flat. No variable is bound twice. -/

namespace Entail

namespace Equality

/-- The equality is one part, or all lists in it are flat. -/
def Stored (e : Equality) : Prop := e.parts = [e] ∨ e.All Term.FlatHead

end Equality

namespace Formula

/-- Each variable is bound at most once, and every equality can be added again, also in the
    alternatives. -/
abbrev WellStored : Formula → Prop := Everywhere Substitution.Single Equality.Stored

variable {φ ψ : Formula}

theorem Unbound.wellStored (h : φ.Unbound (Equality.All Term.FlatHead)) : φ.WellStored :=
  Everywhere.mono (fun s hs => by
    intro entry hentry
    rw [hs] at hentry
    exact absurd hentry List.not_mem_nil) (fun _ => .inr) h

/-! ## Adding -/

theorem wellStored_top : top.WellStored := everywhere_top Substitution.single_empty

theorem wellStored_addEquality (hφ : φ.WellStored) (e : Equality) : (φ.addEquality e).WellStored :=
  everywhere_addEquality_of_parts hφ fun _ hq => .inl (Equality.parts_of_mem_parts hq)

theorem wellStored_addEqualities (hφ : φ.WellStored) (es : List Equality) :
    (φ.addEqualities es).WellStored := by
  unfold addEqualities
  induction es generalizing φ with
  | nil => exact hφ
  | cons e es ih => exact ih (wellStored_addEquality hφ e)

theorem wellStored_addBindings (hφ : φ.WellStored) (entries : List (Variable × Term)) :
    (φ.addBindings entries).WellStored :=
  everywhere_addBindings (fun _ _ _ _ _ hs hbind => hs.bind hbind) hφ

theorem wellStored_merge (hψ : ψ.WellStored) (hφ : φ.WellStored) : (merge ψ φ).WellStored := by
  induction ψ using Formula.ind generalizing φ with
  | falsified w =>
    rw [merge]
    split
    · exact hφ
    · trivial
  | all s es ds ih =>
    obtain ⟨_, _, hds⟩ := (everywhere_all_iff s es ds).mp hψ
    rw [merge]
    exact everywhere_mergeDisjunctions hds (fun d hd ψ hψ φ hφ => ih d hd ψ hψ (hds d hd ψ hψ) hφ)
      (wellStored_addEqualities (wellStored_addBindings hφ s.entries) es)

theorem wellStored_addDisjunctions (hφ : φ.WellStored) {ds : List Disjunction}
    (hds : ∀ d ∈ ds, ∀ ψ ∈ d, Formula.WellStored ψ) : (φ.addDisjunctions ds).WellStored :=
  everywhere_mergeDisjunctions hds (fun d hd ψ hψ _ hφ => wellStored_merge (hds d hd ψ hψ) hφ) hφ

/-! ## Simplifying -/

/-- All that is left was rewritten, whatever was simplified. -/
theorem wellStored_simplifyWithin {S : Formula} {voc : Vocabulary} {unifier : Unifier}
    {mode : SimplifyMode} {steps : Nat} (h : φ.simplifyWithin voc unifier mode steps = .ok S) :
    S.WellStored := by
  obtain ⟨last, hsteps, hlast⟩ := Worklist.exists_leads_of_run h
  have hcurrent := (Worklist.current_ofFormula φ).run hsteps
  have hvisited : ∀ e ∈ last.visited, e.All Term.FlatHead := by
    refine Worklist.forall_visited_run (fun _ e _ _ => flat_rewrite voc _ _ e) ?_ hsteps
    exact fun _ => nofun
  obtain ⟨_, a, habsorb, _, rfl⟩ := Worklist.next_inr_cases hlast
  have hds := (Worklist.each_absorb (p := Term.FlatHead) (fun _ => trivial)
    (fun t _ => Term.flat_evaluate voc _ _) (fun _ _ φ _ => within_any φ) habsorb).2
  refine (everywhere_all_iff _ _ _).mpr ⟨hcurrent.resolved.single, fun e he => ?_,
    fun d hd ψ hψ => ?_⟩
  · exact .inr (hvisited e (Sorted.mem_ofListLast he))
  · exact (hds d (Sorted.mem_dedup (Sorted.mem_ofListLast hd)) ψ hψ).wellStored

/-! ## All formulas are well stored -/

theorem kept_wellStored : Kept WellStored where
  top := wellStored_top
  falsified _ := trivial
  subset {s s' es es' ds ds'} h hs hes hds := by
    obtain ⟨hsingle, hstored, halternatives⟩ := (everywhere_all_iff s es ds).mp h
    exact (everywhere_all_iff s' es' ds').mpr ⟨hsingle.subset hs, fun e he => hstored e (hes he),
      fun d hd => halternatives d (hds hd)⟩
  alternative {φ ψ d} hφ hd hψ := by
    cases φ with
    | falsified w => exact absurd hd List.not_mem_nil
    | all s es ds => exact ((everywhere_all_iff s es ds).mp hφ).2.2 d hd ψ hψ
  addEquality := wellStored_addEquality
  addBinding hφ v t := wellStored_addBindings hφ [(v, t)]
  addDisjunction hφ _ hψs := wellStored_addDisjunctions hφ
    (List.forall_mem_singleton.mpr fun ψ hψ => hψs ψ (Sorted.mem_dedup hψ))
  merge := wellStored_merge
  addRewritten hφ voc facts f ds := wellStored_addDisjunctions hφ fun d hd ψ hψ =>
    (flat_members voc facts f ds d hd ψ hψ).wellStored
  simplifyWithin := wellStored_simplifyWithin

theorem Built.wellStored (h : Built φ) : φ.WellStored := h.of_kept kept_wellStored

end Formula

end Entail
