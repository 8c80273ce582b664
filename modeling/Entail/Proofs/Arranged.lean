import Entail.Proofs.Readding
import Entail.Proofs.Reduced

set_option autoImplicit false

/-! # Formulas that are given back

A formula that was put together part by part is arranged: its equalities and disjunctions are in
order, and none of its equalities would be taken apart or left out if it was added again. So a tidy
and arranged formula is put together again just as it is, and this is what rewriting does if it
changes no term. -/

namespace Entail

namespace Formula

/-- At every level equalities and disjunctions are in ascending order, the equalities are normal, and
    the alternatives of a disjunction differ. -/
inductive Arranged : Formula → Prop
  | falsified (w : Equality) : Arranged (.falsified w)
  | all (s : Substitution) (es : List Equality) (ds : List Disjunction)
      (hes : Sorted.Ascending Equality.cmp es) (hnormal : Equality.Normal es)
      (hds : Sorted.Ascending Disjunction.cmp ds) (hdistinct : ∀ d ∈ ds, Disjunction.Distinct d)
      (harranged : ∀ d ∈ ds, ∀ φ ∈ d, Arranged φ) : Arranged (.all s es ds)

theorem arranged_top : top.Arranged := .all _ _ _ .nil ⟨nofun, nofun⟩ .nil nofun nofun

theorem arranged_addPart {φ : Formula} (hφ : φ.Arranged) {e : Equality} (he : e.parts = [e]) :
    (φ.addPart e).Arranged := by
  have hundivided : e.decomposed? = none :=
    Equality.decomposed_of_mem_parts (he.symm ▸ List.mem_singleton.mpr rfl)
  cases hφ with
  | falsified w => exact .falsified w
  | all s es ds hes hnormal hds hdistinct harranged =>
    have hunreversed := unreversed_addPart (φ := all s es ds) hnormal.unreversed e
    unfold addPart at hunreversed ⊢
    dsimp only at hunreversed ⊢
    split
    · exact .all s es ds hes hnormal hds hdistinct harranged
    · exact .falsified e
    · rename_i htruth
      rw [htruth] at hunreversed
      split
      · exact .all s es ds hes hnormal hds hdistinct harranged
      · rename_i hnew
        rw [if_neg hnew] at hunreversed
        refine .all s _ ds (Sorted.ascending_put e hes) ⟨fun q hq => ?_, hunreversed⟩ hds hdistinct
          harranged
        rcases Sorted.mem_put _ hq with rfl | hq
        · exact hundivided
        · exact hnormal.undivided q hq

theorem grows_arranged : Grows Arranged where
  top := arranged_top
  falsified := .falsified
  addPart := arranged_addPart
  addBinding hφ v t := by
    cases hφ with
    | falsified w => exact .falsified w
    | all s es ds hes hnormal hds hdistinct harranged =>
      unfold addBinding
      dsimp only
      split
      · exact .all _ es ds hes hnormal hds hdistinct harranged
      · exact .falsified _
  put h d hundecided hd := by
    cases h with
    | all _ _ _ hes hnormal hds hdistinct harranged =>
      refine .all _ _ _ hes hnormal (Sorted.ascending_put d hds) (fun d' hd' => ?_)
        fun d' hd' => ?_
      · rcases Sorted.mem_put _ hd' with rfl | hd'
        · exact hundecided.distinct
        · exact hdistinct d' hd'
      · rcases Sorted.mem_put _ hd' with rfl | hd'
        · exact hd
        · exact harranged d' hd'
  alternatives hφ := by
    cases hφ with
    | falsified w => exact nofun
    | all s es ds hes hnormal hds hdistinct harranged =>
      exact fun d hd => ⟨hdistinct d hd, harranged d hd⟩

/-! ## Putting a formula together again -/

/-- An undecided disjunction is stored as it is. -/
theorem addAlternatives_of_undecided {d : Disjunction} (hd : d.Undecided) (s : Substitution)
    (es : List Equality) (ds : List Disjunction) (mergeOnly : Formula → Formula) :
    (all s es ds).addAlternatives d mergeOnly = .all s es (Sorted.put Disjunction.cmp d ds) := by
  have hmembers : d.filter (!·.isFalse) = d :=
    List.filter_eq_self.mpr fun φ hφ => by rw [hd.not_false φ hφ]; rfl
  have htrue : d.any isTrue = false :=
    List.any_eq_false.mpr fun φ hφ => by rw [hd.not_true φ hφ]; nofun
  have htwo := hd.two_le
  unfold addAlternatives
  dsimp only
  rw [hmembers]
  split
  · exact absurd htwo (by simp)
  · exact absurd htwo (by simp)
  · rw [htrue, hd.distinct.ofList_eq]
    rfl

theorem addDisjunctions_of_undecided {ds : List Disjunction} (hundecided : ∀ d ∈ ds, d.Undecided)
    (s : Substitution) (es : List Equality) {kept : List Disjunction}
    (hds : Sorted.Ascending Disjunction.cmp (kept ++ ds)) :
    (all s es kept).addDisjunctions ds = .all s es (kept ++ ds) := by
  unfold addDisjunctions
  induction ds generalizing kept with
  | nil => rw [mergeDisjunctions, List.append_nil]
  | cons d ds ih =>
    rw [List.forall_mem_cons] at hundecided
    have hlast : ∀ d' ∈ kept, Disjunction.cmp d' d = .lt := fun d' hd' =>
      (List.pairwise_append.mp hds).2.2 d' hd' d (List.mem_cons_self ..)
    rw [mergeDisjunctions, addAlternatives_of_undecided hundecided.1, Sorted.put_eq_append hlast,
      ih hundecided.2 (by rwa [List.append_assoc]), List.append_assoc]
    rfl

variable {voc : Vocabulary} {facts : Facts} {f : Variable → Option Term}

theorem rewrite_disjunction_eq_self {d : Disjunction} (hd : d.Distinct)
    (h : ∀ φ ∈ d, φ.rewrite voc facts f = φ) : d.rewrite voc facts f = d := by
  rw [Disjunction.rewrite, rewriteAlternatives_eq, List.map_congr_left h, List.map_id', hd.ofList_eq]

/-- Rewriting gives a formula back if it changes no equality. -/
theorem rewrite_eq_self {φ : Formula} (harranged : φ.Arranged) (htidy : φ.Tidy)
    (hfixed : φ.Unbound fun e => e.rewrite voc facts f = e) : φ.rewrite voc facts f = φ := by
  induction φ using Formula.ind with
  | falsified w => rfl
  | all s es ds ih =>
    obtain ⟨hopen, hds⟩ := (tidy_all_iff s es ds).mp htidy
    obtain ⟨hnone, hes, hbelow⟩ := (everywhere_all_iff s es ds).mp hfixed
    cases harranged with
    | all _ _ _ hascending hnormal hdsAscending hdistinct halternatives =>
      obtain ⟨entries⟩ := s
      obtain rfl : entries = [] := hnone
      have hequalities : es.map (Equality.rewrite voc facts f) = es := by
        rw [List.map_congr_left hes, List.map_id']
      have hdisjunctions : ds.map (Disjunction.rewrite voc facts f) = ds := by
        refine (List.map_congr_left fun d hd => ?_).trans (List.map_id' ds)
        exact rewrite_disjunction_eq_self (hdistinct d hd) fun φ hφ =>
          ih d hd φ hφ (halternatives d hd φ hφ) ((hds d hd).2 φ hφ) (hbelow d hd φ hφ)
      have hadded : top.addEqualities es = .all .empty es [] :=
        addEqualities_of_normal hascending hopen hnormal .empty []
      rw [rewrite, rewriteDisjunctions_eq, hdisjunctions, Substitution.equalities, List.map_nil,
        List.nil_append, hequalities, hadded]
      exact addDisjunctions_of_undecided (fun d hd => (hds d hd).1) .empty es hdsAscending

end Formula

end Entail
