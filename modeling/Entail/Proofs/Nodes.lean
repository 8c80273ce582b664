import Entail.Proofs.Passes
import Mathlib.Algebra.GroupWithZero.Nat
import Mathlib.Algebra.Order.BigOperators.Group.List
import Mathlib.Algebra.Order.Group.Nat

set_option autoImplicit false

/-! # Disjunctions come to an end

Rewriting and absorbing disjunctions never adds one, at any depth of nesting, and a disjunction that
collapses is gone. So disjunctions collapse only finitely often. -/

namespace Entail

namespace Formula

mutual

/-- The number of disjunctions in a formula, at any depth. -/
def nodes : Formula → Nat
  | .falsified _ => 0
  | .all _ _ ds => nodesIn ds
termination_by structural φ => φ

def nodesIn : List (List Formula) → Nat
  | [] => 0
  | d :: ds => nodesOf d + 1 + nodesIn ds
termination_by structural ds => ds

def nodesOf : List Formula → Nat
  | [] => 0
  | φ :: φs => φ.nodes + nodesOf φs
termination_by structural φs => φs

end

theorem nodesOf_eq (d : Disjunction) : nodesOf d = (d.map nodes).sum := by
  induction d with
  | nil => rfl
  | cons φ d ih => rw [nodesOf, ih, List.map_cons, List.sum_cons]

theorem nodesIn_eq (ds : List Disjunction) :
    nodesIn ds = (ds.map fun d => nodesOf d + 1).sum := by
  induction ds with
  | nil => rfl
  | cons d ds ih => rw [nodesIn, ih, List.map_cons, List.sum_cons]

theorem nodesIn_append (ds ds' : List Disjunction) :
    nodesIn (ds ++ ds') = nodesIn ds + nodesIn ds' := by
  rw [nodesIn_eq, nodesIn_eq, nodesIn_eq, List.map_append, List.sum_append]

end Formula

/-! ## Sets -/

namespace Sorted

variable {α : Type} {cmp : α → α → Ordering}

/-- Dropping repeated elements gives a rearranged part of a list. -/
theorem dedup_subperm (xs : List α) : (dedup cmp xs).Subperm xs := by
  have fold (kept : List α) :
      (xs.foldl (fun kept x => if contains cmp x kept then kept else x :: kept) kept).Subperm
        (xs ++ kept) := by
    induction xs generalizing kept with
    | nil => exact List.Subperm.refl _
    | cons x xs ih =>
      rw [List.foldl_cons]
      split
      · exact (ih kept).trans (List.sublist_cons_self x (xs ++ kept)).subperm
      · exact (ih (x :: kept)).trans List.perm_middle.subperm
  have hfold := fold []
  rw [List.append_nil] at hfold
  exact (List.reverse_perm _).subperm.trans hfold

theorem sum_dedup_le (f : α → Nat) (xs : List α) :
    ((dedup cmp xs).map f).sum ≤ (xs.map f).sum := by
  obtain ⟨ys, hperm, hsub⟩ : (dedup cmp xs).Subperm xs := dedup_subperm xs
  rw [← (hperm.map f).sum_eq]
  exact (hsub.map f).sum_le_sum fun _ _ => Nat.zero_le _

theorem sum_put_le (f : α → Nat) (x : α) (xs : List α) :
    ((put cmp x xs).map f).sum ≤ f x + (xs.map f).sum := by
  induction xs with
  | nil => exact Nat.le_refl _
  | cons y xs ih =>
    unfold put
    split
    · exact Nat.le_refl _
    · simp only [List.map_cons, List.sum_cons]
      omega
    · simp only [List.map_cons, List.sum_cons]
      omega

end Sorted

namespace Formula

/-! ## Adding to a formula -/

theorem nodes_addEquality (φ : Formula) (e : Equality) : (φ.addEquality e).nodes ≤ φ.nodes := by
  have part (φ : Formula) (e : Equality) : (φ.addPart e).nodes ≤ φ.nodes := by
    cases φ with
    | falsified w => exact Nat.le_refl _
    | all s es ds =>
      unfold addPart
      dsimp only
      split
      · exact Nat.le_refl _
      · exact Nat.zero_le _
      · split <;> exact Nat.le_refl _
  unfold addEquality
  generalize e.parts = es
  induction es generalizing φ with
  | nil => exact Nat.le_refl _
  | cons e es ih => exact Nat.le_trans (ih _) (part φ e)

theorem nodes_addEqualities (φ : Formula) (es : List Equality) :
    (φ.addEqualities es).nodes ≤ φ.nodes := by
  unfold addEqualities
  induction es generalizing φ with
  | nil => exact Nat.le_refl _
  | cons e es ih => exact Nat.le_trans (ih _) (nodes_addEquality φ e)

theorem nodes_addBindings (φ : Formula) (entries : List (Variable × Term)) :
    (φ.addBindings entries).nodes ≤ φ.nodes := by
  have one (φ : Formula) (v : Variable) (t : Term) : (φ.addBinding v t).nodes ≤ φ.nodes := by
    cases φ with
    | falsified w => exact Nat.le_refl _
    | all s es ds =>
      unfold addBinding
      dsimp only
      split
      · exact Nat.le_refl _
      · exact Nat.zero_le _
  unfold addBindings
  induction entries generalizing φ with
  | nil => exact Nat.le_refl _
  | cons entry entries ih => exact Nat.le_trans (ih _) (one φ entry.1 entry.2)

theorem nodesOf_filter (keep : Formula → Bool) (d : Disjunction) :
    nodesOf (d.filter keep) ≤ nodesOf d := by
  rw [nodesOf_eq, nodesOf_eq]
  exact (List.filter_sublist.map nodes).sum_le_sum fun _ _ => Nat.zero_le _

theorem nodesOf_ofList (d : Disjunction) : nodesOf (Disjunction.ofList d) ≤ nodesOf d := by
  rw [nodesOf_eq, nodesOf_eq]
  exact Sorted.sum_dedup_le nodes d

/-- A disjunction comes with its alternatives, and with one more node if it stays. -/
theorem nodes_addAlternatives {φ : Formula} {d : Disjunction} {mergeOnly : Formula → Formula}
    (hmerge : (mergeOnly φ).nodes ≤ φ.nodes + nodesOf d) :
    (φ.addAlternatives d mergeOnly).nodes ≤ φ.nodes + (nodesOf d + 1) := by
  cases φ with
  | falsified w => exact Nat.zero_le _
  | all s es ds =>
    unfold addAlternatives
    dsimp only
    split
    · exact Nat.zero_le _
    · exact Nat.le_trans hmerge (Nat.le_succ _)
    · split
      · exact Nat.le_add_right ..
      · have hput (d' : Disjunction) :
            nodesIn (Sorted.put Disjunction.cmp d' ds) ≤ nodesOf d' + 1 + nodesIn ds := by
          rw [nodesIn_eq, nodesIn_eq]
          exact Sorted.sum_put_le _ d' ds
        have hds := hput (Disjunction.ofList (d.filter (!·.isFalse)))
        have hkept := Nat.le_trans (nodesOf_ofList (d.filter (!·.isFalse)))
          (nodesOf_filter (!·.isFalse) d)
        rw [nodes, nodes]
        omega

theorem nodes_mergeFirst {d : Disjunction} {φ : Formula}
    (ih : ∀ ψ ∈ d, (merge ψ φ).nodes ≤ φ.nodes + ψ.nodes) :
    (mergeFirst d φ).nodes ≤ φ.nodes + nodesOf d := by
  induction d with
  | nil => exact Nat.le_refl _
  | cons ψ d ihd =>
    rw [List.forall_mem_cons] at ih
    rw [mergeFirst, nodesOf]
    split
    · exact Nat.le_trans (ihd ih.2) (by omega)
    · exact Nat.le_trans ih.1 (by omega)

theorem nodes_mergeDisjunctions {ds : List Disjunction}
    (ih : ∀ d ∈ ds, ∀ ψ ∈ d, ∀ φ : Formula, (merge ψ φ).nodes ≤ φ.nodes + ψ.nodes)
    (φ : Formula) : (mergeDisjunctions ds φ).nodes ≤ φ.nodes + nodesIn ds := by
  induction ds generalizing φ with
  | nil => exact Nat.le_refl _
  | cons d ds ihds =>
    rw [List.forall_mem_cons] at ih
    have hrest := ihds ih.2 (φ.addAlternatives d (mergeFirst d))
    have hd := nodes_addAlternatives (nodes_mergeFirst fun ψ hψ => ih.1 ψ hψ φ)
    rw [mergeDisjunctions, nodesIn]
    omega

theorem nodes_merge (ψ φ : Formula) : (merge ψ φ).nodes ≤ φ.nodes + ψ.nodes := by
  induction ψ using Formula.ind generalizing φ with
  | falsified w =>
    rw [merge]
    split
    · exact Nat.le_add_right ..
    · exact Nat.zero_le _
  | all s es ds ih =>
    have hbindings := nodes_addBindings φ s.entries
    have hequalities := nodes_addEqualities (φ.addBindings s.entries) es
    have hmerged := nodes_mergeDisjunctions ih ((φ.addBindings s.entries).addEqualities es)
    rw [merge]
    change _ ≤ φ.nodes + nodesIn ds
    omega

theorem nodes_addDisjunctions (φ : Formula) (ds : List Disjunction) :
    (φ.addDisjunctions ds).nodes ≤ φ.nodes + nodesIn ds :=
  nodes_mergeDisjunctions (fun _ _ ψ _ φ => nodes_merge ψ φ) φ

/-! ## Rewriting -/

variable {voc : Vocabulary} {facts : Facts} {f : Variable → Option Term}

theorem nodesOf_rewrite {d : Disjunction}
    (ih : ∀ φ ∈ d, (φ.rewrite voc facts f).nodes ≤ φ.nodes) :
    nodesOf (Disjunction.rewrite voc facts f d) ≤ nodesOf d := by
  refine Nat.le_trans (nodesOf_ofList _) ?_
  rw [rewriteAlternatives_eq, nodesOf_eq, nodesOf_eq, List.map_map]
  exact List.sum_le_sum ih

theorem nodes_rewrite (voc : Vocabulary) (facts : Facts) (f : Variable → Option Term)
    (φ : Formula) : (φ.rewrite voc facts f).nodes ≤ φ.nodes := by
  induction φ using Formula.ind with
  | falsified w => exact Nat.le_refl _
  | all s es ds ih =>
    have hequalities := nodes_addEqualities top ((s.equalities ++ es).map (.rewrite voc facts f))
    have hadded := nodes_addDisjunctions
      (top.addEqualities ((s.equalities ++ es).map (.rewrite voc facts f)))
      (ds.map (Disjunction.rewrite voc facts f))
    have hds : nodesIn (ds.map (Disjunction.rewrite voc facts f)) ≤ nodesIn ds := by
      rw [nodesIn_eq, nodesIn_eq, List.map_map]
      exact List.sum_le_sum fun d hd => Nat.succ_le_succ (nodesOf_rewrite (ih d hd))
    have htop : top.nodes = 0 := rfl
    rw [rewrite, rewriteDisjunctions_eq]
    change _ ≤ nodesIn ds
    omega

end Formula

/-! ## Absorbing -/

namespace Worklist

open Formula

variable {voc : Vocabulary} {s : Substitution} {ds : List Disjunction} {a : Absorbed}

/-- A disjunction added to nothing stays as the only part, or leaves fewer disjunctions. -/
theorem nodes_added {d : Disjunction} {t : Substitution} {es : List Equality}
    {kept : List Disjunction} (h : Formula.top.addDisjunction d = .all t es kept) :
    nodesIn kept ≤ nodesOf d + 1 ∧
      ((kept.length == 1 && es.isEmpty && t.isEmpty) = false → nodesIn kept < nodesOf d + 1) := by
  have hadded := nodes_addDisjunctions Formula.top [d]
  have htop : Formula.top.nodes = 0 := rfl
  rw [addDisjunction] at h
  rw [h, nodes, nodesIn, nodesIn, htop] at hadded
  refine ⟨by omega, fun hstays => ?_⟩
  rw [addDisjunctions, mergeDisjunctions, mergeDisjunctions, Formula.top, addAlternatives] at h
  split at h
  · exact absurd h (by simp)
  · -- the only alternative is merged, and the disjunction is gone
    have hfirst := nodes_mergeFirst fun ψ (_ : ψ ∈ d) => nodes_merge ψ Formula.top
    rw [Formula.top, h, nodes] at hfirst
    change nodesIn kept ≤ 0 + nodesOf d at hfirst
    omega
  · split at h
    · obtain ⟨rfl, rfl, rfl⟩ := Formula.all.inj h
      exact Nat.succ_pos _
    · obtain ⟨rfl, rfl, rfl⟩ := Formula.all.inj h
      exact absurd hstays (by simp [Sorted.put, Substitution.isEmpty, Substitution.empty])

/-- Absorbing leaves no more disjunctions, and fewer if one collapses. -/
theorem nodes_absorb (h : absorb voc s ds = .ok a) :
    nodesIn a.disjunctions ≤ nodesIn ds ∧
      (a.collapsed = true → nodesIn a.disjunctions < nodesIn ds) := by
  induction ds generalizing a with
  | nil =>
    obtain rfl := Except.ok.inj h
    exact ⟨Nat.le_refl _, by simp⟩
  | cons d ds ih =>
    rw [absorb] at h
    split at h
    · exact absurd h (by simp)
    · rename_i t es kept hadded
      split at h
      · exact absurd h (by simp)
      · rename_i rest hrest
        obtain rfl := Except.ok.inj h
        obtain ⟨hle, hlt⟩ := ih hrest
        obtain ⟨hkept, hgone⟩ := nodes_added hadded
        have hd : nodesOf (d.rewrite voc .unknown s.get?) ≤ nodesOf d :=
          nodesOf_rewrite fun φ _ => nodes_rewrite voc .unknown s.get? φ
        dsimp only
        rw [nodesIn_append, nodesIn]
        refine ⟨by omega, fun hcollapsed => ?_⟩
        rw [Bool.or_eq_true, Bool.and_eq_true, Bool.not_eq_true'] at hcollapsed
        rcases hcollapsed with ⟨hstays, _⟩ | hrestCollapsed
        · have hfewer := hgone hstays
          omega
        · have hfewer := hlt hrestCollapsed
          omega

end Worklist

end Entail
