import Entail.Proofs.Ascending
import Entail.Proofs.Equivalence

set_option autoImplicit false

/-! # The order of terms and formulas is total

Terms, equalities and formulas are compared part by part, so what has to be shown is that comparing
one part after another is transitive and answers the other way round for swapped sides if this is so
for the parts. Transitivity is stated of three answers, which can be joined like the answers
themselves. -/

namespace Ordering

/-- The third answer is what the first two say, of `a` and `b`, of `b` and `c`, and of `a`
    and `c`. -/
def Fits (x y z : Ordering) : Prop := (x = .eq → z = y) ∧ (y = .eq → z = x) ∧ (x = y → z = x)

instance (x y z : Ordering) : Decidable (Fits x y z) := inferInstanceAs (Decidable (_ ∧ _))

/-- Only where the first parts are equal do the second ones count. -/
theorem Fits.then {x y z x' y' z' : Ordering} (h : Fits x y z)
    (h' : x = .eq → y = .eq → Fits x' y' z') :
    Fits (x.then x') (y.then y') (z.then z') := by
  revert x y z x' y' z'
  decide

theorem fits_gt (x : Ordering) : Fits x .gt .gt := by
  cases x <;> decide

theorem Fits.isLE_trans {x y z : Ordering} (h : Fits x y z) (hx : x.isLE) (hy : y.isLE) :
    z.isLE := by
  revert x y z
  decide

theorem fits_cmp {α : Type} (cmp : α → α → Ordering) [Std.TransCmp cmp] (a b c : α) :
    Fits (cmp a b) (cmp b c) (cmp a c) := by
  refine ⟨Std.TransCmp.congr_left, fun h => (Std.TransCmp.congr_right h).symm, fun h => ?_⟩
  cases hab : cmp a b with
  | lt => exact Std.TransCmp.lt_trans hab (h ▸ hab)
  | eq => exact Std.TransCmp.eq_trans hab (h ▸ hab)
  | gt => exact Std.TransCmp.gt_trans hab (h ▸ hab)

theorem swap_compare {α : Type} (cmp : α → α → Ordering) [Std.OrientedCmp cmp] (a b : α) :
    (cmp a b).swap = cmp b a := Std.OrientedCmp.eq_swap.symm

end Ordering

namespace Entail

open Ordering

/-! ## Names -/

instance : Std.TransCmp SortName.cmp where
  eq_swap := Std.OrientedOrd.eq_swap
  isLE_trans := Std.TransOrd.isLE_trans

instance : Std.TransCmp Variable.cmp where
  eq_swap := by
    intro v w
    rw [Variable.cmp, Variable.cmp, swap_then, swap_compare, swap_compare]
  isLE_trans := fun {v w u} => ((fits_cmp compare v.name w.name u.name).then
    fun _ _ => fits_cmp SortName.cmp v.sort w.sort u.sort).isLE_trans

instance : Std.TransCmp SymbolKind.cmp where
  eq_swap := Std.OrientedOrd.eq_swap
  isLE_trans := Std.TransOrd.isLE_trans

instance : Std.TransCmp Symbol.cmp where
  eq_swap := by
    intro f g
    rw [Symbol.cmp, Symbol.cmp, swap_then, swap_compare, swap_compare]
  isLE_trans := fun {f g h} => ((fits_cmp compare f.name g.name h.name).then
    fun _ _ => fits_cmp SymbolKind.cmp f.kind g.kind h.kind).isLE_trans

/-! ## Lists -/

namespace Sorted

variable {α : Type} {cmp : α → α → Ordering} {xs : List α}

theorem compareLists_swap (h : ∀ x ∈ xs, ∀ y, cmp x y = (cmp y x).swap) (ys : List α) :
    compareLists cmp xs ys = (compareLists cmp ys xs).swap := by
  induction xs generalizing ys with
  | nil => cases ys <;> rfl
  | cons x xs ih =>
    rw [List.forall_mem_cons] at h
    cases ys with
    | nil => rfl
    | cons y ys => rw [compareLists, compareLists, swap_then, ← h.1 y, ← ih h.2 ys]

theorem fits_compareLists (h : ∀ x ∈ xs, ∀ y z, Fits (cmp x y) (cmp y z) (cmp x z))
    (ys zs : List α) :
    Fits (compareLists cmp xs ys) (compareLists cmp ys zs) (compareLists cmp xs zs) := by
  induction xs generalizing ys zs with
  | nil => cases ys <;> cases zs <;> simp [compareLists, Fits]
  | cons x xs ih =>
    rw [List.forall_mem_cons] at h
    cases ys with
    | nil => cases zs <;> simp [compareLists, Fits]
    | cons y ys =>
      cases zs with
      | nil => exact fits_gt _
      | cons z zs => exact (h.1 y z).then fun _ _ => ih h.2 ys zs

end Sorted

/-! ## Terms -/

namespace Term

/-- Compare two optional frames; no frame comes first. -/
def cmpFrames : Option Term → Option Term → Ordering
  | none, none => .eq
  | none, some _ => .lt
  | some _, none => .gt
  | some t, some u => t.cmp u

theorem cmp_list (xs ys : List Term) (frame frame' : Option Term) :
    (list xs frame).cmp (.list ys frame') = (cmpAll xs ys).then (cmpFrames frame frame') := by
  cases frame <;> cases frame' <;> simp [cmp, cmpFrames]

theorem cmp_of_rank_ne {t u : Term} (h : t.rank ≠ u.rank) : t.cmp u = compare t.rank u.rank := by
  cases t <;> cases u <;> first | exact absurd rfl h | simp [cmp]

/-- The kinds of heads are compared first. -/
theorem cmp_eq_then (t u : Term) : t.cmp u = (compare t.rank u.rank).then (t.cmp u) := by
  by_cases h : t.rank = u.rank
  · rw [Nat.compare_eq_eq.mpr h, eq_then]
  · rw [cmp_of_rank_ne h, then_self]

/-- The heads are of one kind. -/
inductive SameKind : Term → Term → Prop
  | var (v w : Variable) : SameKind (.var v) (.var w)
  | bool (a b : Bool) : SameKind (.bool a) (.bool b)
  | int (m n : Int) : SameKind (.int m) (.int n)
  | str (a b : String) : SameKind (.str a) (.str b)
  | app (f g : Symbol) (xs ys : List Term) (s s' : SortName) : SameKind (.app f xs s) (.app g ys s')
  | builtin (op op' : Builtin) (xs ys : List Term) : SameKind (.builtin op xs) (.builtin op' ys)
  | list (xs ys : List Term) (frame frame' : Option Term) :
      SameKind (.list xs frame) (.list ys frame')
  | ite (c t e c' t' e' : Term) : SameKind (.ite c t e) (.ite c' t' e')

theorem sameKind_of_rank {t u : Term} (h : t.rank = u.rank) : SameKind t u := by
  cases t <;> cases u <;> first | constructor | exact absurd h (by simp [rank])

section Members

theorem cmpAll_eq (xs ys : List Term) : cmpAll xs ys = Sorted.compareLists cmp xs ys := by
  induction xs generalizing ys with
  | nil => cases ys <;> rfl
  | cons x xs ih =>
    cases ys with
    | nil => rfl
    | cons y ys => rw [cmpAll, Sorted.compareLists, ih]

variable {xs : List Term}

theorem cmpAll_swap (ih : ∀ x ∈ xs, ∀ u, x.cmp u = (u.cmp x).swap) (ys : List Term) :
    cmpAll xs ys = (cmpAll ys xs).swap := by
  rw [cmpAll_eq, cmpAll_eq]
  exact Sorted.compareLists_swap ih ys

theorem fits_cmpAll (ih : ∀ x ∈ xs, ∀ u v, Fits (x.cmp u) (u.cmp v) (x.cmp v))
    (ys zs : List Term) : Fits (cmpAll xs ys) (cmpAll ys zs) (cmpAll xs zs) := by
  rw [cmpAll_eq, cmpAll_eq, cmpAll_eq]
  exact Sorted.fits_compareLists ih ys zs

theorem cmpFrames_swap {frame : Option Term} (ih : ∀ t ∈ frame, ∀ u, t.cmp u = (u.cmp t).swap)
    (frame' : Option Term) : cmpFrames frame frame' = (cmpFrames frame' frame).swap := by
  cases frame with
  | none => cases frame' <;> rfl
  | some t =>
    cases frame' with
    | none => rfl
    | some u => exact ih t rfl u

theorem fits_cmpFrames {frame : Option Term}
    (ih : ∀ t ∈ frame, ∀ u v, Fits (t.cmp u) (u.cmp v) (t.cmp v)) (second third : Option Term) :
    Fits (cmpFrames frame second) (cmpFrames second third) (cmpFrames frame third) := by
  cases frame with
  | none => cases second <;> cases third <;> simp [cmpFrames, Fits]
  | some t =>
    cases second with
    | none => cases third <;> simp [cmpFrames, Fits]
    | some u =>
      cases third with
      | none => exact fits_gt _
      | some v => exact ih t rfl u v

end Members

/-- Terms with heads of different kinds are compared by these. -/
theorem swap_of_rank {t u : Term} (h : SameKind t u → t.cmp u = (u.cmp t).swap) :
    t.cmp u = (u.cmp t).swap := by
  by_cases hrank : t.rank = u.rank
  · exact h (sameKind_of_rank hrank)
  · rw [cmp_of_rank_ne hrank, cmp_of_rank_ne (Ne.symm hrank), swap_compare]

theorem cmp_swap (t u : Term) : t.cmp u = (u.cmp t).swap := by
  have lists {xs ys : List Term} {frame frame' : Option Term}
      (hxs : ∀ x ∈ xs, ∀ u, x.cmp u = (u.cmp x).swap)
      (hframe : ∀ t ∈ frame, ∀ u, t.cmp u = (u.cmp t).swap) :
      (list xs frame).cmp (.list ys frame') = ((list ys frame').cmp (.list xs frame)).swap := by
    rw [cmp_list, cmp_list, swap_then, ← cmpAll_swap hxs, ← cmpFrames_swap hframe]
  induction t using Term.ind generalizing u with
  | var v =>
    refine swap_of_rank fun hkind => ?_
    cases hkind with
    | var _ w => exact (swap_compare Variable.cmp w v).symm
  | bool b =>
    refine swap_of_rank fun hkind => ?_
    cases hkind with
    | bool _ c => exact Std.OrientedOrd.eq_swap
  | int m =>
    refine swap_of_rank fun hkind => ?_
    cases hkind with
    | int _ n => exact Std.OrientedOrd.eq_swap
  | str s =>
    refine swap_of_rank fun hkind => ?_
    cases hkind with
    | str _ s' => exact Std.OrientedOrd.eq_swap
  | app f xs s ih =>
    refine swap_of_rank fun hkind => ?_
    cases hkind with
    | app _ g _ ys _ s' =>
      rw [cmp, cmp, swap_then, swap_then, swap_compare Symbol.cmp, ← cmpAll_swap ih,
        swap_compare SortName.cmp]
  | builtin op xs ih =>
    refine swap_of_rank fun hkind => ?_
    cases hkind with
    | builtin _ op' _ ys => rw [cmp, cmp, swap_then, swap_compare, ← cmpAll_swap ih]
  | closed xs ih =>
    refine swap_of_rank fun hkind => ?_
    cases hkind with
    | list _ ys _ frame' => exact lists ih fun _ h => absurd h (Option.not_mem_none _)
  | framed xs frame ih ihframe =>
    refine swap_of_rank fun hkind => ?_
    cases hkind with
    | list _ ys _ frame' =>
      refine lists ih fun t ht => ?_
      obtain rfl := Option.mem_some_iff.mp ht
      exact ihframe
  | ite c t e ihc iht ihe =>
    refine swap_of_rank fun hkind => ?_
    cases hkind with
    | ite _ _ _ c' t' e' => rw [cmp, cmp, swap_then, swap_then, ← ihc, ← iht, ← ihe]

/-- Only where all heads are of one kind do the parts matter. -/
theorem fits_of_rank {t u v : Term}
    (h : SameKind t u → SameKind u v → Fits (t.cmp u) (u.cmp v) (t.cmp v)) :
    Fits (t.cmp u) (u.cmp v) (t.cmp v) := by
  rw [cmp_eq_then t u, cmp_eq_then u v, cmp_eq_then t v]
  exact (fits_cmp compare t.rank u.rank v.rank).then fun htu huv =>
    h (sameKind_of_rank (Nat.compare_eq_eq.mp htu)) (sameKind_of_rank (Nat.compare_eq_eq.mp huv))

theorem fits_cmp_term (t u v : Term) : Fits (t.cmp u) (u.cmp v) (t.cmp v) := by
  have lists {xs ys zs : List Term} {first second third : Option Term}
      (hxs : ∀ x ∈ xs, ∀ u v, Fits (x.cmp u) (u.cmp v) (x.cmp v))
      (hframe : ∀ t ∈ first, ∀ u v, Fits (t.cmp u) (u.cmp v) (t.cmp v)) :
      Fits ((list xs first).cmp (.list ys second)) ((list ys second).cmp (.list zs third))
        ((list xs first).cmp (.list zs third)) := by
    rw [cmp_list, cmp_list, cmp_list]
    exact (fits_cmpAll hxs ys zs).then fun _ _ => fits_cmpFrames hframe second third
  induction t using Term.ind generalizing u v with
  | var x =>
    refine fits_of_rank fun htu huv => ?_
    cases htu with
    | var _ y =>
      cases huv with
      | var _ z => exact fits_cmp Variable.cmp x y z
  | bool a =>
    refine fits_of_rank fun htu huv => ?_
    cases htu with
    | bool _ b =>
      cases huv with
      | bool _ c => exact fits_cmp compare a b c
  | int m =>
    refine fits_of_rank fun htu huv => ?_
    cases htu with
    | int _ n =>
      cases huv with
      | int _ k => exact fits_cmp compare m n k
  | str a =>
    refine fits_of_rank fun htu huv => ?_
    cases htu with
    | str _ b =>
      cases huv with
      | str _ c => exact fits_cmp compare a b c
  | app f xs s ih =>
    refine fits_of_rank fun htu huv => ?_
    cases htu with
    | app _ g _ ys _ s₂ =>
      cases huv with
      | app _ h _ zs _ s₃ =>
        rw [cmp, cmp, cmp]
        exact (fits_cmp Symbol.cmp f g h).then fun _ _ =>
          (fits_cmpAll ih ys zs).then fun _ _ => fits_cmp SortName.cmp s s₂ s₃
  | builtin op xs ih =>
    refine fits_of_rank fun htu huv => ?_
    cases htu with
    | builtin _ op₂ _ ys =>
      cases huv with
      | builtin _ op₃ _ zs =>
        rw [cmp, cmp, cmp]
        exact (fits_cmp compare op.rank op₂.rank op₃.rank).then fun _ _ => fits_cmpAll ih ys zs
  | closed xs ih =>
    refine fits_of_rank fun htu huv => ?_
    cases htu with
    | list _ ys _ second =>
      cases huv with
      | list _ zs _ third => exact lists ih fun _ h => absurd h (Option.not_mem_none _)
  | framed xs frame ih ihframe =>
    refine fits_of_rank fun htu huv => ?_
    cases htu with
    | list _ ys _ second =>
      cases huv with
      | list _ zs _ third =>
        refine lists ih fun t ht => ?_
        obtain rfl := Option.mem_some_iff.mp ht
        exact ihframe
  | ite c t e ihc iht ihe =>
    refine fits_of_rank fun htu huv => ?_
    cases htu with
    | ite _ _ _ c₂ t₂ e₂ =>
      cases huv with
      | ite _ _ _ c₃ t₃ e₃ =>
        rw [cmp, cmp, cmp]
        exact (ihc c₂ c₃).then fun _ _ => (iht t₂ t₃).then fun _ _ => ihe e₂ e₃

instance : Std.TransCmp Term.cmp where
  eq_swap {t u} := cmp_swap t u
  isLE_trans {t u v} := (fits_cmp_term t u v).isLE_trans

end Term

instance : Std.TransCmp Equality.cmp where
  eq_swap := by
    intro e e'
    rw [Equality.cmp, Equality.cmp, swap_then, swap_compare Term.cmp,
      swap_compare Term.cmp]
  isLE_trans {a b c} := ((Term.fits_cmp_term a.lhs b.lhs c.lhs).then
    fun _ _ => Term.fits_cmp_term a.rhs b.rhs c.rhs).isLE_trans

/-! ## Formulas -/

theorem Substitution.cmp_swap (s s' : Substitution) : s.cmp s' = (s'.cmp s).swap := by
  refine Sorted.compareLists_swap (fun entry _ entry' => ?_) _
  rw [swap_then, swap_compare Variable.cmp, swap_compare Term.cmp]

theorem Substitution.fits_cmp (s s' s'' : Substitution) :
    Fits (s.cmp s') (s'.cmp s'') (s.cmp s'') :=
  Sorted.fits_compareLists (fun x _ y z => (Ordering.fits_cmp Variable.cmp x.1 y.1 z.1).then
    fun _ _ => Ordering.fits_cmp Term.cmp x.2 y.2 z.2) _ _

namespace Formula

/-- The empty conjunction comes first, then what was found false, then everything else. -/
def rank (φ : Formula) : Nat := if φ.isTrue then 0 else if φ.isFalse then 1 else 2

theorem cmp_of_rank_ne {φ ψ : Formula} (h : φ.rank ≠ ψ.rank) :
    φ.cmp ψ = compare φ.rank ψ.rank := by
  cases φ with
  | falsified w =>
    cases ψ with
    | falsified w' => exact absurd rfl h
    | all s es ds =>
      rw [cmp, rank, rank, isTrue, isTrue]
      split <;> rfl
  | all s es ds =>
    cases ψ with
    | falsified w =>
      rw [cmp, rank, rank, isTrue, isTrue]
      split <;> rfl
    | all s' es' ds' =>
      obtain ⟨entries⟩ := s
      obtain ⟨entries'⟩ := s'
      -- one of the two is empty, and lists are compared one after the other
      cases entries <;> cases entries' <;> cases es <;> cases es' <;> cases ds <;> cases ds' <;>
        first | exact absurd rfl h | rfl

theorem cmp_eq_then (φ ψ : Formula) :
    φ.cmp ψ = (compare φ.rank ψ.rank).then (φ.cmp ψ) := by
  by_cases h : φ.rank = ψ.rank
  · rw [Nat.compare_eq_eq.mpr h, eq_then]
  · rw [cmp_of_rank_ne h, then_self]

theorem cmp_swap (φ ψ : Formula) : φ.cmp ψ = (ψ.cmp φ).swap := by
  induction φ using Formula.ind generalizing ψ with
  | falsified w =>
    cases ψ with
    | falsified w' => exact (swap_compare Equality.cmp w' w).symm
    | all s es ds =>
      rw [cmp, cmp]
      split <;> rfl
  | all s es ds ih =>
    cases ψ with
    | falsified w =>
      rw [cmp, cmp]
      split <;> rfl
    | all s' es' ds' =>
      have hes := Sorted.compareLists_swap
        (fun e (_ : e ∈ es) e' => (swap_compare Equality.cmp e' e).symm) es'
      have hds := Sorted.compareLists_swap (fun d hd d' => Sorted.compareLists_swap (ih d hd) d') ds'
      rw [cmp, cmp, cmpDisjunctions_eq, cmpDisjunctions_eq, swap_then, swap_then,
        ← Substitution.cmp_swap, ← hes, ← hds]

theorem fits_cmp_formula (φ ψ χ : Formula) : Fits (φ.cmp ψ) (ψ.cmp χ) (φ.cmp χ) := by
  -- formulas of one rank are compared alike
  have ranks {φ ψ χ : Formula} (h : φ.rank = ψ.rank → ψ.rank = χ.rank →
      Fits (φ.cmp ψ) (ψ.cmp χ) (φ.cmp χ)) : Fits (φ.cmp ψ) (ψ.cmp χ) (φ.cmp χ) := by
    rw [cmp_eq_then φ ψ, cmp_eq_then ψ χ, cmp_eq_then φ χ]
    exact (Ordering.fits_cmp compare φ.rank ψ.rank χ.rank).then fun hφψ hψχ =>
      h (Nat.compare_eq_eq.mp hφψ) (Nat.compare_eq_eq.mp hψχ)
  have kinds {w : Equality} {s : Substitution} {es : List Equality} {ds : List Disjunction} :
      (falsified w).rank ≠ (all s es ds).rank := by
    have hfalse : (falsified w).rank = 1 := rfl
    have hall : (all s es ds).rank = if (all s es ds).isTrue then 0 else 2 := rfl
    rw [hfalse, hall]
    split <;> simp
  induction φ using Formula.ind generalizing ψ χ with
  | falsified w =>
    refine ranks fun hφψ hψχ => ?_
    cases ψ with
    | all s es ds => exact absurd hφψ kinds
    | falsified w' =>
      cases χ with
      | all s es ds => exact absurd hψχ kinds
      | falsified w'' => exact Ordering.fits_cmp Equality.cmp w w' w''
  | all s es ds ih =>
    refine ranks fun hφψ hψχ => ?_
    cases ψ with
    | falsified w => exact absurd hφψ.symm kinds
    | all s' es' ds' =>
      cases χ with
      | falsified w => exact absurd hψχ.symm kinds
      | all s'' es'' ds'' =>
        rw [cmp, cmp, cmp, cmpDisjunctions_eq, cmpDisjunctions_eq, cmpDisjunctions_eq]
        refine (Substitution.fits_cmp s s' s'').then fun _ _ => ?_
        refine (Sorted.fits_compareLists
          (fun e _ => Ordering.fits_cmp Equality.cmp e) es' es'').then fun _ _ => ?_
        exact Sorted.fits_compareLists
          (fun d hd => Sorted.fits_compareLists (ih d hd)) ds' ds''

instance : Std.TransCmp Formula.cmp where
  eq_swap {φ ψ} := cmp_swap φ ψ
  isLE_trans {φ ψ χ} := (fits_cmp_formula φ ψ χ).isLE_trans

end Formula

instance : Std.TransCmp Disjunction.cmp where
  eq_swap {d d'} := by
    rw [Disjunction.cmp, Disjunction.cmp, Formula.cmpAlternatives_eq, Formula.cmpAlternatives_eq]
    exact Sorted.compareLists_swap (fun φ _ => φ.cmp_swap) d'
  isLE_trans {d d' d''} := by
    rw [Disjunction.cmp, Disjunction.cmp, Disjunction.cmp, Formula.cmpAlternatives_eq,
      Formula.cmpAlternatives_eq, Formula.cmpAlternatives_eq]
    exact (Sorted.fits_compareLists (fun φ _ => φ.fits_cmp_formula) d' d'').isLE_trans

end Entail
