import Entail.Formula.Basic
import Entail.Term.Clash
import Entail.Term.Rewrite

set_option autoImplicit false

/-! # Induction over terms and formulas

Terms nest through lists of terms and through optional frames, formulas through disjunctions. The
principles here have one motive and give a hypothesis for every member of a list; the companions of
the walks over terms are written as functions on lists, so that such hypotheses apply to them. -/

namespace Entail

/-- Induction over terms, with a hypothesis for each member of a list of terms. -/
@[elab_as_elim]
theorem Term.ind {P : Term → Prop}
    (var : ∀ v, P (.var v)) (bool : ∀ b, P (.bool b)) (int : ∀ n, P (.int n))
    (str : ∀ s, P (.str s))
    (app : ∀ f xs s, (∀ x ∈ xs, P x) → P (.app f xs s))
    (builtin : ∀ op xs, (∀ x ∈ xs, P x) → P (.builtin op xs))
    (closed : ∀ xs, (∀ x ∈ xs, P x) → P (.list xs none))
    (framed : ∀ xs frame, (∀ x ∈ xs, P x) → P frame → P (.list xs (some frame)))
    (ite : ∀ c t e, P c → P t → P e → P (.ite c t e)) (t : Term) : P t := by
  refine Term.rec (motive_1 := P) (motive_2 := fun xs => ∀ x ∈ xs, P x)
    (motive_3 := fun frame => ∀ u ∈ frame, P u) var bool int str app builtin ?_ ite ?_ ?_ ?_ ?_ t
  · intro xs frame hxs hframe
    cases frame with
    | none => exact closed xs hxs
    | some u => exact framed xs u hxs (hframe u rfl)
  · intro x hx
    exact absurd hx List.not_mem_nil
  · intro x xs hx hxs y hy
    rcases List.mem_cons.mp hy with rfl | hy
    · exact hx
    · exact hxs y hy
  · intro u hu
    exact absurd hu (by simp)
  · intro u hu v hv
    obtain rfl : u = v := by simpa using hv
    exact hu

/-- Induction over formulas, with a hypothesis for each alternative of each disjunction. -/
@[elab_as_elim]
theorem Formula.ind {P : Formula → Prop} (falsified : ∀ w, P (.falsified w))
    (all : ∀ s es ds, (∀ d ∈ ds, ∀ φ ∈ d, P φ) → P (.all s es ds)) (φ : Formula) : P φ := by
  refine Formula.rec (motive_1 := P) (motive_2 := fun ds => ∀ d ∈ ds, ∀ φ ∈ d, P φ)
    (motive_3 := fun d => ∀ φ ∈ d, P φ) falsified all ?_ ?_ ?_ ?_ φ
  · intro d hd
    exact absurd hd List.not_mem_nil
  · intro d ds hd hds d' hd'
    rcases List.mem_cons.mp hd' with rfl | hd'
    · exact hd
    · exact hds d' hd'
  · intro φ hφ
    exact absurd hφ List.not_mem_nil
  · intro φ d hφ hd ψ hψ
    rcases List.mem_cons.mp hψ with rfl | hψ
    · exact hφ
    · exact hd ψ hψ

/-! ## Lists -/

theorem lookup_cons {α β : Type} [DecidableEq α] (entry : α × β) (entries : List (α × β)) (a : α) :
    (entry :: entries).lookup a = if a = entry.1 then some entry.2 else entries.lookup a := by
  rw [List.lookup_cons]
  split
  · rename_i h
    rw [if_pos (beq_iff_eq.mp h)]
  · rename_i h
    rw [if_neg (by simpa using h)]

theorem map_map_congr {α β γ : Type} {f : β → γ} {g : α → β} {h : α → γ} {xs : List α}
    (hxs : ∀ x ∈ xs, f (g x) = h x) : (xs.map g).map f = xs.map h := by
  rw [List.map_map]
  exact List.map_congr_left hxs

/-! ## Companions as functions on lists -/

namespace Term

theorem allOccurrences_eq (ts : List Term) : allOccurrences ts = ts.flatMap occurrences := by
  induction ts with
  | nil => rfl
  | cons t ts ih => rw [allOccurrences, ih, List.flatMap_cons]

theorem allConditions_eq (ts : List Term) : allConditions ts = ts.flatMap conditions := by
  induction ts with
  | nil => rfl
  | cons t ts ih => rw [allConditions, ih, List.flatMap_cons]

theorem allNormal_eq (ts : List Term) : allNormal ts = ts.all isNormal := by
  induction ts with
  | nil => rfl
  | cons t ts ih => rw [allNormal, ih, List.all_cons]

theorem substituteAll_eq (f : Variable → Option Term) (ts : List Term) :
    substituteAll f ts = ts.map (substitute f) := by
  induction ts with
  | nil => rfl
  | cons t ts ih => rw [substituteAll, ih, List.map_cons]

theorem evaluateAll_eq (voc : Vocabulary) (facts : Facts) (ts : List Term) :
    evaluateAll voc facts ts = ts.map (evaluate voc facts) := by
  induction ts with
  | nil => rfl
  | cons t ts ih => rw [evaluateAll, ih, List.map_cons]

theorem clashesSomewhere_iff (xs ys : List Term) :
    clashesSomewhere xs ys = true ↔ ∃ p ∈ xs.zip ys, p.1.clashes p.2 = true := by
  induction xs generalizing ys with
  | nil => simp [clashesSomewhere]
  | cons x xs ih =>
    cases ys with
    | nil => simp [clashesSomewhere]
    | cons y ys => simp [clashesSomewhere, ih]

end Term

namespace Formula

theorem occurrencesOf_eq (d : Disjunction) : occurrencesOf d = d.flatMap occurrences := by
  induction d with
  | nil => rfl
  | cons φ d ih => rw [occurrencesOf, ih, List.flatMap_cons]

theorem occurrencesIn_eq (ds : List Disjunction) :
    occurrencesIn ds = ds.flatMap fun d => d.flatMap occurrences := by
  induction ds with
  | nil => rfl
  | cons d ds ih => rw [occurrencesIn, ih, List.flatMap_cons, occurrencesOf_eq]

theorem allConditionsOf_eq (d : Disjunction) : allConditionsOf d = d.flatMap allConditions := by
  induction d with
  | nil => rfl
  | cons φ d ih => rw [allConditionsOf, ih, List.flatMap_cons]

theorem allConditionsIn_eq (ds : List Disjunction) :
    allConditionsIn ds = ds.flatMap fun d => d.flatMap allConditions := by
  induction ds with
  | nil => rfl
  | cons d ds ih => rw [allConditionsIn, ih, List.flatMap_cons, allConditionsOf_eq]

end Formula

end Entail
