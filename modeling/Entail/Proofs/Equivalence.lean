import Entail.Proofs.Induction
import Entail.Formula.Order
import Mathlib.Data.List.Basic

set_option autoImplicit false

/-! # What comparing equal means

Terms compare equal when they are the same after the signatures are dropped from their symbols. With
`bare` as the representative of a term, whatever does not look at signatures is the same for two
terms that compare equal; likewise for equalities and formulas. -/

namespace Entail

/-! ## Comparisons of names -/

theorem SortName.cmp_eq_iff (a b : SortName) : a.cmp b = .eq ↔ a = b := by
  cases a
  cases b
  simp [SortName.cmp]

theorem Variable.cmp_eq_iff (v w : Variable) : v.cmp w = .eq ↔ v = w := by
  cases v
  cases w
  simp [Variable.cmp, Ordering.then_eq_eq, SortName.cmp_eq_iff]

theorem SymbolKind.cmp_eq_iff (a b : SymbolKind) : a.cmp b = .eq ↔ a = b := by
  cases a <;> cases b <;> decide

theorem Builtin.compare_rank_eq_iff (f g : Builtin) : compare f.rank g.rank = .eq ↔ f = g := by
  cases f <;> cases g <;> decide

/-- A symbol without its signatures. -/
def Symbol.bare (f : Symbol) : Symbol := { f with signatures := [] }

theorem Symbol.cmp_eq_iff (f g : Symbol) : f.cmp g = .eq ↔ f.bare = g.bare := by
  cases f
  cases g
  simp [Symbol.cmp, Symbol.bare, Ordering.then_eq_eq, SymbolKind.cmp_eq_iff]

theorem Symbol.same_iff (f g : Symbol) : f.same g = true ↔ f.name = g.name ∧ f.kind = g.kind := by
  simp [Symbol.same]

namespace Term

/-! ## Terms without signatures -/

mutual

/-- A term without the signatures of its symbols. -/
def bare : Term → Term
  | .var v => .var v
  | .bool b => .bool b
  | .int n => .int n
  | .str s => .str s
  | .app f xs s => .app f.bare (bareAll xs) s
  | .builtin op xs => .builtin op (bareAll xs)
  | .list xs none => .list (bareAll xs) none
  | .list xs (some frame) => .list (bareAll xs) (some (bare frame))
  | .ite c t e => .ite (bare c) (bare t) (bare e)
termination_by structural t => t

def bareAll : List Term → List Term
  | [] => []
  | t :: ts => bare t :: bareAll ts
termination_by structural ts => ts

end

theorem bareAll_eq (ts : List Term) : bareAll ts = ts.map bare := by
  induction ts with
  | nil => rfl
  | cons t ts ih => rw [bareAll, ih, List.map_cons]

theorem cmpAll_eq_iff (xs : List Term) (h : ∀ x ∈ xs, ∀ u, x.cmp u = .eq ↔ x.bare = u.bare)
    (ys : List Term) : cmpAll xs ys = .eq ↔ xs.map bare = ys.map bare := by
  induction xs generalizing ys with
  | nil => cases ys <;> simp [cmpAll]
  | cons x xs ih =>
    cases ys with
    | nil => simp [cmpAll]
    | cons y ys =>
      rw [cmpAll, Ordering.then_eq_eq, h x (List.mem_cons_self ..) y,
        ih (fun z hz => h z (List.mem_cons_of_mem _ hz)) ys]
      simp

@[simp]
theorem bare_list (xs : List Term) (frame : Option Term) :
    (list xs frame).bare = .list (xs.map bare) (frame.map bare) := by
  cases frame <;> rw [bare, bareAll_eq] <;> rfl

theorem cmp_eq_iff (t u : Term) : t.cmp u = .eq ↔ t.bare = u.bare := by
  induction t using Term.ind generalizing u with
  | var v => cases u <;> simp [cmp, bare, rank, Variable.cmp_eq_iff]
  | bool b => cases u <;> simp [cmp, bare, rank]
  | int n => cases u <;> simp [cmp, bare, rank]
  | str s => cases u <;> simp [cmp, bare, rank]
  | app f xs s ih =>
    cases u <;> simp [cmp, bare, rank, Ordering.then_eq_eq, Symbol.cmp_eq_iff, SortName.cmp_eq_iff,
      bareAll_eq, cmpAll_eq_iff xs ih]
  | builtin op xs ih =>
    cases u with
    | builtin op' ys =>
      rw [cmp, Ordering.then_eq_eq, Builtin.compare_rank_eq_iff, cmpAll_eq_iff xs ih]
      simp [bare, bareAll_eq]
    | _ => simp [cmp, bare, rank]
  | closed xs ih =>
    cases u with
    | list ys frame =>
      cases frame <;> simp [cmp, Ordering.then_eq_eq, cmpAll_eq_iff xs ih]
    | _ => simp [cmp, bare, rank]
  | framed xs frame ih ihframe =>
    cases u with
    | list ys frame' =>
      cases frame' <;> simp [cmp, Ordering.then_eq_eq, cmpAll_eq_iff xs ih, ihframe]
    | _ => simp [cmp, bare, rank]
  | ite c t e ihc iht ihe =>
    cases u <;> simp [cmp, bare, rank, Ordering.then_eq_eq, ihc, iht, ihe]

theorem beq_iff (t u : Term) : (t == u) = true ↔ t.bare = u.bare := by
  rw [beq_def, Ordering.isEq_iff_eq_eq, cmp_eq_iff]

@[simp]
theorem beq_self (t : Term) : (t == t) = true := (beq_iff t t).mpr rfl

theorem beq_comm (t u : Term) : (t == u) = (u == t) := by
  rw [Bool.eq_iff_iff, beq_iff, beq_iff]
  exact eq_comm

/-! ## What does not look at signatures -/

theorem flatMap_bare {α : Type} (f : Term → List α) (xs : List Term)
    (h : ∀ x ∈ xs, f x.bare = f x) : (xs.map bare).flatMap f = xs.flatMap f := by
  rw [List.flatMap_map]
  exact List.flatMap_congr h

theorem occurrences_bare (t : Term) : t.bare.occurrences = t.occurrences := by
  induction t using Term.ind with
  | app f xs s ih | builtin op xs ih =>
    simp only [bare, occurrences, bareAll_eq, allOccurrences_eq, flatMap_bare _ xs ih]
  | closed xs ih =>
    simp only [bare_list, Option.map, occurrences, allOccurrences_eq, flatMap_bare _ xs ih]
  | framed xs frame ih ihframe =>
    simp only [bare_list, Option.map, occurrences, allOccurrences_eq, flatMap_bare _ xs ih, ihframe]
  | ite c t e ihc iht ihe => simp only [bare, occurrences, ihc, iht, ihe]
  | _ => rfl

theorem occurrences_eq_of_beq {t u : Term} (h : (t == u) = true) :
    t.occurrences = u.occurrences := by
  rw [← occurrences_bare t, (beq_iff t u).mp h, occurrences_bare u]

end Term

/-! ## Equalities and formulas -/

namespace Equality

/-- An equality without the signatures of its symbols. -/
def bare (e : Equality) : Equality := ⟨e.lhs.bare, e.rhs.bare⟩

theorem cmp_eq_iff (e e' : Equality) : e.cmp e' = .eq ↔ e.bare = e'.bare := by
  rw [cmp, Ordering.then_eq_eq, Term.cmp_eq_iff, Term.cmp_eq_iff, bare, bare, Equality.mk.injEq]

theorem beq_iff (e e' : Equality) : (e == e') = true ↔ e.bare = e'.bare := by
  rw [← cmp_eq_iff, ← Ordering.isEq_iff_eq_eq]
  rfl

theorem occurrences_bare (e : Equality) : e.bare.occurrences = e.occurrences := by
  rw [occurrences, occurrences, bare, Term.occurrences_bare, Term.occurrences_bare]

end Equality

theorem Sorted.compareLists_eq_iff {α β : Type} {cmp : α → α → Ordering} {f : α → β}
    (xs : List α) (h : ∀ x ∈ xs, ∀ y, cmp x y = .eq ↔ f x = f y) (ys : List α) :
    compareLists cmp xs ys = .eq ↔ xs.map f = ys.map f := by
  induction xs generalizing ys with
  | nil => cases ys <;> simp [compareLists]
  | cons x xs ih =>
    cases ys with
    | nil => simp [compareLists]
    | cons y ys =>
      rw [compareLists, Ordering.then_eq_eq, h x (List.mem_cons_self ..) y,
        ih (fun z hz => h z (List.mem_cons_of_mem _ hz)) ys]
      simp

/-- A substitution without the signatures of symbols. -/
def Substitution.bare (s : Substitution) : Substitution :=
  ⟨s.entries.map fun entry => (entry.1, entry.2.bare)⟩

theorem Substitution.cmp_eq_iff (s s' : Substitution) : s.cmp s' = .eq ↔ s.bare = s'.bare := by
  rw [cmp, bare, bare, Substitution.mk.injEq]
  refine Sorted.compareLists_eq_iff _ (fun x _ y => ?_) _
  rw [Ordering.then_eq_eq, Variable.cmp_eq_iff, Term.cmp_eq_iff, Prod.mk.injEq]

namespace Formula

mutual

/-- A formula without the signatures of its symbols. -/
def bare : Formula → Formula
  | .falsified w => .falsified w.bare
  | .all s es ds => .all s.bare (es.map Equality.bare) (bareIn ds)
termination_by structural φ => φ

def bareIn : List (List Formula) → List (List Formula)
  | [] => []
  | d :: ds => bareOf d :: bareIn ds
termination_by structural ds => ds

def bareOf : List Formula → List Formula
  | [] => []
  | φ :: φs => φ.bare :: bareOf φs
termination_by structural φs => φs

end

theorem bareOf_eq (d : Disjunction) : bareOf d = d.map bare := by
  induction d with
  | nil => rfl
  | cons φ d ih => rw [bareOf, ih, List.map_cons]

theorem bareIn_eq (ds : List Disjunction) : bareIn ds = ds.map fun d => d.map bare := by
  induction ds with
  | nil => rfl
  | cons d ds ih => rw [bareIn, ih, List.map_cons, bareOf_eq]

theorem cmpAlternatives_eq (d d' : Disjunction) :
    cmpAlternatives d d' = Sorted.compareLists cmp d d' := by
  induction d generalizing d' with
  | nil => cases d' <;> rfl
  | cons φ d ih =>
    cases d' with
    | nil => rfl
    | cons ψ d' => rw [cmpAlternatives, Sorted.compareLists, ih]

theorem cmpDisjunctions_eq (ds ds' : List Disjunction) :
    cmpDisjunctions ds ds' = Sorted.compareLists (Sorted.compareLists cmp) ds ds' := by
  induction ds generalizing ds' with
  | nil => cases ds' <;> rfl
  | cons d ds ih =>
    cases ds' with
    | nil => rfl
    | cons d' ds' => rw [cmpDisjunctions, Sorted.compareLists, ih, cmpAlternatives_eq]

theorem cmp_eq_iff (φ ψ : Formula) : φ.cmp ψ = .eq ↔ φ.bare = ψ.bare := by
  induction φ using Formula.ind generalizing ψ with
  | falsified w =>
    cases ψ with
    | falsified w' => rw [cmp, Equality.cmp_eq_iff, bare, bare, Formula.falsified.injEq]
    | all s es ds => rw [cmp, bare, bare]; split <;> simp
  | all s es ds ih =>
    cases ψ with
    | falsified w => rw [cmp, bare, bare]; split <;> simp
    | all s' es' ds' =>
      have hds := Sorted.compareLists_eq_iff ds
        (fun d hd d' => Sorted.compareLists_eq_iff d (ih d hd) d') ds'
      rw [cmp, Ordering.then_eq_eq, Ordering.then_eq_eq, Substitution.cmp_eq_iff,
        Sorted.compareLists_eq_iff es (fun e _ e' => Equality.cmp_eq_iff e e'),
        cmpDisjunctions_eq, hds, bare, bare, bareIn_eq, bareIn_eq, Formula.all.injEq]

theorem beq_iff (φ ψ : Formula) : (φ == ψ) = true ↔ φ.bare = ψ.bare := by
  rw [← cmp_eq_iff, ← Ordering.isEq_iff_eq_eq]
  rfl

theorem occurrences_bare (φ : Formula) : φ.bare.occurrences = φ.occurrences := by
  induction φ using Formula.ind with
  | falsified w => rfl
  | all s es ds ih =>
    have hs : s.bare.occurrences = s.occurrences := by
      simp only [Substitution.bare, Substitution.occurrences, List.flatMap_map,
        Term.occurrences_bare]
    have hes : (es.map Equality.bare).flatMap Equality.occurrences =
        es.flatMap Equality.occurrences := by
      simp only [List.flatMap_map, Equality.occurrences_bare]
    have hds : (ds.map fun d => d.map bare).flatMap (fun d => d.flatMap occurrences) =
        ds.flatMap fun d => d.flatMap occurrences := by
      rw [List.flatMap_map]
      refine List.flatMap_congr fun d hd => ?_
      rw [List.flatMap_map]
      exact List.flatMap_congr (ih d hd)
    rw [bare, occurrences, occurrences, occurrencesIn_eq, occurrencesIn_eq, bareIn_eq, hs, hes, hds]

end Formula

theorem Disjunction.cmp_eq_iff (d d' : Disjunction) :
    Disjunction.cmp d d' = .eq ↔ d.map Formula.bare = d'.map Formula.bare := by
  rw [cmp, Formula.cmpAlternatives_eq]
  exact Sorted.compareLists_eq_iff d (fun φ _ ψ => Formula.cmp_eq_iff φ ψ) d'

end Entail
