import Entail.Proofs.Applied
import Entail.Proofs.Carrying
import Entail.Proofs.Overloads
import Entail.Proofs.Ranks
import Entail.Proofs.Typing
import Mathlib

set_option autoImplicit false

/-! # Bindings respect sorts

A variable is bound only to a term of a sort below its own, but the term is rewritten when other
variables are bound, and its sort may change then. It never leaves the sort of the variable if
narrower arguments give an application a narrower sort, if connectives are applied to truth values,
and if the second branch of a conditional lies below whatever the first one can be narrowed to. The
sort that a term is written with says little before the term is evaluated, so these conditions are
about the sort that is computed from its leaves. -/

namespace Entail

/-! ## Orders of sorts -/

/-- The top sort is placed below no other, and an application of a symbol of `Q` to narrower
    arguments has a narrower sort. -/
structure Vocabulary.Narrows (voc : Vocabulary) (Q : Symbol → Prop) : Prop where
  top : ∀ s, voc.lattice.isSubsortEq s .k = true → s = .k
  application : ∀ f, Q f → ∀ {sorts narrower : List SortName},
    List.Forall₂ (fun s r => voc.lattice.isSubsortEq s r = true) sorts narrower →
    voc.lattice.isSubsortEq (voc.leastSort f sorts) (voc.leastSort f narrower) = true

variable {voc : Vocabulary} {Q : Symbol → Prop}

theorem Vocabulary.Narrows.trans (h : voc.Narrows Q) (hl : voc.lattice.Closed) {a b c : SortName}
    (hab : voc.lattice.isSubsortEq a b = true) (hbc : voc.lattice.isSubsortEq b c = true) :
    voc.lattice.isSubsortEq a c = true := by
  by_cases hb : b = .k
  · rw [h.top a (hb ▸ hab)]
    exact voc.lattice.isSubsortEq_top c
  · exact hl.trans_of_ne hb hab hbc

namespace Term

/-! ## Computed sorts -/

mutual

/-- The sort of a term with every application at the least sort for its arguments. -/
def computedSort (voc : Vocabulary) : Term → SortName
  | .var v => v.sort
  | .bool _ => .bool
  | .int _ => .int
  | .str _ => .string
  | .app f xs _ => voc.leastSort f (computedSorts voc xs)
  | .builtin op _ => op.resultSort
  | .list [] (some frame) => computedSort voc frame
  | .list _ _ => .list
  | .ite _ t _ => computedSort voc t
termination_by structural t => t

def computedSorts (voc : Vocabulary) : List Term → List SortName
  | [] => []
  | t :: ts => computedSort voc t :: computedSorts voc ts
termination_by structural ts => ts

end

theorem computedSorts_eq (voc : Vocabulary) (ts : List Term) :
    computedSorts voc ts = ts.map (computedSort voc) := by
  induction ts with
  | nil => rfl
  | cons t ts ih => rw [computedSorts, ih, List.map_cons]

theorem computedSort_closed (voc : Vocabulary) (xs : List Term) :
    (list xs none).computedSort voc = .list := by
  cases xs <;> rfl

/-- Elements before the frame make it a list. -/
theorem computedSort_framed (voc : Vocabulary) {xs : List Term} (hne : xs ≠ []) (frame : Term) :
    (list xs (some frame)).computedSort voc = .list := by
  cases xs with
  | nil => exact absurd rfl hne
  | cons x xs => rfl

/-- Joining a frame that is a list to the elements before it keeps the sort. -/
theorem computedSort_consFrame (voc : Vocabulary) (xs : List Term) (frame : Term) :
    (consFrame xs frame).computedSort voc = (list xs (some frame)).computedSort voc := by
  induction frame using Term.ind generalizing xs with
  | closed ys _ =>
    rw [consFrame, computedSort_closed]
    cases xs with
    | nil => exact (computedSort_closed voc ys).symm
    | cons x xs => rfl
  | framed ys frame _ ih =>
    rw [consFrame, ih]
    cases xs <;> rfl
  | _ =>
    rw [consFrame]
    · cases xs <;> rfl
    all_goals simp

/-! ## Fit terms -/

/-- The symbols are in `Q`, connectives are applied to truth values, and the second branch of a
    conditional lies below whatever the first one can be narrowed to. -/
def FitHead (voc : Vocabulary) (Q : Symbol → Prop) : Term → Prop
  | .app f _ _ => Q f
  | .builtin op xs => op.isConnective = true →
    ∀ x ∈ xs, voc.lattice.isSubsortEq .bool (x.computedSort voc) = true
  | .ite _ t e => ∀ s, voc.lattice.isSubsortEq (t.computedSort voc) s = true →
    voc.lattice.isSubsortEq s (e.computedSort voc) = true
  | _ => True

abbrev Fit (voc : Vocabulary) (Q : Symbol → Prop) (t : Term) : Prop := t.All (FitHead voc Q)

/-- A fit term that is written with its computed sort. -/
def SettledHead (voc : Vocabulary) (Q : Symbol → Prop) (t : Term) : Prop :=
  t.FitHead voc Q ∧ t.sort = t.computedSort voc

abbrev Settled (voc : Vocabulary) (Q : Symbol → Prop) (t : Term) : Prop :=
  t.All (SettledHead voc Q)

theorem Settled.fit {t : Term} (h : t.Settled voc Q) : t.Fit voc Q :=
  All.mono (fun _ hu => hu.1) h

theorem Settled.sort_eq {t : Term} (h : t.Settled voc Q) : t.sort = t.computedSort voc :=
  (All.head h).2

theorem settledHead_token {t : Term} (ht : t.isToken = true) : SettledHead voc Q t := by
  cases t with
  | bool b => exact ⟨trivial, rfl⟩
  | int n => exact ⟨trivial, rfl⟩
  | str a => exact ⟨trivial, rfl⟩
  | _ => exact absurd ht nofun

theorem settledHead_closed (xs : List Term) : SettledHead voc Q (.list xs none) :=
  ⟨trivial, (computedSort_closed voc xs).symm⟩

theorem settledHead_framed {xs : List Term} (hne : xs ≠ []) (frame : Term) :
    SettledHead voc Q (.list xs (some frame)) :=
  ⟨trivial, (computedSort_framed voc hne frame).symm⟩

theorem plain_fit (voc : Vocabulary) (Q : Symbol → Prop) : Plain (FitHead voc Q) where
  bool _ := trivial
  closed _ := trivial
  framed _ _ _ _ := trivial

/-- The conditions on a conditional are kept when the sorts of its branches get narrower. -/
theorem fitHead_ite (h : voc.Narrows Q) (hl : voc.lattice.Closed) {c t e c' t' e' : Term}
    (hfit : (ite c t e).FitHead voc Q)
    (ht : voc.lattice.isSubsortEq (t.computedSort voc) (t'.computedSort voc) = true)
    (he : voc.lattice.isSubsortEq (e.computedSort voc) (e'.computedSort voc) = true) :
    (ite c' t' e').FitHead voc Q :=
  fun s hs => h.trans hl (hfit s (h.trans hl ht hs)) he

/-! ## Substitution -/

section Substitution

variable {f : Variable → Option Term}

/-- Terms that fit the variables they replace make the sort of a term narrower. -/
theorem computedSort_substitute (h : voc.Narrows Q)
    (hf : ∀ v u, f v = some u → voc.lattice.isSubsortEq v.sort (u.computedSort voc) = true)
    {t : Term} (ht : t.Fit voc Q) :
    voc.lattice.isSubsortEq (t.computedSort voc) ((t.substitute f).computedSort voc) = true := by
  have hsame (s : SortName) : voc.lattice.isSubsortEq s s = true := voc.lattice.isSubsortEq_refl s
  induction t using Term.ind with
  | var v =>
    rw [substitute]
    cases hv : f v with
    | none => exact hsame _
    | some u => exact hf v u hv
  | app g xs s ih =>
    obtain ⟨hg, hxs⟩ := (all_app_iff g xs s).mp ht
    rw [substitute, substituteAll_eq, computedSort, computedSort, computedSorts_eq,
      computedSorts_eq]
    refine h.application g hg ?_
    rw [List.map_map, List.forall₂_map_left_iff, List.forall₂_map_right_iff, List.forall₂_same]
    exact fun x hx => ih x hx (hxs x hx)
  | closed xs _ =>
    rw [substitute, computedSort_closed, computedSort_closed]
    exact hsame _
  | framed xs frame _ ihframe =>
    have hframe := ((all_list_iff xs (some frame)).mp ht).2.2 frame rfl
    rw [substitute, mkList, substituteAll_eq, computedSort_consFrame]
    cases xs with
    | nil => exact ihframe hframe
    | cons x xs => exact hsame _
  | ite c t e _ iht _ =>
    obtain ⟨_, _, ht, _⟩ := (all_ite_iff c t e).mp ht
    exact iht ht
  | _ => exact hsame _

theorem fit_substitute (h : voc.Narrows Q) (hl : voc.lattice.Closed)
    (hf : ∀ v u, f v = some u →
      voc.lattice.isSubsortEq v.sort (u.computedSort voc) = true ∧ u.Fit voc Q)
    {t : Term} (ht : t.Fit voc Q) : (t.substitute f).Fit voc Q := by
  have hle {u : Term} (hu : u.Fit voc Q) : voc.lattice.isSubsortEq (u.computedSort voc)
      ((u.substitute f).computedSort voc) = true :=
    computedSort_substitute h (fun v t hv => (hf v t hv).1) hu
  -- every subterm is fit with all that is below it
  refine all_substitute (P := fun u => u.Fit voc Q)
    { token := fun t ht => ?_
      var := fun v _ => ?_
      app := fun g xs s hg => ((all_app_iff g xs s).mp hg).1
      builtin := fun op xs hxs hop => ?_
      closed := fun _ => trivial
      framed := fun _ _ _ _ => trivial
      ite := fun c t e hite => ?_ } (All.imp (fun _ hu _ => hu) ht ht)
  · cases t <;> trivial
  · cases hv : f v with
    | none => trivial
    | some u => exact (hf v u hv).2
  · obtain ⟨hargs, hxs⟩ := (all_builtin_iff op xs).mp hxs
    rw [List.forall_mem_map]
    exact fun x hx => h.trans hl (hargs hop x hx) (hle (hxs x hx))
  · obtain ⟨hhead, _, ht, he⟩ := (all_ite_iff c t e).mp hite
    exact fitHead_ite h hl hhead (hle ht) (hle he)

end Substitution

/-! ## Evaluation -/

/-- `u` is fit and written with its computed sort, which is narrower than that of `t`. -/
structure Narrowed (voc : Vocabulary) (Q : Symbol → Prop) (t u : Term) : Prop where
  settled : u.Settled voc Q
  le : voc.lattice.isSubsortEq (t.computedSort voc) (u.computedSort voc) = true

/-- A fact gives a truth value for a term that is written with the sort `Bool`. -/
theorem Narrowed.decide {facts : Facts} {t u : Term} (h : Narrowed voc Q t u) :
    Narrowed voc Q t (facts.decide u) where
  settled := all_decide (fun _ => settledHead_token rfl) h.settled
  le := by
    rcases decide_cases facts u with hsame | ⟨b, _, hbool, htold⟩
    · rw [hsame]
      exact h.le
    · have hle := h.le
      rw [← h.settled.sort_eq, hbool] at hle
      rw [htold]
      exact hle

/-- Applying an operation as far as its arguments are known makes its sort narrower. -/
theorem computedSort_reduceBuiltin {op : Builtin} {xs : List Term}
    (ht : (builtin op xs).Fit voc Q) :
    voc.lattice.isSubsortEq op.resultSort ((reduceBuiltin op xs).computedSort voc) = true := by
  obtain ⟨hhead, hxs⟩ := (all_builtin_iff op xs).mp ht
  have hsame (s : SortName) : voc.lattice.isSubsortEq s s = true := voc.lattice.isSubsortEq_refl s
  have hreduces := reducesTo_reduceBuiltin op xs
  generalize reduceBuiltin op xs = t at hreduces ⊢
  cases hreduces with
  | token htoken hsort => cases t <;> first | exact hsort ▸ hsame _ | cases htoken
  | argument hop hx => rcases hop with rfl | rfl <;> exact hhead rfl t hx
  | negated hop h =>
    subst hop h
    -- the argument of the inner negation is a truth value
    have hx := ((all_builtin_iff _ _).mp (hxs _ (List.mem_singleton.mpr rfl))).1
    exact hx rfl t (List.mem_singleton.mpr rfl)
  | stuck h =>
    subst h
    exact hsame _

/-- Evaluation, whatever the facts, leaves a fit term written with its computed sort and makes this
    sort narrower. -/
theorem narrowed_evaluate (h : voc.Narrows Q) (hl : voc.lattice.Closed) (facts : Facts) {t : Term}
    (ht : t.Fit voc Q) : Narrowed voc Q t (t.evaluate voc facts) := by
  have hsame (s : SortName) : voc.lattice.isSubsortEq s s = true := voc.lattice.isSubsortEq_refl s
  have hsettled {xs : List Term} (hxs : ∀ x ∈ xs, x.Fit voc Q)
      (ih : ∀ x ∈ xs, x.Fit voc Q → Narrowed voc Q x (x.evaluate voc facts)) :
      ∀ x ∈ xs.map (evaluate voc facts), x.Settled voc Q := by
    rw [List.forall_mem_map]
    exact fun x hx => (ih x hx (hxs x hx)).settled
  induction t using Term.ind with
  | var v =>
    rw [evaluate]
    exact Narrowed.decide ⟨⟨trivial, rfl⟩, hsame _⟩
  | app f xs s ih =>
    obtain ⟨hf, hxs⟩ := (all_app_iff f xs s).mp ht
    have hnew := hsettled hxs ih
    have hsorts : (xs.map (evaluate voc facts)).map sort =
        (xs.map (evaluate voc facts)).map (computedSort voc) :=
      List.map_congr_left fun x hx => Settled.sort_eq (hnew x hx)
    rw [evaluate, evaluateAll_eq]
    refine Narrowed.decide ⟨(all_app_iff _ _ _).mpr ⟨⟨hf, ?_⟩, hnew⟩, ?_⟩
    · rw [sort, computedSort, computedSorts_eq, hsorts]
    · rw [Vocabulary.apply, computedSort, computedSort, computedSorts_eq, computedSorts_eq]
      refine h.application f hf ?_
      rw [List.map_map, List.forall₂_map_left_iff, List.forall₂_map_right_iff, List.forall₂_same]
      exact fun x hx => (ih x hx (hxs x hx)).le
  | builtin op xs ih =>
    obtain ⟨hhead, hxs⟩ := (all_builtin_iff op xs).mp ht
    have hhead' : SettledHead voc Q (.builtin op (xs.map (evaluate voc facts))) := by
      refine ⟨fun hop => ?_, rfl⟩
      rw [List.forall_mem_map]
      exact fun x hx => h.trans hl (hhead hop x hx) (ih x hx (hxs x hx)).le
    have hself := (all_builtin_iff op _).mpr ⟨hhead', hsettled hxs ih⟩
    rw [evaluate, evaluateAll_eq]
    exact Narrowed.decide
      ⟨all_reduceBuiltin (fun _ ht => settledHead_token ht) op (hsettled hxs ih) fun _ => hhead',
        computedSort_reduceBuiltin (Settled.fit hself)⟩
  | closed xs ih =>
    rw [evaluate, evaluateAll_eq]
    refine ⟨(all_list_iff _ _).mpr ⟨settledHead_closed _,
      hsettled ((all_list_iff xs none).mp ht).2.1 ih, by simp⟩, ?_⟩
    rw [computedSort_closed, computedSort_closed]
    exact hsame _
  | framed xs frame ih ihframe =>
    obtain ⟨_, hxs, hframe⟩ := (all_list_iff xs (some frame)).mp ht
    have hnew := ihframe (hframe frame rfl)
    rw [evaluate, evaluateAll_eq]
    refine ⟨all_mkList settledHead_closed (fun _ frame hne _ => settledHead_framed hne frame)
      (hsettled hxs ih) fun u hu => ?_, ?_⟩
    · obtain rfl := Option.mem_some_iff.mp hu
      exact hnew.settled
    · rw [mkList, computedSort_consFrame]
      cases xs with
      | nil => exact hnew.le
      | cons x xs => exact hsame _
  | ite c t e ihc iht ihe =>
    obtain ⟨hhead, hc, ht, he⟩ := (all_ite_iff c t e).mp ht
    have htNew := iht ht
    have heNew := ihe he
    rw [evaluate]
    split
    · exact ⟨htNew.settled, htNew.le⟩
    · exact ⟨heNew.settled, h.trans hl (hhead _ (hsame _)) heNew.le⟩
    rw [mergeBranches]
    split
    · exact ⟨htNew.settled, htNew.le⟩
    have hhead' : SettledHead voc Q
        (.ite (c.evaluate voc facts) (t.evaluate voc facts) (e.evaluate voc facts)) :=
      ⟨fitHead_ite h hl hhead htNew.le heNew.le, htNew.settled.sort_eq⟩
    exact Narrowed.decide ⟨(all_ite_iff _ _ _).mpr ⟨hhead', (ihc hc).settled, htNew.settled,
      heNew.settled⟩, htNew.le⟩
  | bool b => exact ⟨settledHead_token rfl, hsame _⟩
  | int n => exact ⟨settledHead_token rfl, hsame _⟩
  | str a => exact ⟨settledHead_token rfl, hsame _⟩

/-- The term is settled, at a sort below that of the variable. -/
def Suits (voc : Vocabulary) (Q : Symbol → Prop) (v : Variable) (t : Term) : Prop :=
  t.Settled voc Q ∧ voc.lattice.isSubsortEq v.sort t.sort = true

theorem narrowed_rewrite (h : voc.Narrows Q) (hl : voc.lattice.Closed) {s : Substitution}
    (hs : s.EachBinding (Suits voc Q)) (facts : Facts) {t : Term} (ht : t.Fit voc Q) :
    Narrowed voc Q t (t.rewrite voc facts s.get?) := by
  have hf (v : Variable) (u : Term) (hv : s.get? v = some u) :
      voc.lattice.isSubsortEq v.sort (u.computedSort voc) = true ∧ u.Fit voc Q := by
    obtain ⟨hsettled, hle⟩ := hs (v, u) (Substitution.mem_of_get? hv)
    exact ⟨hsettled.sort_eq ▸ hle, hsettled.fit⟩
  have hnew := narrowed_evaluate h hl facts (fit_substitute h hl hf ht)
  have hle := computedSort_substitute h (fun v u hv => (hf v u hv).1) ht
  exact ⟨hnew.settled, h.trans hl hle hnew.le⟩

/-! ## Values -/

variable {V : Type} {M : Model V} {X : Variable → Prop} {ρ : Variable → V}

/-- The value of a fit term lies in its computed sort. -/
theorem mem_computedSort (hordered : M.Ordered voc.lattice) (hsorted : M.Sorted voc Q)
    (hρ : M.Respects X ρ) {t : Term} (ht : t.Within X fun _ => True) (hfit : t.Fit voc Q) :
    M.mem (t.computedSort voc) (t.eval M.toAlgebra ρ) := by
  induction t using Term.ind with
  | var v => exact hρ v ht
  | bool b => exact hsorted.bool b
  | int n => exact hsorted.int n
  | str a => exact hsorted.str a
  | app f xs s ih =>
    have hxs := ((all_app_iff f xs s).mp ht).2
    obtain ⟨hf, hfitXs⟩ := (all_app_iff f xs s).mp hfit
    rw [eval_app, computedSort, computedSorts_eq]
    refine hsorted.app f hf _ _ ?_
    rw [List.forall₂_map_left_iff, List.forall₂_map_right_iff, List.forall₂_same]
    exact fun x hx => ih x hx (hxs x hx) (hfitXs x hx)
  | builtin op xs ih =>
    have hxs := ((all_builtin_iff op xs).mp ht).2
    obtain ⟨hhead, hfitXs⟩ := (all_builtin_iff op xs).mp hfit
    rw [eval_builtin]
    refine operate_mem hsorted.bool hsorted.int op fun hop => ?_
    rw [List.forall_mem_map]
    exact fun x hx => hordered.mono _ _ _ (hhead hop x hx) (ih x hx (hxs x hx) (hfitXs x hx))
  | closed xs _ =>
    rw [eval_list, computedSort_closed]
    cases xs with
    | nil => exact hsorted.nil
    | cons x xs => exact hsorted.cons _ _
  | framed xs frame _ ihframe =>
    rw [eval_list]
    cases xs with
    | nil =>
      exact ihframe (((all_list_iff [] (some frame)).mp ht).2.2 frame rfl)
        (((all_list_iff [] (some frame)).mp hfit).2.2 frame rfl)
    | cons x xs => exact hsorted.cons _ _
  | ite c t e _ iht ihe =>
    obtain ⟨_, _, ht, he⟩ := (all_ite_iff c t e).mp ht
    obtain ⟨hhead, _, hfitT, hfitE⟩ := (all_ite_iff c t e).mp hfit
    rw [eval_ite, Algebra.choose]
    split_ifs
    · exact iht ht hfitT
    · exact hordered.mono _ _ _ (hhead _ (voc.lattice.isSubsortEq_refl _)) (ihe he hfitE)

end Term

/-! ## Simplification -/

theorem Worklist.maintained_suits (h : voc.Narrows Q) (hl : voc.lattice.Closed) :
    Maintained voc (Term.FitHead voc Q) (Term.Suits voc Q) where
  plain := Term.plain_fit voc Q
  var _ := trivial
  apply _ _ _ _ hf := hf
  rewrite hs facts _ ht := (Term.narrowed_rewrite h hl hs facts ht).settled.fit
  bind hs facts _ ht _ hsort := ⟨(Term.narrowed_rewrite h hl hs facts ht).settled, hsort⟩
  rebind hs v t ht := by
    have hnew := Term.narrowed_rewrite h hl hs .unknown (Term.Settled.fit ht.1)
    refine ⟨hnew.settled, h.trans hl ht.2 ?_⟩
    rw [Term.Settled.sort_eq ht.1, Term.Settled.sort_eq hnew.settled]
    exact hnew.le

namespace Formula

variable {mode : SimplifyMode} {φ S : Formula}

/-- Along a run the bindings suit their variables. -/
theorem suits_simplifyWithin (h : voc.Narrows Q) (hl : voc.lattice.Closed)
    (hφ : φ.Each (Term.FitHead voc Q)) {steps : Nat}
    (hS : φ.simplifyWithin voc Unifier.structural mode steps = .ok S) :
    S.bindings.EachBinding (Term.Suits voc Q) :=
  (maintained_simplifyWithin (Worklist.maintained_suits h hl) hφ hS).2

theorem suits_simplify (h : voc.Narrows Q) (hl : voc.lattice.Closed)
    (hφ : φ.Each (Term.FitHead voc Q)) (hS : φ.simplify voc Unifier.structural mode = .ok S) :
    S.bindings.EachBinding (Term.Suits voc Q) :=
  (maintained_simplify (Worklist.maintained_suits h hl) hφ hS).2

/-- **Bindings respect sorts.** If narrower arguments make applications narrower, every binding of
    a result binds a variable to a term of a sort below its own, and the value of the term lies in
    the sort of the variable wherever the values of its own variables have their sorts. -/
theorem subsort_of_simplify (hvoc : voc.Built) (h : voc.Narrows Q) (mode : SimplifyMode)
    {φ : Formula} (hφ : φ.Each (Term.FitHead voc Q)) :
    (∀ S, φ.simplify voc Unifier.structural mode = .ok S → ∀ entry ∈ S.bindings.entries,
      voc.lattice.isSubsortEq entry.1.sort entry.2.sort = true) ∧
    (∀ steps S, φ.simplifyWithin voc Unifier.structural mode steps = .ok S →
      ∀ entry ∈ S.bindings.entries,
        voc.lattice.isSubsortEq entry.1.sort entry.2.sort = true) ∧
    ∀ {V : Type} (M : Model V), M.Ordered voc.lattice → M.Sorted voc Q → ∀ S,
      φ.simplify voc Unifier.structural mode = .ok S → ∀ entry ∈ S.bindings.entries,
        ∀ ρ, M.Respects (· ∈ entry.2.occurrences) ρ →
          M.mem entry.1.sort (entry.2.eval M.toAlgebra ρ) := by
  have hl := hvoc.closed
  refine ⟨fun S hS entry hentry => (suits_simplify h hl hφ hS entry hentry).2,
    fun steps S hS entry hentry => (suits_simplifyWithin h hl hφ hS entry hentry).2,
    fun M hordered hsorted S hS entry hentry ρ hρ => ?_⟩
  obtain ⟨hsettled, hle⟩ := suits_simplify h hl hφ hS entry hentry
  rw [Term.Settled.sort_eq hsettled] at hle
  have hwithin := Term.within_occurrences (Term.within_any entry.2) fun v hv => hv
  exact hordered.mono _ _ _ hle (Term.mem_computedSort hordered hsorted hρ hwithin hsettled.fit)

end Formula

/-! ### Bindings that do not respect sorts

Each formula violates one of the conditions. What the variable is bound to has a sort below its own
at first, and loses it when another variable is bound. -/

namespace Straying

def sortS : SortName := ⟨"S"⟩

def sortT : SortName := ⟨"T"⟩

def sortA : SortName := ⟨"A"⟩

def sortB : SortName := ⟨"B"⟩

/-- From `A` to `S`, and from `B` to `T`. -/
def f : Symbol := ⟨"f", .function, [⟨[sortA], sortS⟩, ⟨[sortB], sortT⟩]⟩

/-- A constant. -/
def constant (s : SortName) : Symbol := ⟨"k", .constructor, [⟨[], s⟩]⟩

def x (s : SortName) : Term := .var ⟨"X", s⟩

def y (s : SortName) : Term := .var ⟨"Y", s⟩

def z (s : SortName) : Term := .var ⟨"Z", s⟩

def c : Term := .var ⟨"C", .bool⟩

/-- `B` lies below `A`, but `S` and `T` are not related. -/
def ambiguous : Vocabulary := (Vocabulary.initial.addSubsort sortA sortB).declareSymbol f

/-- `X = f(Y)` and `Y = Z` -/
def application : Formula :=
  .all .empty [⟨x sortS, .app f [y sortA] sortS⟩, ⟨y sortA, z sortB⟩] []

/-- The top sort lies below `A`. -/
def topped : Vocabulary :=
  (Vocabulary.initial.addSubsort sortA .k).declareSymbol (constant sortB)

/-- `X = Y` and `Y = k()` -/
def throughTop : Formula :=
  .all .empty [⟨x sortA, y .k⟩, ⟨y .k, .app (constant sortB) [] sortB⟩] []

/-- The term is stated equal to the variable `X`, and `C` is given a truth value later on. -/
def decided (s : SortName) (t : Term) (value : Bool) : Formula :=
  .all .empty [⟨x s, t⟩, ⟨.list [c] none, .list [.bool value] none⟩] []

/-- `S` lies above `A` and `B`. -/
def joined : Vocabulary := (Vocabulary.initial.addSubsort sortS sortA).addSubsort sortS sortB

/-- There is a binding to a term that is not of the sort of the variable. -/
def Strays (voc : Vocabulary) (φ : Formula) : Prop :=
  voc.Built ∧ φ.bindings = .empty ∧
    ∃ S, φ.simplify voc Unifier.structural .default = .ok S ∧
      ∃ entry ∈ S.bindings.entries, voc.lattice.isSubsortEq entry.1.sort entry.2.sort = false

theorem strays_of_simplify {voc : Vocabulary} {φ : Formula} (hvoc : voc.Built)
    (hφ : φ.bindings = .empty) (s : Substitution)
    (h : φ.simplify voc Unifier.structural .default = .ok (.all s [] []))
    (hs : (s.entries.any fun entry =>
      !voc.lattice.isSubsortEq entry.1.sort entry.2.sort) = true) : Strays voc φ := by
  obtain ⟨entry, hentry, hle⟩ := List.any_eq_true.mp hs
  exact ⟨hvoc, hφ, _, h, entry, hentry, Bool.not_eq_true' _ ▸ hle⟩

/-- Ambiguous signatures, a sort above the top sort, a connective of something that is no truth
    value, and a conditional of branches of different sorts. -/
theorem bindings_stray :
    Strays ambiguous application ∧
      Strays topped throughTop ∧
      Strays .initial (decided .bool (.builtin .and [c, y .k]) true) ∧
      Strays joined (decided sortA (.ite c (y sortA) (z sortB)) false) := by
  refine ⟨?_, ?_, ?_, ?_⟩
  · refine strays_of_simplify (.declareSymbol f (.addSubsort sortA sortB .initial)) rfl
      ⟨[(⟨"X", sortS⟩, .app f [z sortB] .k), (⟨"Y", sortA⟩, z sortB)]⟩ ?_ ?_
    · cbv
    · cbv
  · refine strays_of_simplify (.declareSymbol _ (.addSubsort sortA .k .initial)) rfl
      ⟨[(⟨"X", sortA⟩, .app (constant sortB) [] sortB),
        (⟨"Y", .k⟩, .app (constant sortB) [] sortB)]⟩ ?_ ?_
    · cbv
    · cbv
  · refine strays_of_simplify .initial rfl
      ⟨[(⟨"C", .bool⟩, .bool true), (⟨"X", .bool⟩, y .k)]⟩ ?_ ?_
    · cbv
    · cbv
  · refine strays_of_simplify (.addSubsort sortS sortB (.addSubsort sortS sortA .initial)) rfl
      ⟨[(⟨"C", .bool⟩, .bool false), (⟨"X", sortA⟩, z sortB)]⟩ ?_ ?_
    · cbv
    · cbv

/-! ### The same application where `T` lies below `S` -/

def regular : Vocabulary :=
  ((Vocabulary.initial.addSubsort sortA sortB).addSubsort sortS sortT).declareSymbol f

theorem built_regular : regular.Built :=
  .declareSymbol f (.addSubsort sortS sortT (.addSubsort sortA sortB .initial))

theorem acyclic : regular.lattice.Acyclic := SortLattice.acyclic_of_entries (by decide)

theorem leastSort_f (sorts : List SortName) :
    regular.leastSort f sorts = if regular.accepts [sortB] sorts then sortT else sortS := by
  unfold Vocabulary.leastSort Vocabulary.applicableResults
  simp only [f, List.filter_cons, List.filter_nil]
  cases regular.accepts [sortA] sorts <;> cases regular.accepts [sortB] sorts <;> decide

theorem narrows_regular : regular.Narrows (· = f) where
  top s hs := acyclic s .k hs (SortLattice.isSubsortEq_top _ s)
  application g hg {sorts narrower} hle := by
    obtain rfl := hg
    rw [leastSort_f, leastSort_f]
    by_cases haccepts : regular.accepts [sortB] sorts = true
    · -- what is accepted is still accepted when it gets narrower
      have hnarrower : regular.accepts [sortB] narrower = true := by
        have haccepts : regular.Accepts ⟨[sortB], sortT⟩ sorts :=
          (regular.accepts_iff _ _).mp haccepts
        exact (regular.accepts_iff _ _).mpr (haccepts.of_narrower built_regular acyclic hle)
      rw [if_pos haccepts, if_pos hnarrower]
      exact SortLattice.isSubsortEq_refl _ _
    · rw [if_neg haccepts]
      split <;> decide

theorem subsort_application :
    ∃ S, application.simplify regular Unifier.structural .default = .ok S ∧
      S.bindings.entries ≠ [] ∧ ∀ entry ∈ S.bindings.entries,
        regular.lattice.isSubsortEq entry.1.sort entry.2.sort = true := by
  have hS : application.simplify regular Unifier.structural .default = .ok
      (.all ⟨[(⟨"X", sortS⟩, .app f [z sortB] sortT), (⟨"Y", sortA⟩, z sortB)]⟩ [] []) := by
    cbv
  refine ⟨_, hS, List.cons_ne_nil _ _, ?_⟩
  refine (Formula.subsort_of_simplify built_regular narrows_regular .default ?_).1 _ hS
  simp [application, Formula.Each, Formula.everywhere_all_iff, Equality.All, Term.AllIn,
    Term.FitHead, Substitution.empty, x, y, z, Term.All]

end Straying

end Entail
