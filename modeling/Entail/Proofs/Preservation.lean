import Entail.Proofs.Carrying
import Entail.Proofs.Refutation
import Entail.Proofs.Subsumption

set_option autoImplicit false

/-! # Sorts along a run

Simplification keeps terms sortable, and binds a variable only to a term that has its sort. Every
equality is decided about after it was evaluated, and the sorts that its sides are then written with
are sorts that they have. So the test of sorts looks at sorts in which the values of both sides lie,
and refutes no formula of sortable terms that has a solution. -/

namespace Entail

variable {V : Type}

/-! ## Substitutions -/

namespace Substitution

/-- Variables are bound to sortable terms of their sorts. -/
def Sortable (voc : Vocabulary) (Q : Symbol → Prop) (s : Substitution) : Prop :=
  ∀ entry ∈ s.entries, entry.2.Has voc entry.1.sort ∧ entry.2.Sortable voc Q

variable {voc : Vocabulary} {Q : Symbol → Prop}

theorem Sortable.get? {s : Substitution} (hs : s.Sortable voc Q) (v : Variable) (u : Term)
    (h : s.get? v = some u) : u.Has voc v.sort ∧ u.Sortable voc Q :=
  hs (v, u) (mem_of_get? h)

end Substitution

/-! ## Worklists -/

namespace Worklist

variable {voc : Vocabulary} {Q : Symbol → Prop} {mode : SimplifyMode} {M : Model V}
  {D : SortName → Prop} {X : Variable → Prop} {ρ : Variable → V} {w w' : Worklist}

/-- The terms of the worklist are sortable, and its bindings have the sorts of their variables. -/
structure Sortable (voc : Vocabulary) (Q : Symbol → Prop) (w : Worklist) : Prop where
  each : w.Each (Term.SortableHead voc Q)
  bindings : w.bindings.Sortable voc Q

/-- The sides of the equality that is decided about are written with sorts that they have. -/
theorem Sortable.apt_looked (hM : M.Compares voc Q) (hw : w.Sortable voc Q) {e : Equality}
    {rest : List Equality} (hpending : w.pending = e :: rest) :
    (w.looked voc e rest).All (Term.AptHead voc Q) := by
  have he := hw.each.pending e (hpending ▸ List.mem_cons_self ..)
  exact ⟨(Term.refines_rewrite hM _ hw.bindings.get? he.1).apt,
    (Term.refines_rewrite hM _ hw.bindings.get? he.2).apt⟩

/-- Sortable terms and bindings that have the sorts of their variables are carried along. -/
theorem maintained_sortable (hM : M.Compares voc Q) :
    Maintained voc (Term.SortableHead voc Q)
      fun v t => t.Has voc v.sort ∧ t.Sortable voc Q where
  plain := Term.plain_sortable voc Q
  var _ := trivial
  apply _ _ _ _ hf := hf
  rewrite hs facts _ ht :=
    (Term.refines_rewrite hM facts (Substitution.Sortable.get? hs) ht).apt.sortable
  bind hs facts _ ht _ hsort := by
    have happ := (Term.refines_rewrite hM facts (Substitution.Sortable.get? hs) ht).apt
    exact ⟨happ.has.mono hM.closed hM.acyclic hsort, happ.sortable⟩
  rebind hs _ _ ht := by
    have hrefines := Term.refines_rewrite hM .unknown (Substitution.Sortable.get? hs) ht.2
    exact ⟨hrefines.has _ ht.1, hrefines.apt.sortable⟩

theorem Sortable.next (hM : M.Compares voc Q) (hgood : w.Good X Q) (hw : w.Sortable voc Q)
    (h : w.next voc Unifier.structural mode = .ok (.inl w')) : w'.Sortable voc Q := by
  have hcarries : w.Carries (Term.SortableHead voc Q)
      fun v t => t.Has voc v.sort ∧ t.Sortable voc Q := ⟨hw.each, hw.bindings⟩
  have hnext := hcarries.next (maintained_sortable hM) hgood h
  exact ⟨hnext.each, hnext.bindings⟩

end Worklist

/-! ## The test of sorts -/

/-- The sort that a term is written with is declared. -/
theorem Term.known_sort {voc : Vocabulary} {Q : Symbol → Prop} (hvoc : voc.Built)
    (hQ : ∀ f, Q f → voc.Knows f) {t : Term}
    (ht : t.Within (fun v => voc.lattice.Known v.sort) Q) (hleast : t.All (LeastHead voc)) :
    voc.lattice.Known t.sort := by
  have hfixed {s : SortName} {b : List SortName}
      (hs : Vocabulary.initial.lattice.below? s = some b) : voc.lattice.Known s :=
    hvoc.known_of_initial (Or.inr ⟨b, hs⟩)
  induction t using Term.ind with
  | var v => exact ht
  | app f xs s _ =>
    obtain ⟨rfl, _⟩ := (all_app_iff f xs s).mp hleast
    exact Vocabulary.known_leastSort (hQ f ht.1) _
  | builtin op xs _ => cases op <;> exact hfixed rfl
  | ite c t e _ iht _ =>
    obtain ⟨_, _, ht, _⟩ := (all_ite_iff c t e).mp ht
    obtain ⟨_, _, htLeast, _⟩ := (all_ite_iff c t e).mp hleast
    exact iht ht htLeast
  | _ => exact hfixed rfl

/-- Values that are in no sort but the top one. -/
noncomputable def Model.sortless : Model Value where
  toAlgebra := Value.algebra .con .con
  mem s _ := s = .k

theorem Model.ordered_sortless {l : SortLattice} (hacyclic : l.Acyclic) :
    sortless.Ordered l where
  top _ := rfl
  mono a b _ hab hb := by
    obtain rfl : b = .k := hb
    exact hacyclic _ _ hab (l.isSubsortEq_top a)
  meet a b _ ha hb := by
    obtain rfl : a = .k := ha
    obtain rfl : b = .k := hb
    exact ⟨.k, l.isSubsortEq_top _, l.isSubsortEq_top _, rfl⟩

theorem Model.tight_sortless (voc : Vocabulary) (Q : Symbol → Prop) : sortless.Tight voc Q := by
  intro f _ _ _ s vs hs
  obtain rfl : s = .k := hs
  refine ⟨vs.map fun _ => .k, ?_, voc.lattice.isSubsortEq_top _⟩
  rw [List.forall₂_map_left_iff]
  exact List.forall₂_same.mpr fun _ _ => rfl

/-- The sorts of new variables are known: which they are does not depend on the values. -/
theorem Formula.known_simplify {voc : Vocabulary} {Q : Symbol → Prop} (hvoc : voc.Built)
    (hacyclic : voc.lattice.Acyclic) (hQ : ∀ f, Q f → voc.Knows f) {φ S : Formula}
    {mode : SimplifyMode} (hφ : φ.Within (fun v => voc.lattice.Known v.sort) Q)
    (h : φ.simplify voc Unifier.structural mode = .ok S) :
    S.Within (fun v => voc.lattice.Known v.sort) Q := by
  have hlossless := (Model.ordered_sortless hacyclic).lossless hvoc.closed hacyclic
    (Model.tight_sortless voc Q) hQ
  exact Within.mono (fun _ hv => hv.1) (within_simplify hlossless hφ h)

namespace Worklist

variable {voc : Vocabulary} {Q : Symbol → Prop} {mode : SimplifyMode} {M : Model V}
  {X : Variable → Prop} {ρ : Variable → V} {w : Worklist}

/-- A worklist of sortable terms that has a solution is not refuted. -/
theorem Sortable.not_refuted (hM : M.Compares voc Q) (hvoc : voc.Built)
    (hQ : ∀ f, Q f → voc.Knows f) (hfolds : M.Folds mode)
    (hsolved : w.Solved M Q voc.lattice.Known X ρ) (hw : w.Sortable voc Q) (r : Refutation) :
    w.next voc Unifier.structural mode ≠ .error r := by
  intro h
  obtain ⟨e, rest, hpending, rfl, _, hcommon⟩ :=
    refuted_of_next hfolds hsolved.good hsolved.holds h
  have hwithin := hsolved.good.within_looked_scope voc hpending
  have hleast := least_rewrite voc (w.restFacts rest) w.bindings.get? e
  have hapt := hw.apt_looked hM hpending
  have he : (w.looked voc e rest).lhs.eval M.toAlgebra ρ =
      (w.looked voc e rest).rhs.eval M.toAlgebra ρ :=
    (rest_holds voc hsolved.holds hpending).2
  -- both sides have one value, and it lies in the sorts that are compared
  have hvalue {t : Term} (ht : t.Within X Q) (hleast : t.All (Term.LeastHead voc))
      (hapt : t.Apt voc Q) :
      voc.lattice.Known t.sort ∧ M.mem t.sort (t.eval M.toAlgebra ρ) :=
    ⟨Term.known_sort hvoc hQ (ht.mono hsolved.sorts) hleast,
      Term.mem_of_has hM.ordered hM.sorted hsolved.respects ht hapt.sortable hapt.has⟩
  obtain ⟨hlhs, hlhsMem⟩ := hvalue hwithin.1 hleast.1 hapt.1
  obtain ⟨hrhs, hrhsMem⟩ := hvalue hwithin.2 hleast.2 hapt.2
  rw [← he] at hrhsMem
  obtain ⟨s, hls, hrs, _⟩ := hM.ordered.meet _ _ _ hlhsMem hrhsMem
  rw [hM.closed.exists_common hlhs hrhs hls hrs] at hcommon
  exact absurd hcommon nofun

end Worklist

/-! ## Simplification -/

namespace Formula

variable {voc : Vocabulary} {Q : Symbol → Prop} {mode : SimplifyMode} {M : Model V} {φ S : Formula}

/-- The terms of a formula are sortable. -/
abbrev Sortable (voc : Vocabulary) (Q : Symbol → Prop) (φ : Formula) : Prop :=
  φ.Each (Term.SortableHead voc Q)

/-- The terms of a formula are written with sorts that they have if they were checked. -/
theorem apt_of_checked {X : Variable → Prop} (hl : voc.lattice.Closed)
    (hacyclic : voc.lattice.Acyclic) (hwithin : φ.Within X Q)
    (hchecked : φ.Each (Term.CheckedHead voc)) : φ.Each (Term.AptHead voc Q) := by
  have hboth : φ.Each fun u => u.WithinHead X Q ∧ u.CheckedHead voc :=
    Each.imp (fun _ hu hhead => ⟨hu.head, hhead⟩) hwithin hchecked
  refine Each.imp (fun u hu _ => Term.All.head ?_) hboth hboth
  exact Term.apt_of_checked hl hacyclic (Term.All.mono (fun _ h => h.1) hu)
    (Term.All.mono (fun _ h => h.2) hu)

theorem sortable_of_apt (hφ : φ.Each (Term.AptHead voc Q)) : φ.Sortable voc Q :=
  Each.imp (fun _ _ hhead => hhead.1) hφ hφ

/-- The bindings of a formula of checked terms are sortable if they respect sorts. -/
theorem sortable_bindings_of_apt (hl : voc.lattice.Closed) (hacyclic : voc.lattice.Acyclic)
    (hφ : φ.Each (Term.AptHead voc Q)) (hbindings : ∀ entry ∈ φ.bindings.entries,
      voc.lattice.isSubsortEq entry.1.sort entry.2.sort = true) :
    φ.bindings.Sortable voc Q := by
  intro entry hentry
  cases φ with
  | falsified w => exact absurd hentry List.not_mem_nil
  | all s es ds =>
    have ht : entry.2.Apt voc Q := (((everywhere_all_iff s es ds).mp hφ).1 entry hentry).2
    exact ⟨ht.has.mono hl hacyclic (hbindings entry hentry), ht.sortable⟩

/-- Rewriting with bindings that respect sorts keeps a formula sortable. -/
theorem sortable_rewrite (hM : M.Compares voc Q) (facts : Facts) {s : Substitution}
    (hs : s.Sortable voc Q) (hφ : φ.Sortable voc Q) :
    (φ.rewrite voc facts s.get?).Sortable voc Q :=
  (unbound_rewrite (fun _ => trivial) (rewritesTo_of_each
    (fun _ ht => (Term.refines_rewrite hM facts hs.get? ht).apt.sortable) hφ)).each

/-- Connectives in sortable formulas are applied to truth values. -/
theorem typed_of_sortable {X : Variable → Prop} {ρ : Variable → V} (hordered : M.Ordered voc.lattice)
    (hsorted : M.Sorted voc Q) (hρ : M.Respects X ρ) (hwithin : φ.Within X Q)
    (hφ : φ.Sortable voc Q) : φ.Each (Term.TypedHead M ρ) := by
  have hboth : φ.Each fun u => u.WithinHead X Q ∧ u.SortableHead voc Q :=
    Each.imp (fun _ hu hhead => ⟨hu.head, hhead⟩) hwithin hφ
  exact Each.imp (fun _ hu _ => Term.typedHead_of_sortable hordered hsorted hρ hu) hboth hwithin

/-- The condition of a conditional is a truth value. -/
theorem Sortable.has_bool (hφ : φ.Sortable voc Q) {c : Term} (hc : c ∈ φ.conditions) :
    c.Sortable voc Q ∧ c.Has voc .bool := by
  obtain ⟨u, w, hconditional⟩ := Each.exists_conditional hφ hc
  obtain ⟨hhead, hsortable, _⟩ := (Term.all_ite_iff c u w).mp hconditional
  exact ⟨hsortable, hhead.1⟩

theorem sortable_ofFormula (hφ : φ.Sortable voc Q) : (Worklist.ofFormula φ).Sortable voc Q :=
  ⟨Worklist.each_ofFormula hφ, nofun⟩

/-- Simplification keeps terms sortable, and binds variables to terms of their sorts. -/
theorem sortable_simplify (hM : M.Compares voc Q) (hφ : φ.Sortable voc Q)
    (h : φ.simplify voc Unifier.structural mode = .ok S) :
    S.Sortable voc Q ∧ S.bindings.Sortable voc Q :=
  maintained_simplify (Worklist.maintained_sortable hM) hφ h

/-- A formula of sortable terms that has a solution is not refuted. -/
theorem not_refuted_of_sortable (hM : M.Compares voc Q) (hvoc : voc.Built)
    (hQ : ∀ f, Q f → voc.Knows f) (hlossless : M.Lossless voc Q voc.lattice.Known)
    (hfolds : M.Folds mode) (hwithin : φ.Within (fun v => voc.lattice.Known v.sort) Q)
    (hφ : φ.Sortable voc Q) {ρ : Variable → V} (hρ : M.Respects (· ∈ φ.occurrences) ρ)
    (hholds : φ.Holds M.toAlgebra ρ) (r : Refutation) :
    φ.simplify voc Unifier.structural mode ≠ .error (.refuted r) := by
  intro h
  rcases φ.simplify_cases voc mode with ⟨w, rfl, _⟩ | ⟨_, hself⟩ | ⟨_, _, _, _, hrun⟩
  · exact absurd hholds (not_holds_falsified _ _ w)
  · rw [h] at hself
    exact absurd hself nofun
  rw [h] at hrun
  rcases Worklist.exists_last (Q := Q)
    (P := fun X ρ w => w.Solved M Q voc.lattice.Known X ρ ∧ w.Sortable voc Q) (fun hw => hw.1.good)
    (fun {X ρ w w'} hw hnext => by
      obtain ⟨X', ρ', hw', hgrown⟩ := hw.1.next hlossless hfolds hnext
      exact ⟨X', ρ', ⟨hw', hw.2.next hM hw.1.good hnext⟩, hgrown⟩)
    ⟨solved_ofFormula hwithin hρ hholds, sortable_ofFormula hφ⟩ φ.stepBound with
    hexhausted | ⟨X, ρ', w, ⟨hsolved, hw⟩, _, ⟨S, hS, _⟩ | ⟨r', _, hrefuted⟩⟩
  · rw [hexhausted] at hrun
    exact absurd (Except.error.inj hrun) nofun
  · rw [hS] at hrun
    exact absurd hrun nofun
  · exact hw.not_refuted hM hvoc hQ hfolds hsolved r' hrefuted

end Formula

end Entail
