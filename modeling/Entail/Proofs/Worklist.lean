import Entail.Proofs.Steps
import Entail.Simplify.Run

set_option autoImplicit false

/-! # The worklist

What is kept true of a formula in the middle of simplification: names of variables in use are
taken, no bound variable occurs in a bound term. Looking at one equality, and absorbing the
disjunctions, states the same as before up to values of new variables. -/

namespace Entail

variable {V : Type}

namespace Worklist

/-- Everything that a worklist states holds. -/
structure Holds (A : Algebra V) (ρ : Variable → V) (w : Worklist) : Prop where
  bindings : w.bindings.Holds A ρ
  visited : ∀ e ∈ w.visited, e.Holds A ρ
  pending : ∀ e ∈ w.pending, e.Holds A ρ
  disjunctions : ∀ d ∈ w.disjunctions, d.Holds A ρ

/-- `p` holds of all subterms of a worklist. -/
structure Each (p : Term → Prop) (w : Worklist) : Prop where
  bindings : ∀ entry ∈ w.bindings.entries, p (.var entry.1) ∧ entry.2.All p
  visited : ∀ e ∈ w.visited, e.All p
  pending : ∀ e ∈ w.pending, e.All p
  disjunctions : ∀ d ∈ w.disjunctions, ∀ φ ∈ d, Formula.Each p φ

/-- The variables of `X` and the symbols of `Q` are in use; the names of the variables are taken,
    and the bindings are resolved. -/
structure Good (X : Variable → Prop) (Q : Symbol → Prop) (w : Worklist) : Prop where
  names : ∀ v, X v → v.name ∈ w.fresh.taken
  each : w.Each (Term.WithinHead X Q)
  resolved : w.bindings.Resolved

/-! ## The equality that is looked at -/

section Rewritten

variable {X : Variable → Prop} {Q : Symbol → Prop} {voc : Vocabulary} {facts : Facts}
  {s : Substitution}

theorem least_rewrite (voc : Vocabulary) (facts : Facts) (f : Variable → Option Term)
    (e : Equality) : (e.rewrite voc facts f).All (Term.LeastHead voc) :=
  ⟨Term.least_evaluate voc facts _, Term.least_evaluate voc facts _⟩

/-- Substituting resolved bindings leaves no bound variable. -/
theorem within_rewrite (hs : s.Resolved)
    (hwithin : ∀ entry ∈ s.entries, X entry.1 ∧ entry.2.Within X Q) {t : Term}
    (ht : t.Within X Q) :
    (t.rewrite voc facts s.get?).Within (fun v => X v ∧ ¬s.Binds v) Q := by
  refine Term.within_evaluate voc facts (Term.within_substitute ht fun v hv => ?_)
  cases hget : s.get? v with
  | none => exact ⟨hv, Substitution.not_binds_of_get? hget⟩
  | some u =>
    have hmem := Substitution.mem_of_get? hget
    have hu := (hwithin _ hmem).2
    exact Term.within_occurrences hu fun w hw => ⟨hu.occurrences w hw, hs.unbound _ hmem w hw⟩

end Rewritten

/-! ## Carrying out a step -/

section Applying

variable {voc : Vocabulary} {w w' : Worklist} {rest : List Equality} {step : Step}

theorem apply_bind {v : Variable} {t : Term} (h : w.apply voc rest (.bind v t) = .ok w') :
    ∃ s, w.bindings.compose voc .unknown (.singleton v t) = .ok s ∧
      w' = { w with bindings := s, pending := rest, progress := true } := by
  rw [apply] at h
  split at h
  · exact absurd h (by simp)
  · rename_i s hs
    exact ⟨s, hs, (Except.ok.inj h).symm⟩

/-- A step that binds binds a variable that is not bound yet to a term without bound variables. -/
def Fits (s : Substitution) : Step → Prop
  | .bind v t => ¬s.Binds v ∧ v ∉ t.occurrences ∧ ∀ w ∈ t.occurrences, ¬s.Binds w
  | _ => True

theorem exists_apply (voc : Vocabulary) (rest : List Equality) (hw : w.bindings.Resolved)
    (hfits : Fits w.bindings step) : ∃ w', w.apply voc rest step = .ok w' := by
  cases step with
  | bind v t =>
    obtain ⟨s, hs, _⟩ := Substitution.compose_singleton voc hw hfits.1 hfits.2.1 hfits.2.2
    exact ⟨_, by rw [apply, hs]⟩
  | _ => exact ⟨_, rfl⟩

theorem resolved_apply (hw : w.bindings.Resolved) (hfits : Fits w.bindings step)
    (h : w.apply voc rest step = .ok w') : w'.bindings.Resolved := by
  cases step with
  | bind v t =>
    obtain ⟨s, hs, rfl⟩ := apply_bind h
    exact (Substitution.compose_spec hw hfits.1 hfits.2.1 hfits.2.2 hs).1
  | _ =>
    obtain rfl := Except.ok.inj h
    exact hw

theorem fresh_apply (h : w.apply voc rest step = .ok w') :
    w'.fresh = step.namesAfter w.fresh := by
  cases step with
  | bind v t =>
    obtain ⟨_, _, rfl⟩ := apply_bind h
    rfl
  | _ =>
    obtain rfl := Except.ok.inj h
    rfl

/-- After a step the rest is stated together with what the step states. -/
theorem holds_apply_iff {A : Algebra V} {ρ : Variable → V} (hw : w.bindings.Resolved)
    (hfits : Fits w.bindings step) (h : w.apply voc rest step = .ok w') :
    w'.Holds A ρ ↔ Holds A ρ { w with pending := rest } ∧ step.Holds A ρ := by
  cases step with
  | drop =>
    obtain rfl := Except.ok.inj h
    exact (and_iff_left trivial).symm
  | keep e =>
    obtain rfl := Except.ok.inj h
    refine ⟨fun h => ?_, fun ⟨h, he⟩ => ?_⟩
    · obtain ⟨hvisited, he⟩ := List.forall_mem_append.mp h.visited
      exact ⟨⟨h.bindings, hvisited, h.pending, h.disjunctions⟩, he e (List.mem_singleton.mpr rfl)⟩
    · exact ⟨h.bindings, List.forall_mem_append.mpr ⟨h.visited, List.forall_mem_singleton.mpr he⟩,
        h.pending, h.disjunctions⟩
  | split parts ds =>
    obtain rfl := Except.ok.inj h
    refine ⟨fun h => ?_, fun ⟨h, hstep⟩ => ?_⟩
    · obtain ⟨hparts, hrest⟩ := List.forall_mem_append.mp h.pending
      obtain ⟨hds, hnew⟩ := List.forall_mem_append.mp h.disjunctions
      exact ⟨⟨h.bindings, h.visited, hrest, hds⟩, hparts, hnew⟩
    · exact ⟨h.bindings, h.visited, List.forall_mem_append.mpr ⟨hstep.1, h.pending⟩,
        List.forall_mem_append.mpr ⟨h.disjunctions, hstep.2⟩⟩
  | introduce parts names =>
    obtain rfl := Except.ok.inj h
    refine ⟨fun h => ?_, fun ⟨h, hstep⟩ => ?_⟩
    · obtain ⟨hparts, hrest⟩ := List.forall_mem_append.mp h.pending
      exact ⟨⟨h.bindings, h.visited, hrest, h.disjunctions⟩, hparts⟩
    · exact ⟨h.bindings, h.visited, List.forall_mem_append.mpr ⟨hstep, h.pending⟩,
        h.disjunctions⟩
  | bind v t =>
    obtain ⟨s, hs, rfl⟩ := apply_bind h
    have hbindings := (Substitution.compose_spec hw hfits.1 hfits.2.1 hfits.2.2 hs).2.2 A ρ
    refine ⟨fun h => ?_, fun ⟨h, hstep⟩ => ?_⟩
    · obtain ⟨hold, hnew⟩ := hbindings.mp h.bindings
      exact ⟨⟨hold, h.visited, h.pending, h.disjunctions⟩, hnew⟩
    · exact ⟨hbindings.mpr ⟨h.bindings, hstep⟩, h.visited, h.pending, h.disjunctions⟩

theorem each_apply {p : Term → Prop} (hw : w.bindings.Resolved) (hfits : Fits w.bindings step)
    (hrest : Each p { w with pending := rest }) (hstep : step.EachPart p)
    (hrewrite : ∀ v t, step = .bind v t → ∀ u : Term, u.All p →
      (u.rewrite voc .unknown (Substitution.singleton v t).get?).All p)
    (h : w.apply voc rest step = .ok w') : w'.Each p := by
  obtain ⟨hbindings, hvisited, hpending, hdisjunctions⟩ := hrest
  cases step with
  | drop =>
    obtain rfl := Except.ok.inj h
    exact ⟨hbindings, hvisited, hpending, hdisjunctions⟩
  | keep e =>
    obtain rfl := Except.ok.inj h
    exact ⟨hbindings, List.forall_mem_append.mpr ⟨hvisited, List.forall_mem_singleton.mpr hstep⟩,
      hpending, hdisjunctions⟩
  | split parts ds =>
    obtain rfl := Except.ok.inj h
    exact ⟨hbindings, hvisited, List.forall_mem_append.mpr ⟨hstep.1, hpending⟩,
      List.forall_mem_append.mpr ⟨hdisjunctions, hstep.2⟩⟩
  | introduce parts names =>
    obtain rfl := Except.ok.inj h
    exact ⟨hbindings, hvisited, List.forall_mem_append.mpr ⟨hstep, hpending⟩, hdisjunctions⟩
  | bind v t =>
    obtain ⟨s, hs, rfl⟩ := apply_bind h
    refine ⟨?_, hvisited, hpending, hdisjunctions⟩
    exact Substitution.forall_mem_compose hw hfits.1 hfits.2.1 hfits.2.2 hs hstep fun old hold =>
      ⟨(hbindings old hold).1, hrewrite v t rfl old.2 (hbindings old hold).2⟩

end Applying

/-! ## Looking at an equality -/

section Visiting

variable {X : Variable → Prop} {Q : Symbol → Prop} {voc : Vocabulary} {mode : SimplifyMode}
  {w w' : Worklist} {e : Equality} {rest : List Equality}

/-- The equality that is decided about: rewritten with the bindings, and evaluated against what else
    is stated. -/
def looked (voc : Vocabulary) (w : Worklist) (e : Equality) (rest : List Equality) : Equality :=
  e.rewrite voc (w.restFacts rest) w.bindings.get?

theorem looked_holds_iff {A : Algebra V} {ρ : Variable → V} (hbindings : w.bindings.Holds A ρ)
    (hvisited : ∀ e ∈ w.visited, e.Holds A ρ) (hrest : ∀ e ∈ rest, e.Holds A ρ) :
    (w.looked voc e rest).Holds A ρ ↔ e.Holds A ρ :=
  Equality.holds_rewrite_iff voc
    (Facts.ofParts_sound hbindings (List.forall_mem_append.mpr ⟨hvisited, hrest⟩))
    hbindings.get? e

theorem Good.within_looked (voc : Vocabulary) (hw : w.Good X Q) (hpending : w.pending = e :: rest) :
    (w.looked voc e rest).All (Term.WithinHead (fun v => X v ∧ ¬w.bindings.Binds v) Q) := by
  have he := hw.each.pending e (hpending ▸ List.mem_cons_self ..)
  exact ⟨within_rewrite hw.resolved hw.each.bindings he.1,
    within_rewrite hw.resolved hw.each.bindings he.2⟩

theorem Good.within_looked_scope (voc : Vocabulary) (hw : w.Good X Q)
    (hpending : w.pending = e :: rest) :
    (w.looked voc e rest).All (Term.WithinHead X Q) := by
  have hwithin := hw.within_looked voc hpending
  exact ⟨Term.Within.mono (fun _ hv => hv.1) hwithin.1,
    Term.Within.mono (fun _ hv => hv.1) hwithin.2⟩

/-- What a step comes to that was decided about an equality of a worklist. -/
theorem Good.step_spec (hw : w.Good X Q) (hpending : w.pending = e :: rest) {step : Step}
    (h : Step.classify voc Unifier.structural mode w.fresh (w.looked voc e rest) = .ok step) :
    Fits w.bindings step ∧ step.Each (Term.WithinHead (step.scope X) Q) ∧
      Extends X (step.scope X) w.fresh (step.namesAfter w.fresh) := by
  have hwithin := hw.within_looked voc hpending
  have hX := hw.within_looked_scope voc hpending
  have hoccurrences : ∀ v ∈ (w.looked voc e rest).occurrences, X v := by
    intro v hv
    rcases List.mem_append.mp hv with hv | hv
    · exact Term.Within.occurrences hX.1 v hv
    · exact Term.Within.occurrences hX.2 v hv
  refine ⟨?_, Step.within_scope hX h, Step.extends_scope hoccurrences hw.names h⟩
  cases step with
  | bind v t =>
    have hunbound := Step.within_scope hwithin h
    exact ⟨hunbound.1.2, Step.not_occurs_of_classify h,
      fun x hx => (Term.Within.occurrences hunbound.2 x hx).2⟩
  | _ => trivial

theorem visit_eq (voc : Vocabulary) (mode : SimplifyMode) (w : Worklist) (e : Equality)
    (rest : List Equality) : w.visit voc Unifier.structural mode e rest =
      match Step.classify voc Unifier.structural mode w.fresh (w.looked voc e rest) with
      | .error refutation => .error refutation
      | .ok step => w.apply voc rest step := rfl

/-- Looking at an equality fails only where its step does. -/
theorem visit_of_step (hw : w.Good X Q) (hpending : w.pending = e :: rest) {step : Step}
    (h : Step.classify voc Unifier.structural mode w.fresh (w.looked voc e rest) = .ok step) :
    ∃ w', w.visit voc Unifier.structural mode e rest = .ok w' ∧
      w.apply voc rest step = .ok w' := by
  obtain ⟨w', hw'⟩ := exists_apply voc rest hw.resolved
    (hw.step_spec hpending h).1
  exact ⟨w', by rw [visit_eq, h]; exact hw', hw'⟩

theorem step_of_visit {unifier : Unifier} (h : w.visit voc unifier mode e rest = .ok w') :
    ∃ step, Step.classify voc unifier mode w.fresh (w.looked voc e rest) = .ok step ∧
      w.apply voc rest step = .ok w' := by
  unfold visit at h
  split at h
  · exact absurd h nofun
  · rename_i step hstep
    exact ⟨step, hstep, h⟩

theorem refuted_of_visit (hw : w.Good X Q) (hpending : w.pending = e :: rest) {r : Refutation}
    (h : w.visit voc Unifier.structural mode e rest = .error r) :
    Step.classify voc Unifier.structural mode w.fresh (w.looked voc e rest) = .error r := by
  cases hstep : Step.classify voc Unifier.structural mode w.fresh (w.looked voc e rest) with
  | error r' =>
    rw [visit_eq, hstep] at h
    rw [Except.error.inj h]
  | ok step =>
    obtain ⟨w', hw', _⟩ := visit_of_step hw hpending hstep
    rw [h] at hw'
    exact absurd hw' nofun

end Visiting

end Worklist

end Entail
