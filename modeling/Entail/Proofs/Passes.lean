import Entail.Proofs.Worklist

set_option autoImplicit false

/-! # The steps of a pass

A step looks at the next equality, or ends the pass when none is left. Each step keeps the worklist
in order and states the same as before, up to values of the variables it introduces. -/

namespace Entail

variable {V : Type}

namespace Worklist

/-! ## Absorbing disjunctions -/

section Absorbing

variable {voc : Vocabulary} {s : Substitution} {d : Disjunction} {ds : List Disjunction}
  {a : Absorbed}

theorem absorb_cons (h : absorb voc s (d :: ds) = .ok a) :
    ∃ t es kept rest, Formula.top.addDisjunction (d.rewrite voc .unknown s.get?) = .all t es kept ∧
      absorb voc s ds = .ok rest ∧ a.equalities = t.equalities ++ es ++ rest.equalities ∧
      a.disjunctions = kept ++ rest.disjunctions ∧
      (a.collapsed = false → t.equalities ++ es = [] ∧ rest.collapsed = false) := by
  rw [absorb] at h
  split at h
  · exact absurd h nofun
  · rename_i t es kept hadded
    split at h
    · exact absurd h nofun
    · rename_i rest hrest
      obtain rfl := Except.ok.inj h
      refine ⟨t, es, kept, rest, hadded, hrest, rfl, rfl, fun hcollapsed => ?_⟩
      rw [Bool.or_eq_false_iff] at hcollapsed
      refine ⟨?_, hcollapsed.2⟩
      -- what stays as it is, and what is simply true, states no equality
      have hnone : es.isEmpty = true ∧ t.isEmpty = true := by
        have hstays := hcollapsed.1
        simp only [Formula.isTrue] at hstays
        revert hstays
        cases es.isEmpty <;> cases t.isEmpty <;> simp
      rw [List.isEmpty_iff, Substitution.isEmpty, List.isEmpty_iff] at hnone
      rw [Substitution.equalities, hnone.1, hnone.2]
      rfl

/-- Disjunctions that stay as they are come with no equalities. -/
theorem equalities_of_not_collapsed (h : absorb voc s ds = .ok a) (hcollapsed : a.collapsed = false) :
    a.equalities = [] := by
  induction ds generalizing a with
  | nil =>
    obtain rfl := Except.ok.inj h
    rfl
  | cons d ds ih =>
    obtain ⟨t, es, kept, rest, _, hrest, heqs, _, hstays⟩ := absorb_cons h
    obtain ⟨hnone, hrestStays⟩ := hstays hcollapsed
    rw [heqs, hnone, ih hrest hrestStays, List.append_nil]

variable {A : Algebra V} {ρ : Variable → V}

theorem added_holds_iff (voc : Vocabulary) (hs : s.Holds A ρ) (d : Disjunction) :
    (Formula.top.addDisjunction (d.rewrite voc .unknown s.get?)).Holds A ρ ↔ d.Holds A ρ := by
  have hunbound := Disjunction.unbound_rewrite (p := Term.FlatHead) (fun _ => trivial)
    fun φ (_ : φ ∈ d) => Formula.rewritesTo_flat voc .unknown s.get? φ
  rw [Formula.addDisjunction, Formula.holds_addDisjunctions_iff (List.forall_mem_singleton.mpr
    hunbound), List.forall_mem_singleton, Disjunction.holds_rewrite_iff (Facts.unknown_sound A ρ)
    hs.get?, and_iff_right (Formula.holds_top A ρ)]

/-- What absorbing gives states what the disjunctions state. -/
theorem absorb_holds_iff (hs : s.Holds A ρ) (h : absorb voc s ds = .ok a) :
    ((∀ e ∈ a.equalities, e.Holds A ρ) ∧ ∀ d ∈ a.disjunctions, d.Holds A ρ) ↔
      ∀ d ∈ ds, d.Holds A ρ := by
  induction ds generalizing a with
  | nil =>
    obtain rfl := Except.ok.inj h
    exact ⟨fun _ => nofun, fun _ => ⟨nofun, nofun⟩⟩
  | cons d ds ih =>
    obtain ⟨t, es, kept, rest, hadded, hrest, heqs, hds, _⟩ := absorb_cons h
    have hd := added_holds_iff voc hs d
    rw [hadded, Step.structural_holds_iff] at hd
    rw [heqs, hds, List.forall_mem_append, List.forall_mem_append (p := Disjunction.Holds A ρ),
      List.forall_mem_cons, ← hd, ← ih hrest, and_and_and_comm]

/-- Where all disjunctions hold, absorbing them refutes nothing. -/
theorem exists_absorb (voc : Vocabulary) (hs : s.Holds A ρ) (hds : ∀ d ∈ ds, d.Holds A ρ) :
    ∃ a, absorb voc s ds = .ok a := by
  induction ds with
  | nil => exact ⟨_, rfl⟩
  | cons d ds ih =>
    rw [List.forall_mem_cons] at hds
    obtain ⟨rest, hrest⟩ := ih hds.2
    have hd := (added_holds_iff voc hs d).mpr hds.1
    rw [absorb]
    split
    · rename_i w hadded
      rw [hadded] at hd
      exact absurd hd (Formula.not_holds_falsified A ρ w)
    · rw [hrest]
      exact ⟨_, rfl⟩

theorem each_absorb {p q : Term → Prop} (hp : ∀ b, p (.bool b))
    (hrewrite : ∀ t : Term, t.All q → (t.rewrite voc .unknown s.get?).All p)
    (hds : ∀ d ∈ ds, ∀ φ ∈ d, Formula.Each q φ) (h : absorb voc s ds = .ok a) :
    (∀ e ∈ a.equalities, e.All p) ∧
      ∀ d ∈ a.disjunctions, ∀ φ ∈ d, Formula.Unbound (Equality.All p) φ := by
  induction ds generalizing a with
  | nil =>
    obtain rfl := Except.ok.inj h
    exact ⟨nofun, nofun⟩
  | cons d ds ih =>
    obtain ⟨t, es, kept, rest, hadded, hrest, heqs, hkept, _⟩ := absorb_cons h
    rw [List.forall_mem_cons] at hds
    obtain ⟨hrestEqs, hrestDs⟩ := ih hds.2 hrest
    have hd : (Formula.top.addDisjunction (d.rewrite voc .unknown s.get?)).Unbound
        (Equality.All p) := by
      refine Formula.unbound_addDisjunctions hp (List.forall_mem_singleton.mpr ?_)
        (Formula.everywhere_top rfl)
      exact Disjunction.unbound_rewrite hp fun φ hφ =>
        Formula.rewritesTo_of_each hrewrite (hds.1 φ hφ)
    rw [hadded, Formula.Unbound, Formula.everywhere_all_iff] at hd
    obtain ⟨ht, hes, hdsKept⟩ := hd
    rw [heqs, hkept, Substitution.equalities, ht]
    exact ⟨List.forall_mem_append.mpr ⟨hes, hrestEqs⟩,
      List.forall_mem_append.mpr ⟨hdsKept, hrestDs⟩⟩

end Absorbing

/-! ## What can become of a worklist -/

/-- The possible ways to end a pass, with what is known of them. -/
inductive Ended (voc : Vocabulary) (w : Worklist) : Except Refutation (Worklist ⊕ Formula) → Prop
  | again (hprogress : w.progress = true) : Ended voc w
      (.ok (.inl { w with visited := [], pending := w.visited, progress := false }))
  | refuted (r : Refutation) (habsorb : absorb voc w.bindings w.disjunctions = .error r) :
      Ended voc w (.error r)
  | absorbed (a : Absorbed) (habsorb : absorb voc w.bindings w.disjunctions = .ok a)
      (hcollapsed : a.collapsed = true) (hprogress : w.progress = false) :
      Ended voc w (.ok (.inl { w with
        visited := []
        pending := w.visited ++ a.equalities
        disjunctions := Sorted.dedup Disjunction.cmp a.disjunctions }))
  | done (a : Absorbed) (habsorb : absorb voc w.bindings w.disjunctions = .ok a)
      (hstays : a.collapsed = false) (hprogress : w.progress = false) :
      Ended voc w (.ok (.inr
        { w with disjunctions := Sorted.dedup Disjunction.cmp a.disjunctions }.toFormula))

theorem ended (voc : Vocabulary) (w : Worklist) : Ended voc w (w.endPass voc) := by
  unfold endPass
  split
  · rename_i hprogress
    exact .again hprogress
  · rename_i hprogress
    rw [Bool.not_eq_true] at hprogress
    split
    · rename_i r habsorb
      exact .refuted r habsorb
    · rename_i a habsorb
      dsimp only
      split
      · rename_i hcollapsed
        exact .absorbed a habsorb hcollapsed hprogress
      · rename_i hcollapsed
        exact .done a habsorb (Bool.not_eq_true _ ▸ hcollapsed) hprogress

section Stepping

variable {X : Variable → Prop} {Q : Symbol → Prop} {voc : Vocabulary} {mode : SimplifyMode}
  {w w' : Worklist} {φ : Formula}

/-- The possible next steps. -/
theorem next_cases (voc : Vocabulary) (unifier : Unifier) (mode : SimplifyMode) (w : Worklist) :
    (w.pending = [] ∧ Ended voc w (w.next voc unifier mode)) ∨
      ∃ e rest, w.pending = e :: rest ∧ w.next voc unifier mode =
        (w.visit voc unifier mode e rest).map .inl := by
  unfold next
  split
  · rename_i hpending
    exact Or.inl ⟨hpending, ended voc w⟩
  · rename_i e rest hpending
    refine Or.inr ⟨e, rest, hpending, ?_⟩
    cases w.visit voc unifier mode e rest <;> rfl

/-- A step that goes on visits an equality or starts another pass. -/
theorem next_inl_cases {unifier : Unifier} (h : w.next voc unifier mode = .ok (.inl w')) :
    (w.pending = [] ∧ Ended voc w (.ok (.inl w'))) ∨
      ∃ e rest, w.pending = e :: rest ∧ w.visit voc unifier mode e rest = .ok w' := by
  rcases next_cases voc unifier mode w with ⟨hpending, hended⟩ | ⟨e, rest, hpending, hnext⟩
  · rw [h] at hended
    exact Or.inl ⟨hpending, hended⟩
  · rw [h] at hnext
    cases hvisit : w.visit voc unifier mode e rest with
    | error r =>
      rw [hvisit] at hnext
      exact absurd hnext nofun
    | ok w'' =>
      rw [hvisit] at hnext
      obtain rfl := Sum.inl.inj (Except.ok.inj hnext)
      exact Or.inr ⟨e, rest, hpending, hvisit⟩

/-- Only the end of a pass gives a result. -/
theorem ended_of_next_inr {unifier : Unifier} (h : w.next voc unifier mode = .ok (.inr φ)) :
    w.pending = [] ∧ Ended voc w (.ok (.inr φ)) := by
  rcases next_cases voc unifier mode w with ⟨hpending, hended⟩ | ⟨e, rest, _, hnext⟩
  · rw [h] at hended
    exact ⟨hpending, hended⟩
  · rw [h] at hnext
    cases hvisit : w.visit voc unifier mode e rest with
    | error r =>
      rw [hvisit] at hnext
      exact absurd hnext nofun
    | ok w'' =>
      rw [hvisit] at hnext
      exact absurd (Except.ok.inj hnext) nofun

/-- Simplification is done when all disjunctions stay as they are. -/
theorem next_inr_cases {unifier : Unifier} (h : w.next voc unifier mode = .ok (.inr φ)) :
    w.pending = [] ∧ ∃ a, absorb voc w.bindings w.disjunctions = .ok a ∧ a.equalities = [] ∧
      φ = Formula.ofParts w.bindings w.visited
        (Sorted.dedup Disjunction.cmp a.disjunctions) := by
  obtain ⟨hpending, hended⟩ := ended_of_next_inr h
  cases hended with
  | done a habsorb hstays =>
    exact ⟨hpending, a, habsorb, equalities_of_not_collapsed habsorb hstays, rfl⟩

/-- The last pass eliminates nothing. -/
theorem progress_of_next_inr {unifier : Unifier} (h : w.next voc unifier mode = .ok (.inr φ)) :
    w.progress = false := by
  cases (ended_of_next_inr h).2 with
  | done _ _ _ hprogress => exact hprogress

/-- The variables in use after a step. -/
def scope (voc : Vocabulary) (mode : SimplifyMode) (X : Variable → Prop) (w : Worklist) :
    Variable → Prop :=
  match w.pending with
  | [] => X
  | e :: rest =>
    match Step.classify voc Unifier.structural mode w.fresh (w.looked voc e rest) with
    | .error _ => X
    | .ok step => step.scope X

theorem scope_nil (h : w.pending = []) : w.scope voc mode X = X := by
  rw [scope, h]

theorem scope_cons {e : Equality} {rest : List Equality} (h : w.pending = e :: rest) {step : Step}
    (hstep : Step.classify voc Unifier.structural mode w.fresh (w.looked voc e rest) = .ok step) :
    w.scope voc mode X = step.scope X := by
  simp only [scope, h, hstep]

/-! ## What stays in order -/

/-- A step keeps what holds of all subterms, if rewriting and deciding do, whatever the unifier. -/
theorem each_next_of_fits {unifier : Unifier} {p : Term → Prop} (hp : ∀ b, p (.bool b))
    (hresolved : w.bindings.Resolved) (heach : w.Each p)
    (hvisit : ∀ e rest step, w.pending = e :: rest →
      Step.classify voc unifier mode w.fresh (w.looked voc e rest) = .ok step →
      Fits w.bindings step ∧ step.EachPart p ∧ ∀ v t, step = .bind v t → ∀ u : Term, u.All p →
        (u.rewrite voc .unknown (Substitution.singleton v t).get?).All p)
    (habsorb : ∀ t : Term, t.All p → (t.rewrite voc .unknown w.bindings.get?).All p)
    (h : w.next voc unifier mode = .ok (.inl w')) : w'.Each p := by
  rcases next_inl_cases h with ⟨hpending, hended⟩ | ⟨e, rest, hpending, hvisited⟩
  · cases hended with
    | again => exact ⟨heach.bindings, nofun, heach.visited, heach.disjunctions⟩
    | absorbed a ha =>
      obtain ⟨hes, hds⟩ := each_absorb hp habsorb heach.disjunctions ha
      exact ⟨heach.bindings, nofun, List.forall_mem_append.mpr ⟨heach.visited, hes⟩,
        fun d hd φ hφ => (hds d (Sorted.mem_dedup hd) φ hφ).each⟩
  · obtain ⟨step, hstep, happly⟩ := step_of_visit hvisited
    obtain ⟨hfits, hsteps, hrewrite⟩ := hvisit e rest step hpending hstep
    have hrest : Each p { w with pending := rest } :=
      ⟨heach.bindings, heach.visited,
        fun e' he' => heach.pending e' (hpending ▸ List.mem_cons_of_mem _ he'), heach.disjunctions⟩
    exact each_apply hresolved hfits hrest hsteps hrewrite happly

/-- A step of structural unification keeps what holds of all subterms. -/
theorem each_next {p : Term → Prop} (hp : ∀ b, p (.bool b)) (hw : w.Good X Q) (heach : w.Each p)
    (hvisit : ∀ e rest step, w.pending = e :: rest →
      Step.classify voc Unifier.structural mode w.fresh (w.looked voc e rest) = .ok step →
      step.Each p ∧ ∀ v t, step = .bind v t → ∀ u : Term, u.All p →
        (u.rewrite voc .unknown (Substitution.singleton v t).get?).All p)
    (habsorb : ∀ t : Term, t.All p → (t.rewrite voc .unknown w.bindings.get?).All p)
    (h : w.next voc Unifier.structural mode = .ok (.inl w')) : w'.Each p := by
  refine each_next_of_fits hp hw.resolved heach (fun e rest step hpending hstep => ?_) habsorb h
  obtain ⟨hsteps, hrewrite⟩ := hvisit e rest step hpending hstep
  exact ⟨(hw.step_spec hpending hstep).1, hsteps.eachPart, hrewrite⟩

/-- What follows for a term from what is known of it and of all that is below it. -/
theorem Each.imp {p q r : Term → Prop} (hpq : ∀ t : Term, t.All r → p t → q t) (hr : w.Each r)
    (h : w.Each p) : w.Each q where
  bindings entry hentry := ⟨hpq _ (hr.bindings entry hentry).1 (h.bindings entry hentry).1,
    Term.All.imp hpq (hr.bindings entry hentry).2 (h.bindings entry hentry).2⟩
  visited e he := ⟨Term.All.imp hpq (hr.visited e he).1 (h.visited e he).1,
    Term.All.imp hpq (hr.visited e he).2 (h.visited e he).2⟩
  pending e he := ⟨Term.All.imp hpq (hr.pending e he).1 (h.pending e he).1,
    Term.All.imp hpq (hr.pending e he).2 (h.pending e he).2⟩
  disjunctions d hd φ hφ := Formula.Each.imp hpq (hr.disjunctions d hd φ hφ)
    (h.disjunctions d hd φ hφ)

/-- A step brings in new variables only, and keeps the worklist in order. -/
theorem Good.next (hw : w.Good X Q) (h : w.next voc Unifier.structural mode = .ok (.inl w')) :
    Extends X (w.scope voc mode X) w.fresh w'.fresh ∧ w'.Good (w.scope voc mode X) Q := by
  -- variables of `X` stay in use, so the worklist is within the new variables already
  have heach (hold : ∀ v, X v → w.scope voc mode X v) :
      w'.Each (Term.WithinHead (w.scope voc mode X) Q) := by
    have hwithin : w.Each (Term.WithinHead (w.scope voc mode X) Q) := by
      refine Each.imp (fun t _ ht => ?_) hw.each hw.each
      cases t with
      | var v => exact hold v ht
      | _ => exact ht
    refine each_next (fun _ => trivial) hw hwithin (fun e rest step hpending hstep => ?_)
      (fun t ht => ?_) h
    · have hscope := scope_cons (X := X) hpending hstep
      have hsteps := (hw.step_spec hpending hstep).2.1
      rw [← hscope] at hsteps
      refine ⟨hsteps, fun v t hbind u hu => ?_⟩
      subst hbind
      refine Term.within_evaluate voc .unknown (Term.within_substitute hu fun x hx => ?_)
      rw [Substitution.get?_singleton]
      split_ifs
      · exact hsteps.2
      · exact hx
    · refine Term.Within.mono (fun v hv => hv.1) (within_rewrite hw.resolved ?_ ht)
      exact hwithin.bindings
  rcases next_inl_cases h with ⟨hpending, hended⟩ | ⟨e, rest, hpending, hvisited⟩
  · have hsame : w'.fresh = w.fresh ∧ w'.bindings = w.bindings := by
      cases hended <;> exact ⟨rfl, rfl⟩
    have hscope : w.scope voc mode X = X := scope_nil hpending
    rw [hscope] at heach ⊢
    rw [hsame.1]
    exact ⟨Extends.refl hw.names, hsame.1 ▸ hw.names, heach fun v hv => hv, hsame.2 ▸ hw.resolved⟩
  · obtain ⟨step, hstep, happly⟩ := step_of_visit hvisited
    obtain ⟨hfits, _, hextends⟩ := hw.step_spec hpending hstep
    have hscope := scope_cons (X := X) hpending hstep
    rw [hscope] at heach ⊢
    rw [← fresh_apply happly] at hextends
    exact ⟨hextends, hextends.known, heach hextends.old, resolved_apply hw.resolved hfits happly⟩

/-- What holds of all subterms of bindings and equalities, and of all rewritten terms, holds of all
    subterms of the result. -/
theorem each_done {p q : Term → Prop} (hp : ∀ b, p (.bool b))
    (hbindings : ∀ entry ∈ w.bindings.entries, p (.var entry.1) ∧ entry.2.All p)
    (hvisited : ∀ e ∈ w.visited, e.All p)
    (hdisjunctions : ∀ d ∈ w.disjunctions, ∀ φ ∈ d, Formula.Each q φ)
    (habsorb : ∀ t : Term, t.All q → (t.rewrite voc .unknown w.bindings.get?).All p)
    {unifier : Unifier} (h : w.next voc unifier mode = .ok (.inr φ)) : φ.Each p := by
  obtain ⟨_, a, ha, _, rfl⟩ := next_inr_cases h
  have hds := (each_absorb hp habsorb hdisjunctions ha).2
  rw [Formula.ofParts, Formula.Each, Formula.everywhere_all_iff]
  exact ⟨hbindings, fun e he => hvisited e (Sorted.mem_ofListLast he),
    fun d hd φ hφ => (hds d (Sorted.mem_dedup (Sorted.mem_ofListLast hd)) φ hφ).each⟩

/-- The result is within the variables of the worklist. -/
theorem Good.done (hw : w.Good X Q) (h : w.next voc Unifier.structural mode = .ok (.inr φ)) :
    φ.Each (Term.WithinHead X Q) :=
  each_done (fun _ => trivial) hw.each.bindings hw.each.visited hw.each.disjunctions
    (fun _ ht => Term.Within.mono (fun _ hv => hv.1)
      (within_rewrite hw.resolved hw.each.bindings ht)) h

/-! ## What is stated -/

section Backward

variable {A : Algebra V} {ρ : Variable → V}

/-- Where the worklist after a step holds, the one before does. -/
theorem holds_of_next (hw : w.Good X Q) (h : w.next voc Unifier.structural mode = .ok (.inl w'))
    (hholds : w'.Holds A ρ) : w.Holds A ρ := by
  rcases next_inl_cases h with ⟨hpending, hended⟩ | ⟨e, rest, hpending, hvisited⟩
  · cases hended with
    | again => exact ⟨hholds.bindings, hholds.pending, by rw [hpending]; nofun, hholds.disjunctions⟩
    | absorbed a ha =>
      obtain ⟨hvisited, hes⟩ := List.forall_mem_append.mp hholds.pending
      have hds := (Sorted.forall_mem_dedup (P := Disjunction.Holds A ρ)
        (fun _ _ => Disjunction.holds_congr) _).mp hholds.disjunctions
      exact ⟨hholds.bindings, hvisited, by rw [hpending]; nofun,
        (absorb_holds_iff hholds.bindings ha).mp ⟨hes, hds⟩⟩
  · obtain ⟨step, hstep, happly⟩ := step_of_visit hvisited
    obtain ⟨hrest, hsteps⟩ :=
      (holds_apply_iff hw.resolved (hw.step_spec hpending hstep).1 happly).mp hholds
    have he := (looked_holds_iff hrest.bindings hrest.visited hrest.pending).mp
      (Step.holds_of_classify hstep hsteps)
    refine ⟨hrest.bindings, hrest.visited, ?_, hrest.disjunctions⟩
    rw [hpending]
    exact List.forall_mem_cons.mpr ⟨he, hrest.pending⟩

/-- The result states what the last worklist states. -/
theorem holds_done_iff (h : w.next voc Unifier.structural mode = .ok (.inr φ)) :
    φ.Holds A ρ ↔ w.Holds A ρ := by
  obtain ⟨hpending, a, ha, hnone, rfl⟩ := next_inr_cases h
  rw [Formula.holds_ofParts_iff, Sorted.forall_mem_dedup (P := Disjunction.Holds A ρ)
    fun _ _ => Disjunction.holds_congr]
  have habsorb (hs : w.bindings.Holds A ρ) := absorb_holds_iff hs ha
  rw [hnone] at habsorb
  constructor
  · rintro ⟨hs, hes, hds⟩
    exact ⟨hs, hes, by rw [hpending]; nofun, (habsorb hs).mp ⟨nofun, hds⟩⟩
  · intro hholds
    exact ⟨hholds.bindings, hholds.visited, ((habsorb hholds.bindings).mpr hholds.disjunctions).2⟩

end Backward

section Forward

variable {M : Model V} {D : SortName → Prop} {ρ : Variable → V}

theorem rest_holds (voc : Vocabulary) {A : Algebra V} (hholds : w.Holds A ρ) {e : Equality}
    {rest : List Equality} (hpending : w.pending = e :: rest) :
    Holds A ρ { w with pending := rest } ∧ (w.looked voc e rest).Holds A ρ := by
  obtain ⟨hs, hvisited, hpendings, hds⟩ := hholds
  rw [hpending, List.forall_mem_cons] at hpendings
  exact ⟨⟨hs, hvisited, hpendings.2, hds⟩,
    (looked_holds_iff hs hvisited hpendings.2).mpr hpendings.1⟩

/-- Values that differ only for new variables state the same of a worklist. -/
theorem Good.holds_congr {A : Algebra V} {ρ' : Variable → V} (hw : w.Good X Q)
    (hkept : ∀ v, v.name ∈ w.fresh.taken → ρ' v = ρ v) (hholds : w.Holds A ρ) : w.Holds A ρ' := by
  have hterm {t : Term} (ht : t.Within X Q) : t.eval A ρ' = t.eval A ρ :=
    Term.eval_congr A t fun v hv => hkept v (hw.names v (Term.Within.occurrences ht v hv))
  have hequality {e : Equality} (he : e.All (Term.WithinHead X Q)) (h : e.Holds A ρ) :
      e.Holds A ρ' := by
    rw [Equality.Holds, hterm he.1, hterm he.2]
    exact h
  have hformula {φ : Formula} (hφ : φ.Each (Term.WithinHead X Q)) (h : φ.Holds A ρ) :
      φ.Holds A ρ' := by
    induction φ using Formula.ind with
    | falsified w => exact h
    | all s es ds ih =>
      obtain ⟨hs, hes, hds⟩ := (Formula.everywhere_all_iff s es ds).mp hφ
      rw [Formula.holds_all_iff] at h ⊢
      refine ⟨fun entry hentry => ?_, fun e he => hequality (hes e he) (h.2.1 e he),
        fun d hd => ?_⟩
      · rw [hkept _ (hw.names _ (hs entry hentry).1), hterm (hs entry hentry).2]
        exact h.1 entry hentry
      · obtain ⟨φ, hφ, hholds⟩ := h.2.2 d hd
        exact ⟨φ, hφ, ih d hd φ hφ (hds d hd φ hφ) hholds⟩
  refine ⟨fun entry hentry => ?_, fun e he => hequality (hw.each.visited e he) (hholds.visited e he),
    fun e he => hequality (hw.each.pending e he) (hholds.pending e he), fun d hd => ?_⟩
  · obtain ⟨hv, ht⟩ := hw.each.bindings entry hentry
    rw [hkept _ (hw.names _ hv), hterm ht]
    exact hholds.bindings entry hentry
  · obtain ⟨φ, hφ, h⟩ := hholds.disjunctions d hd
    exact ⟨φ, hφ, hformula (hw.each.disjunctions d hd φ hφ) h⟩

/-- The sorts of the variables in use stay in `D`. -/
theorem sorts_of_next (hM : M.Lossless voc Q D) (hw : w.Good X Q) (hD : ∀ v, X v → D v.sort)
    (h : w.next voc Unifier.structural mode = .ok (.inl w')) :
    ∀ v, w.scope voc mode X v → D v.sort := by
  rcases next_inl_cases h with ⟨hpending, _⟩ | ⟨e, rest, hpending, hvisited⟩
  · rw [scope_nil hpending]
    exact hD
  · obtain ⟨step, hstep, _⟩ := step_of_visit hvisited
    rw [scope_cons hpending hstep]
    exact Step.sorts_of_classify hM (least_rewrite voc _ _ e) (hw.within_looked_scope voc hpending) hD
      hstep

/-- Values for which the worklist holds can be extended to the new variables of a step so that the
    worklist after it holds. -/
theorem exists_of_next (hM : M.Lossless voc Q D) (hfolds : M.Folds mode) (hw : w.Good X Q)
    (hD : ∀ v, X v → D v.sort) (hρ : M.Respects X ρ) (hholds : w.Holds M.toAlgebra ρ)
    (h : w.next voc Unifier.structural mode = .ok (.inl w')) :
    ∃ ρ' : Variable → V, (∀ v, v.name ∈ w.fresh.taken → ρ' v = ρ v) ∧
      M.Respects (w.scope voc mode X) ρ' ∧ w'.Holds M.toAlgebra ρ' := by
  rcases next_inl_cases h with ⟨hpending, hended⟩ | ⟨e, rest, hpending, hvisited⟩
  · rw [scope_nil hpending]
    refine ⟨ρ, fun _ _ => rfl, hρ, ?_⟩
    cases hended with
    | again => exact ⟨hholds.bindings, nofun, hholds.visited, hholds.disjunctions⟩
    | absorbed a ha =>
      obtain ⟨hes, hds⟩ := (absorb_holds_iff hholds.bindings ha).mpr hholds.disjunctions
      exact ⟨hholds.bindings, nofun, List.forall_mem_append.mpr ⟨hholds.visited, hes⟩,
        (Sorted.forall_mem_dedup (P := Disjunction.Holds M.toAlgebra ρ)
          (fun _ _ => Disjunction.holds_congr) _).mpr hds⟩
  · obtain ⟨step, hstep, happly⟩ := step_of_visit hvisited
    obtain ⟨_, he⟩ := rest_holds voc hholds hpending
    obtain ⟨ρ', hkept, hρ', hsteps⟩ := Step.exists_of_classify hM hfolds
      (Formula.flat_rewrite voc _ _ e) (least_rewrite voc _ _ e) (hw.within_looked_scope voc hpending)
      hw.names hD hρ he hstep
    have hold := hw.holds_congr hkept hholds
    rw [scope_cons hpending hstep]
    exact ⟨ρ', hkept, hρ', (holds_apply_iff hw.resolved (hw.step_spec hpending hstep).1
      happly).mpr ⟨(rest_holds voc hold hpending).1, hsteps⟩⟩

/-- A worklist that holds is refuted by the test of the sorts of one equality alone. -/
theorem refuted_of_next (hfolds : M.Folds mode) (hw : w.Good X Q)
    (hholds : w.Holds M.toAlgebra ρ) {r : Refutation}
    (h : w.next voc Unifier.structural mode = .error r) :
    ∃ e rest, w.pending = e :: rest ∧ r = .ofEquality (w.looked voc e rest) ∧
      (w.looked voc e rest).truth = .unknown ∧ voc.lattice.haveCommonSubsort
        (w.looked voc e rest).lhs.sort (w.looked voc e rest).rhs.sort = false := by
  rcases next_cases voc Unifier.structural mode w with ⟨hpending, hended⟩ | ⟨e, rest, hpending, hnext⟩
  · rw [h] at hended
    cases hended with
    | refuted r hrefuted =>
      obtain ⟨a, ha⟩ := exists_absorb voc hholds.bindings hholds.disjunctions
      rw [hrefuted] at ha
      exact absurd ha nofun
  · rw [h] at hnext
    have hvisit : w.visit voc Unifier.structural mode e rest = .error r := by
      cases hvisit : w.visit voc Unifier.structural mode e rest with
      | error r' =>
        rw [hvisit] at hnext
        rw [Except.error.inj hnext]
      | ok w' =>
        rw [hvisit] at hnext
        exact absurd hnext nofun
    exact ⟨e, rest, hpending, Step.refuted_of_classify hfolds (Formula.flat_rewrite voc _ _ e)
      (rest_holds voc hholds hpending).2 (refuted_of_visit hw hpending hvisit)⟩

end Forward

end Stepping

end Worklist

end Entail
