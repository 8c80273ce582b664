import Entail.Proofs.Confluence

set_option autoImplicit false

/-! # Reduced terms

Whatever the facts, what evaluation gives is reduced: at no place in it is anything left to do
without facts. So a reduced term stays as it is when it is rewritten with bindings of other
variables, and with facts that decide nothing of it. -/

namespace Entail

namespace Term

/-- Without facts nothing is left to do at the head. -/
def StuckHead : Term → Prop
  | .builtin op xs => reduceBuiltin op xs = .builtin op xs
  | .ite c t e => conditional c t e = .ite c t e
  | _ => True

/-- Applications stand at their least sorts, lists are flat, and no head can be reduced. -/
def ReducedHead (voc : Vocabulary) (t : Term) : Prop :=
  t.LeastHead voc ∧ t.FlatHead ∧ t.StuckHead

/-- Without facts nothing is left to do anywhere in the term. -/
abbrev Reduced (voc : Vocabulary) (t : Term) : Prop := t.All (ReducedHead voc)

theorem Reduced.flat {voc : Vocabulary} {t : Term} (h : t.Reduced voc) : t.Flat :=
  All.mono (fun _ hu => hu.2.1) h

/-! ## Evaluation gives reduced terms -/

theorem stuckHead_token {t : Term} (ht : t.isToken = true) : t.StuckHead := by
  cases t <;> trivial

/-- A conditional that is not merged is stuck. -/
theorem conditional_eq_ite {c t e : Term} (htrue : c ≠ .bool true) (hfalse : c ≠ .bool false)
    (hne : ¬(t == e) = true) : conditional c t e = .ite c t e := by
  rw [conditional, if_neg fun h => htrue (isTrue_eq h), if_neg fun h => hfalse (isFalse_eq h),
    if_neg hne]

theorem stuck_evaluate (voc : Vocabulary) (facts : Facts) (t : Term) :
    (t.evaluate voc facts).All StuckHead := by
  have members {xs : List Term} (ih : ∀ x ∈ xs, (x.evaluate voc facts).All StuckHead) :
      ∀ x ∈ xs.map (evaluate voc facts), x.All StuckHead :=
    List.forall_mem_map.mpr ih
  have decided {t : Term} (ht : t.All StuckHead) : (facts.decide t).All StuckHead :=
    all_decide (fun _ => trivial) ht
  induction t using Term.ind with
  | var v =>
    rw [evaluate]
    exact decided trivial
  | app f xs s ih =>
    rw [evaluate, evaluateAll_eq]
    exact decided ((all_app_iff _ _ _).mpr ⟨trivial, members ih⟩)
  | builtin op xs ih =>
    rw [evaluate, evaluateAll_eq]
    exact decided (all_reduceBuiltin (fun _ => stuckHead_token) op (members ih) fun h => h)
  | closed xs ih =>
    rw [evaluate, evaluateAll_eq]
    exact (all_list_iff _ _).mpr ⟨trivial, members ih, fun _ h => absurd h (Option.not_mem_none _)⟩
  | framed xs frame ih ihframe =>
    rw [evaluate, evaluateAll_eq]
    exact all_consFrame (fun _ => trivial) (fun _ _ _ _ => trivial) (members ih) ihframe
  | ite c t e ihc iht ihe =>
    rw [evaluate]
    split
    · exact iht
    · exact ihe
    · rename_i htrue hfalse
      rw [mergeBranches]
      split
      · exact iht
      · rename_i hne
        exact decided ((all_ite_iff _ _ _).mpr
          ⟨conditional_eq_ite htrue hfalse hne, ihc, iht, ihe⟩)
  | _ => trivial

theorem reduced_evaluate (voc : Vocabulary) (facts : Facts) (t : Term) :
    (t.evaluate voc facts).Reduced voc :=
  (least_evaluate voc facts t).and ((flat_evaluate voc facts t).and (stuck_evaluate voc facts t))

/-! ## Reduced terms stay as they are -/

/-- A walk that leaves every member of a list as it is leaves the list as it is. -/
theorem map_eq_self {F : Term → Term} {xs : List Term} (h : ∀ x ∈ xs, F x = x) : xs.map F = xs := by
  conv_rhs => rw [← List.map_id xs]
  exact List.map_congr_left h

theorem Reduced.evaluate_eq {voc : Vocabulary} {t : Term} (h : t.Reduced voc) :
    t.evaluate voc .unknown = t := by
  induction t using Term.ind with
  | var v => rw [evaluate, Facts.decide_unknown]
  | app f xs s ih =>
    obtain ⟨⟨hleast, _⟩, hxs⟩ := (all_app_iff f xs s).mp h
    rw [evaluate_app, map_eq_self fun x hx => ih x hx (hxs x hx), Vocabulary.apply, ← hleast]
  | builtin op xs ih =>
    obtain ⟨⟨_, _, hstuck⟩, hxs⟩ := (all_builtin_iff op xs).mp h
    rw [evaluate_builtin, map_eq_self fun x hx => ih x hx (hxs x hx)]
    exact hstuck
  | closed xs ih =>
    have hxs := ((all_list_iff xs none).mp h).2.1
    rw [evaluate_closed, map_eq_self fun x hx => ih x hx (hxs x hx)]
  | framed xs frame ih ihframe =>
    obtain ⟨⟨_, ⟨hne, hlist⟩, _⟩, hxs, hframe⟩ := (all_list_iff xs (some frame)).mp h
    rw [evaluate_framed, map_eq_self fun x hx => ih x hx (hxs x hx), ihframe (hframe frame rfl),
      consFrame_of_not_list hne hlist]
  | ite c t e ihc iht ihe =>
    obtain ⟨⟨_, _, hstuck⟩, hc, ht, he⟩ := (all_ite_iff c t e).mp h
    rw [evaluate_ite, ihc hc, iht ht, ihe he]
    exact hstuck
  | _ => rfl

/-- Nothing is replaced in a flat term without variables that are to be replaced. -/
theorem substitute_eq_self {f : Variable → Option Term} {t : Term} (hflat : t.Flat)
    (hf : ∀ v ∈ t.occurrences, f v = none) : t.substitute f = t := by
  have members {xs : List Term} (hxs : ∀ x ∈ xs, x.Flat)
      (hf : ∀ v ∈ allOccurrences xs, f v = none)
      (ih : ∀ x ∈ xs, x.Flat → (∀ v ∈ x.occurrences, f v = none) → x.substitute f = x) :
      xs.map (substitute f) = xs := by
    rw [allOccurrences_eq] at hf
    exact map_eq_self fun x hx =>
      ih x hx (hxs x hx) fun v hv => hf v (List.mem_flatMap.mpr ⟨x, hx, hv⟩)
  induction t using Term.ind with
  | var v => rw [substitute, hf v (List.mem_singleton.mpr rfl), Option.getD_none]
  | app g xs s ih =>
    rw [substitute, substituteAll_eq, members ((all_app_iff g xs s).mp hflat).2 hf ih]
  | builtin op xs ih =>
    rw [substitute, substituteAll_eq, members ((all_builtin_iff op xs).mp hflat).2 hf ih]
  | closed xs ih =>
    rw [substitute, substituteAll_eq, members ((all_list_iff xs none).mp hflat).2.1 hf ih]
  | framed xs frame ih ihframe =>
    obtain ⟨⟨hne, hlist⟩, hxs, hframe⟩ := (all_list_iff xs (some frame)).mp hflat
    rw [occurrences] at hf
    rw [substitute, substituteAll_eq, members hxs (fun v hv => hf v (List.mem_append_left _ hv)) ih,
      ihframe (hframe frame rfl) fun v hv => hf v (List.mem_append_right _ hv), mkList,
      consFrame_of_not_list hne hlist]
  | ite c t e ihc iht ihe =>
    obtain ⟨_, hc, ht, he⟩ := (all_ite_iff c t e).mp hflat
    simp only [occurrences, List.mem_append] at hf
    rw [substitute, ihc hc fun v hv => hf v (.inl hv), iht ht fun v hv => hf v (.inr (.inl hv)),
      ihe he fun v hv => hf v (.inr (.inr hv))]
  | _ => rfl

/-- Bindings of other variables leave a reduced term as it is. -/
theorem Reduced.rewrite_eq {voc : Vocabulary} {f : Variable → Option Term} {t : Term}
    (h : t.Reduced voc) (hf : ∀ v ∈ t.occurrences, f v = none) : t.rewrite voc .unknown f = t := by
  rw [rewrite, substitute_eq_self h.flat hf, h.evaluate_eq]

/-! ## Facts that say the same -/

section Facts

variable {voc : Vocabulary} {p : Term → Prop} {facts facts' : Facts}

/-- Only what the facts say of terms with the same heads matters. -/
theorem evaluate_congr (hp : Shallow voc p)
    (hfacts : ∀ u : Term, u.All p → facts.decide u = facts'.decide u) {t : Term} (ht : t.All p) :
    t.evaluate voc facts = t.evaluate voc facts' := by
  have members {xs : List Term} (hxs : ∀ x ∈ xs, x.All p) :
      ∀ x ∈ xs.map (evaluate voc facts'), x.All p :=
    List.forall_mem_map.mpr fun x hx => hp.evaluate facts' (hxs x hx)
  have same {xs : List Term} (hxs : ∀ x ∈ xs, x.All p)
      (ih : ∀ x ∈ xs, x.All p → x.evaluate voc facts = x.evaluate voc facts') :
      evaluateAll voc facts xs = xs.map (evaluate voc facts') := by
    rw [evaluateAll_eq]
    exact List.map_congr_left fun x hx => ih x hx (hxs x hx)
  induction t using Term.ind with
  | var v =>
    rw [evaluate, evaluate]
    exact hfacts _ ht
  | app f xs s ih =>
    obtain ⟨hf, hxs⟩ := (all_app_iff f xs s).mp ht
    rw [evaluate, evaluate, same hxs ih, evaluateAll_eq]
    exact hfacts _ ((all_app_iff _ _ _).mpr ⟨hp.apply _ _ _ _ hf, members hxs⟩)
  | builtin op xs ih =>
    obtain ⟨hop, hxs⟩ := (all_builtin_iff op xs).mp ht
    rw [evaluate, evaluate, same hxs ih, evaluateAll_eq]
    exact hfacts _ (all_reduceBuiltin hp.token op (members hxs) fun _ => hp.builtin _ _ _ hop)
  | closed xs ih =>
    have hxs := ((all_list_iff xs none).mp ht).2.1
    rw [evaluate, evaluate, same hxs ih, evaluateAll_eq]
  | framed xs frame ih ihframe =>
    obtain ⟨_, hxs, hframe⟩ := (all_list_iff xs (some frame)).mp ht
    rw [evaluate, evaluate, same hxs ih, evaluateAll_eq, ihframe (hframe frame rfl)]
  | ite c t e ihc iht ihe =>
    obtain ⟨hite, hc, ht, he⟩ := (all_ite_iff c t e).mp ht
    rw [evaluate, evaluate, ihc hc, iht ht, ihe he]
    split
    · rfl
    · rfl
    · rw [mergeBranches, mergeBranches]
      split
      · rfl
      · exact hfacts _ ((all_ite_iff _ _ _).mpr ⟨hp.ite _ _ _ _ _ _ hite, hp.evaluate facts' hc,
          hp.evaluate facts' ht, hp.evaluate facts' he⟩)
  | _ => rfl

/-- A reduced term stays as it is with facts that decide nothing of it. -/
theorem Reduced.evaluate_eq_of_undecided (hp : Shallow voc p)
    (hfacts : ∀ u : Term, u.All p → facts.decide u = u) {t : Term} (h : t.Reduced voc)
    (ht : t.All p) : t.evaluate voc facts = t := by
  rw [evaluate_congr hp (fun u hu => (hfacts u hu).trans (Facts.decide_unknown u).symm) ht,
    h.evaluate_eq]

end Facts

end Term

end Entail
