import Entail.Proofs.Fixpoints
import Entail.Proofs.Narrowing
import Entail.Proofs.Preservation

set_option autoImplicit false

/-! # Formulas whose results are given back

Where no application or operation is a truth value and nothing depends on a condition, the only open
terms of sort `Bool` are variables, and a variable that is stated equal to a truth value is bound to
it. So no fact that is left decides anything. A bound term is turned into a variable only if it was
one, and along a chain of variables of one sort each is bound to a smaller one. -/

namespace Entail

/-! ## Quiet terms -/

namespace Term

variable {voc : Vocabulary} {X : Variable → Prop} {Q : Symbol → Prop} {facts : Facts} {t : Term}

/-- Applications and operations give no truth values, and nothing is chosen by a condition. -/
def QuietHead : Term → Prop
  | .app f _ s => s ≠ .bool ∧ ∀ sig ∈ f.signatures, sig.result ≠ .bool
  | .builtin op _ => op.resultSort ≠ .bool
  | .ite _ _ _ => False
  | _ => True

/-- Of sort `Bool` there are only truth values and variables. -/
abbrev Quiet (t : Term) : Prop := t.All QuietHead

theorem shallow_quiet (voc : Vocabulary) : Shallow voc QuietHead where
  token t _ := by cases t <;> trivial
  app _ _ _ _ h := h
  apply f _ _ ys h := by
    refine ⟨?_, h.2⟩
    rcases voc.leastSort_result f (ys.map sort) with htop | ⟨sig, hsig, hresult⟩
    · rw [htop]
      decide
    · rw [hresult]
      exact h.2 sig hsig
  builtin _ _ _ h := h
  list _ _ := trivial
  ite _ _ _ _ _ _ h := h

/-- Without truth values and conditionals nothing keeps narrower arguments from narrowing a term. -/
theorem fitHead_of_quiet (hwithin : t.WithinHead X Q) (hquiet : t.QuietHead) :
    t.FitHead voc Q := by
  cases t with
  | app f xs s => exact hwithin
  | builtin op xs =>
    intro hconnective
    cases op <;> first | exact absurd rfl hquiet | cases hconnective
  | ite c t e => exact hquiet.elim
  | _ => trivial

/-- Facts that decide no variable decide no quiet term. -/
theorem decide_of_quiet (hvar : ∀ v, X v → facts.decide (.var v) = .var v) (hquiet : t.QuietHead)
    (hwithin : t.WithinHead X Q) : facts.decide t = t := by
  have other {s : SortName} (hsort : t.sort = s) (hs : s ≠ .bool) : facts.decide t = t := by
    rcases decide_cases facts t with hsame | ⟨b, _, hbool, _⟩
    · exact hsame
    · exact absurd (hsort ▸ hbool) hs
  cases t with
  | var v => exact hvar v hwithin
  | app f xs s => exact other rfl hquiet.1
  | builtin op xs => exact other rfl hquiet
  | list xs frame => exact other (s := .list) rfl (by decide)
  | ite c t e => exact hquiet.elim
  | _ => rfl

/-- Only a variable is rewritten to a variable. -/
theorem exists_var_of_rewrite (hquiet : t.Quiet) (hflat : t.Flat) {f : Variable → Option Term}
    {w : Variable} (h : t.rewrite voc .unknown f = .var w) : ∃ v, t = .var v := by
  cases t with
  | var v => exact ⟨v, rfl⟩
  | bool b => exact absurd h nofun
  | int n => exact absurd h nofun
  | str a => exact absurd h nofun
  | app g xs s =>
    rw [rewrite_app] at h
    exact absurd h nofun
  | builtin op xs =>
    rw [rewrite_builtin] at h
    have hop := ((all_builtin_iff op xs).mp hquiet).1
    have hreduces := reducesTo_reduceBuiltin op (xs.map (rewrite voc .unknown f))
    rw [h] at hreduces
    cases hreduces with
    | token ht _ => cases ht
    | argument hconnective _ => rcases hconnective with rfl | rfl <;> exact absurd rfl hop
    | negated hnot _ => exact absurd (hnot ▸ rfl) hop
    | stuck hstuck => cases hstuck
  | list xs frame =>
    cases frame with
    | none =>
      rw [rewrite_closed] at h
      exact absurd h nofun
    | some frame =>
      have hne := ((all_list_iff xs (some frame)).mp hflat).1.1
      have hmap : xs.map (rewrite voc .unknown f) ≠ [] := fun hnil =>
        hne (List.map_eq_nil_iff.mp hnil)
      obtain ⟨more, frame', hlist⟩ := consFrame_eq_list hmap (frame.rewrite voc .unknown f)
      rw [rewrite_framed, hlist] at h
      exact absurd h nofun
  | ite c t e => exact ((all_ite_iff c t e).mp hquiet).1.elim

end Term

/-! ## The direction of bindings -/

namespace Step

variable {voc : Vocabulary} {mode : SimplifyMode} {names : FreshNames} {e : Equality} {v : Variable}
  {t : Term}

/-- Of two variables of one sort the larger is bound. -/
theorem oriented_of_classify
    (h : classify voc Unifier.structural mode names e = .ok (.bind v t)) : Oriented v t := by
  rintro w rfl hsort
  obtain ⟨hrelates, hoccurs⟩ := relates_of_classify h
  have hne : v ≠ w := fun heq => hoccurs (List.mem_singleton.mpr heq)
  rcases hrelates with rfl | rfl
  · have hstep := classify_vars hne h
    rw [bindVariables, if_pos (beq_iff_eq.mpr hsort)] at hstep
    split at hstep
    · assumption
    · exact absurd (Step.bind.inj hstep).1 hne
  · have hstep := classify_vars hne.symm h
    rw [bindVariables, if_pos (beq_iff_eq.mpr hsort.symm)] at hstep
    split at hstep
    · exact absurd (Step.bind.inj hstep).1 hne
    · rename_i hnot
      cases hcmp : v.cmp w with
      | gt => rfl
      | eq => exact absurd ((Variable.cmp_eq_iff v w).mp hcmp) hne
      | lt => exact absurd (by rw [Std.OrientedCmp.gt_of_lt hcmp]; rfl) hnot

end Step

namespace Worklist

variable {voc : Vocabulary} {Q : Symbol → Prop} {mode : SimplifyMode} {w w' : Worklist}

/-- A step keeps the direction of bindings: where a bound variable is replaced by another one, the
    two bindings make a chain. -/
theorem oriented_next (hacyclic : voc.lattice.Acyclic)
    (hlasting : w.Lasting voc) (hquiet : w.bindings.EachBinding fun _ t => t.Quiet)
    (hsuits : w.bindings.EachBinding (Term.Suits voc Q))
    (hw : w.bindings.EachBinding Step.Oriented) (h : w.Leads voc Unifier.structural mode w') :
    w'.bindings.EachBinding Step.Oriented := by
  rcases bindings_of_leads hlasting.current.resolved h with
    hsame | ⟨e, rest, v, t, hstep, hv, hextended⟩
  · rw [hsame]
    exact hw
  have hnew := Step.oriented_of_classify hstep
  rw [hextended]
  intro entry hentry
  rcases (Substitution.mem_extended_iff voc hv t entry).mp hentry with rfl | ⟨old, hold, rfl⟩
  · exact hnew
  intro x hx hsort
  obtain ⟨y, hy⟩ := Term.exists_var_of_rewrite (hquiet old hold) (hlasting.values old hold).flat hx
  dsimp only at hx hsort ⊢
  rw [hy, Term.rewrite, Term.substitute, Substitution.get?_singleton] at hx
  by_cases hyv : y = v
  · -- the old binding ends where the new one begins
    subst hyv
    rw [if_pos rfl, Option.getD_some, (reduced_of_classify hstep).evaluate_eq] at hx
    have hbelow : voc.lattice.isSubsortEq y.sort x.sort = true := by
      have hlist := Step.classified voc mode w.fresh (w.looked voc e rest)
      rw [hstep] at hlist
      cases hlist with
      | bind _ _ _ _ hle => rwa [hx] at hle
    have habove : voc.lattice.isSubsortEq old.1.sort y.sort = true := by
      have hle := (hsuits old hold).2
      rwa [hy] at hle
    have hmiddle : y.sort = x.sort := hacyclic _ _ hbelow (hsort ▸ habove)
    have hfirst := Ordering.isGT_iff_eq_gt.mp (hw old hold y hy (hsort.trans hmiddle.symm))
    have hsecond := Ordering.isGT_iff_eq_gt.mp (hnew x hx hmiddle)
    exact Ordering.isGT_iff_eq_gt.mpr (Std.TransCmp.gt_trans hfirst hsecond)
  · rw [if_neg hyv, Option.getD_none, Term.evaluate, Facts.decide_unknown] at hx
    obtain rfl := Term.var.inj hx
    exact hw old hold y hy hsort

theorem oriented_run (h : voc.Narrows Q) (hl : voc.lattice.Closed)
    (hacyclic : voc.lattice.Acyclic) {φ : Formula} (hquiet : φ.Each Term.QuietHead)
    (hfit : φ.Each (Term.FitHead voc Q))
    (hsteps : Relation.ReflTransGen (Leads voc Unifier.structural mode) (ofFormula φ) w) :
    w.bindings.EachBinding Step.Oriented := by
  induction hsteps with
  | refl => exact nofun
  | tail hsteps hleads ih =>
    have hcarries := carries_run (maintained_of_shallow (Term.shallow_quiet voc) fun _ => trivial)
      hquiet hsteps
    exact oriented_next hacyclic (lasting_run hsteps) hcarries.bindings
      (carries_run (maintained_suits h hl) hfit hsteps).bindings ih hleads

end Worklist

/-! ## Results are settled -/

theorem Term.eq_var_of_beq {t : Term} {v : Variable} (h : (t == .var v) = true) : t = .var v := by
  rw [beq_iff] at h
  cases t with
  | list xs frame => cases frame <;> exact absurd h nofun
  | var w => exact h
  | _ => exact absurd h nofun

/-- An equality that is kept does not tell a variable of sort `Bool`, which it would bind. -/
theorem Facts.fromEquality_of_kept {voc : Vocabulary} {mode : SimplifyMode} {names : FreshNames}
    {e : Equality} (h : Step.classify voc Unifier.structural mode names e = .ok (.keep e))
    {v : Variable} (hbool : v.sort.isBool = true) : fromEquality (.var v) e = none := by
  have untold {b : Bool} (he : e.Relates v (.bool b)) : False := by
    have hsort : voc.lattice.isSubsortEq v.sort (Term.bool b).sort = true :=
      beq_iff_eq.mp hbool ▸ voc.lattice.isSubsortEq_refl .bool
    exact absurd (Step.classify_term he rfl nofun hsort h) nofun
  have side {fact token : Term} (he : ∀ b, fact = .var v → token = .bool b → e.Relates v (.bool b)) :
      fromSides (.var v) fact token = none := by
    unfold fromSides
    split
    · rename_i b
      rw [if_neg]
      exact fun hsame => untold (he b (Term.eq_var_of_beq hsame) rfl)
    · rfl
  rw [fromEquality, side (fun b hl hr => .inl (Equality.mk.injEq .. ▸ ⟨hl, hr⟩)),
    side (fun b hr hl => .inr (Equality.mk.injEq .. ▸ ⟨hl, hr⟩))]
  rfl

namespace Formula

variable {voc : Vocabulary} {mode : SimplifyMode} {φ S : Formula}

/-- The equalities of a result decide none of its quiet terms. -/
theorem Finished.evaluate_quiet (hfinished : S.Finished voc Unifier.structural mode)
    {es : List Equality} (hes : ∀ e ∈ es, e ∈ S.equalities) {t : Term}
    (hfixed : t.Fixed voc S.bindings) (hquiet : t.Quiet) :
    t.evaluate voc (Facts.ofParts S.bindings es) = t := by
  have hunbound : t.Within (fun v => ¬S.bindings.Binds v) fun _ => True :=
    Term.All.mono (fun _ hu => hu.2) hfixed
  refine Term.Reduced.evaluate_eq_of_undecided
    ((Term.shallow_quiet voc).and (Term.shallow_within voc _ _)) (fun u hu => ?_)
    hfixed.reduced (Term.All.and hquiet hunbound)
  refine Term.decide_of_quiet (fun v hv => ?_) hu.head.1 hu.head.2
  refine Facts.decide_of_silent hv fun hbool e he => ?_
  obtain ⟨names, hkept⟩ := hfinished.kept e (hes e he)
  exact Facts.fromEquality_of_kept hkept hbool

/-- The bindings of a result are of the larger of two variables of one sort. -/
theorem oriented_simplifyWithin {Q : Symbol → Prop} (hnarrows : voc.Narrows Q)
    (hl : voc.lattice.Closed) (hacyclic : voc.lattice.Acyclic) (hquiet : φ.Each Term.QuietHead)
    (hfit : φ.Each (Term.FitHead voc Q)) {steps : Nat}
    (h : φ.simplifyWithin voc Unifier.structural mode steps = .ok S) :
    S.bindings.EachBinding Step.Oriented := by
  obtain ⟨last, hsteps, hlast⟩ := Worklist.exists_leads_of_run h
  obtain ⟨_, a, _, _, rfl⟩ := Worklist.next_inr_cases hlast
  exact Worklist.oriented_run hnarrows hl hacyclic hquiet hfit hsteps

/-- A result of a quiet formula is settled if bindings respect sorts. -/
theorem settled_of_quiet (hvoc : voc.Built) (hacyclic : voc.lattice.Acyclic) {Q : Symbol → Prop}
    (hQ : ∀ f, Q f → voc.Knows f) (hnarrows : voc.Narrows Q)
    (hwithin : φ.Within (fun v => voc.lattice.Known v.sort) Q) (hquiet : φ.Each Term.QuietHead)
    (h : φ.simplify voc Unifier.structural mode = .ok S) : S.Settled voc := by
  have hfit : φ.Each (Term.FitHead voc Q) :=
    Each.imp (fun _ ht => Term.fitHead_of_quiet ht.head) hwithin hquiet
  have hquietS : S.Each Term.QuietHead := (maintained_simplify
    (Worklist.maintained_of_shallow (Term.shallow_quiet voc) fun _ => trivial) hquiet h).1
  have hknown := known_simplify hvoc hacyclic hQ hwithin h
  have hsuits := suits_simplify hnarrows hvoc.closed hfit h
  rcases simplify_result h with rfl | hrun
  · exact ⟨nofun, nofun, nofun⟩
  have hfinished := finished_simplifyWithin hrun
  have horiented := oriented_simplifyWithin hnarrows hvoc.closed hacyclic hquiet hfit hrun
  cases S with
  | falsified w => exact ⟨nofun, nofun, nofun⟩
  | all σ es ds =>
    obtain ⟨hquietBindings, hquietEqualities, _⟩ := (everywhere_all_iff σ es ds).mp hquietS
    obtain ⟨hknownBindings, _⟩ := (everywhere_all_iff σ es ds).mp hknown
    refine ⟨fun entry hentry => ?_, fun e he => ?_, fun entry hentry => ⟨(hsuits entry hentry).2,
      ?_, horiented entry hentry⟩⟩
    · exact hfinished.evaluate_quiet (fun _ he => he) (hfinished.values entry hentry)
        (hquietBindings entry hentry).2
    · have hothers : ∀ e' ∈ Sorted.erase Equality.cmp e es, e' ∈ es := fun _ h =>
        List.mem_of_mem_filter h
      exact ⟨hfinished.evaluate_quiet hothers (hfinished.sides e he).1 (hquietEqualities e he).1,
        hfinished.evaluate_quiet hothers (hfinished.sides e he).2 (hquietEqualities e he).2⟩
    · -- the sort of the bound term is below both
      obtain ⟨hvariable, hterm⟩ := hknownBindings entry hentry
      have hleast : entry.2.All (Term.LeastHead voc) :=
        Term.All.mono (fun _ hu => hu.1) (hfinished.values entry hentry).reduced
      exact hvoc.closed.exists_common hvariable (Term.known_sort hvoc hQ hterm hleast)
        (hsuits entry hentry).2 (voc.lattice.isSubsortEq_refl _)

end Formula

end Entail
