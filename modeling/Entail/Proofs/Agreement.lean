import Entail.Proofs.Representation

set_option autoImplicit false

/-! # Agreed signatures

Symbols are compared by name and kind. Where their signatures follow from these, formulas that
compare equal are the same formula, if they hold no false alternatives, of which only the witnesses
would be left to differ. Simplification keeps to symbols of agreed signatures, whatever the unifier,
if the unifier does. -/

namespace Entail

/-- The signatures of symbols by name and kind. -/
abbrev Signatures := String → SymbolKind → List Signature

/-- The symbol has the agreed signatures. -/
def Symbol.Agrees (sigs : Signatures) (f : Symbol) : Prop := f.signatures = sigs f.name f.kind

variable {sigs : Signatures}

/-! ## Equal up to signatures -/

/-- A function that is injective on the members of two lists is so on the lists. -/
theorem map_inj_of_mem {α β : Type} {f : α → β} {xs ys : List α}
    (h : ∀ x ∈ xs, ∀ y ∈ ys, f x = f y → x = y) (heq : xs.map f = ys.map f) : xs = ys := by
  induction xs generalizing ys with
  | nil => exact (List.map_eq_nil_iff.mp heq.symm).symm
  | cons x xs ih =>
    cases ys with
    | nil => exact absurd heq nofun
    | cons y ys =>
      obtain ⟨hhead, htail⟩ := List.cons.inj heq
      rw [h x (List.mem_cons_self ..) y (List.mem_cons_self ..) hhead,
        ih (fun x hx y hy => h x (List.mem_cons_of_mem _ hx) y (List.mem_cons_of_mem _ hy)) htail]

theorem Symbol.eq_of_bare {f g : Symbol} (hf : f.Agrees sigs) (hg : g.Agrees sigs)
    (h : f.bare = g.bare) : f = g := by
  obtain ⟨name, kind, signatures⟩ := f
  obtain ⟨name', kind', signatures'⟩ := g
  obtain ⟨rfl, rfl, _⟩ := Symbol.mk.inj h
  obtain rfl : signatures = sigs name kind := hf
  obtain rfl : signatures' = sigs name kind := hg
  rfl

/-- The symbols of a term have the agreed signatures. -/
abbrev Term.Agreed (sigs : Signatures) (t : Term) : Prop :=
  t.Within (fun _ => True) (Symbol.Agrees sigs)

/-- The symbols of a formula have the agreed signatures. -/
abbrev Formula.Agreed (sigs : Signatures) (φ : Formula) : Prop :=
  φ.Within (fun _ => True) (Symbol.Agrees sigs)

namespace Term

theorem eq_of_bare {t u : Term} (ht : t.Agreed sigs) (hu : u.Agreed sigs)
    (h : t.bare = u.bare) : t = u := by
  have members {xs ys : List Term} (hxs : ∀ x ∈ xs, x.Agreed sigs) (hys : ∀ y ∈ ys, y.Agreed sigs)
      (ih : ∀ x ∈ xs, ∀ {u : Term}, x.Agreed sigs → u.Agreed sigs → x.bare = u.bare → x = u)
      (heq : xs.map bare = ys.map bare) : xs = ys :=
    map_inj_of_mem (fun x hx y hy => ih x hx (hxs x hx) (hys y hy)) heq
  induction t using Term.ind generalizing u with
  | app f xs s ih =>
    obtain ⟨hf, hxs⟩ := (all_app_iff f xs s).mp ht
    cases u with
    | app g ys s' =>
      obtain ⟨hg, hys⟩ := (all_app_iff g ys s').mp hu
      rw [bare, bare, bareAll_eq, bareAll_eq] at h
      obtain ⟨hfg, hargs, rfl⟩ := Term.app.inj h
      rw [Symbol.eq_of_bare hf hg hfg, members hxs hys ih hargs]
    | list ys frame => cases frame <;> cases h
    | _ => cases h
  | builtin op xs ih =>
    have hxs := ((all_builtin_iff op xs).mp ht).2
    cases u with
    | builtin op' ys =>
      have hys := ((all_builtin_iff op' ys).mp hu).2
      rw [bare, bare, bareAll_eq, bareAll_eq] at h
      obtain ⟨rfl, hargs⟩ := Term.builtin.inj h
      rw [members hxs hys ih hargs]
    | list ys frame => cases frame <;> cases h
    | _ => cases h
  | closed xs ih =>
    have hxs := ((all_list_iff xs none).mp ht).2.1
    cases u with
    | list ys frame =>
      have hys := ((all_list_iff ys frame).mp hu).2.1
      rw [bare_list, bare_list] at h
      obtain ⟨hargs, hframe⟩ := Term.list.inj h
      rw [members hxs hys ih hargs, Option.map_eq_none_iff.mp hframe.symm]
    | _ => cases h
  | framed xs frame ih ihframe =>
    obtain ⟨_, hxs, hframe⟩ := (all_list_iff xs (some frame)).mp ht
    cases u with
    | list ys frame' =>
      obtain ⟨_, hys, hframe'⟩ := (all_list_iff ys frame').mp hu
      rw [bare_list, bare_list] at h
      obtain ⟨hargs, hframes⟩ := Term.list.inj h
      obtain ⟨u, rfl, hbare⟩ := Option.map_eq_some_iff.mp hframes.symm
      rw [members hxs hys ih hargs, ihframe (hframe frame rfl) (hframe' u rfl) hbare.symm]
    | _ => cases h
  | ite c t e ihc iht ihe =>
    obtain ⟨_, hc, ht, he⟩ := (all_ite_iff c t e).mp ht
    cases u with
    | ite c' t' e' =>
      obtain ⟨_, hc', ht', he'⟩ := (all_ite_iff c' t' e').mp hu
      obtain ⟨heqc, heqt, heqe⟩ := Term.ite.inj h
      rw [ihc hc hc' heqc, iht ht ht' heqt, ihe he he' heqe]
    | list ys frame => cases frame <;> cases h
    | _ => cases h
  | _ =>
    cases u with
    | list ys frame => cases frame <;> cases h
    | _ => first | exact h | cases h

end Term

theorem Equality.eq_of_bare {e e' : Equality} (he : e.All (Term.WithinHead (fun _ => True)
    (Symbol.Agrees sigs))) (he' : e'.All (Term.WithinHead (fun _ => True) (Symbol.Agrees sigs)))
    (h : e.bare = e'.bare) : e = e' := by
  obtain ⟨lhs, rhs⟩ := e
  obtain ⟨lhs', rhs'⟩ := e'
  obtain ⟨hl, hr⟩ := Equality.mk.inj h
  exact congrArg₂ Equality.mk (Term.eq_of_bare he.1 he'.1 hl) (Term.eq_of_bare he.2 he'.2 hr)

namespace Formula

/-- The symbols have agreed signatures, and no alternative inside the formula is false. -/
structure Coherent (sigs : Signatures) (φ : Formula) : Prop where
  agreed : φ.Agreed sigs
  tidy : φ.Tidy

theorem eq_of_bare {φ ψ : Formula} (hφ : φ.Coherent sigs) (hψ : ψ.Coherent sigs)
    (hfalse : φ.isFalse = false) (h : φ.bare = ψ.bare) : φ = ψ := by
  induction φ using Formula.ind generalizing ψ with
  | falsified w => exact absurd hfalse nofun
  | all s es ds ih =>
    cases ψ with
    | falsified w => exact absurd h nofun
    | all s' es' ds' =>
      obtain ⟨hs, hes, hds⟩ := (everywhere_all_iff s es ds).mp hφ.agreed
      obtain ⟨hs', hes', hds'⟩ := (everywhere_all_iff s' es' ds').mp hψ.agreed
      have htidy := hφ.tidy.alternatives
      have htidy' := hψ.tidy.alternatives
      rw [bare, bare, bareIn_eq, bareIn_eq] at h
      obtain ⟨heqs, heqes, heqds⟩ := Formula.all.inj h
      have hentries : s = s' := by
        refine congrArg Substitution.mk (map_inj_of_mem (fun x hx y hy heq => ?_)
          (Substitution.mk.inj heqs))
        obtain ⟨hkey, hvalue⟩ := Prod.mk.inj heq
        exact Prod.ext hkey (Term.eq_of_bare (hs x hx).2 (hs' y hy).2 hvalue)
      have hequalities : es = es' :=
        map_inj_of_mem (fun x hx y hy => Equality.eq_of_bare (hes x hx) (hes' y hy)) heqes
      have hdisjunctions : ds = ds' := by
        refine map_inj_of_mem (fun d hd d' hd' => map_inj_of_mem fun χ hχ χ' hχ' => ?_)
          heqds
        exact ih d hd χ hχ ⟨hds d hd χ hχ, (htidy d hd).2 χ hχ⟩
          ⟨hds' d' hd' χ' hχ', (htidy' d' hd').2 χ' hχ'⟩ ((htidy d hd).1.not_false χ hχ)
      rw [hentries, hequalities, hdisjunctions]

end Formula

/-! ## Simplification -/

/-- The unifier brings in no symbols without the agreed signatures. -/
def Unifier.Keeps (sigs : Signatures) (unifier : Unifier) : Prop :=
  ∀ mode t u φ, t.Agreed sigs → u.Agreed sigs → unifier mode t u = .ok φ → φ.Agreed sigs

theorem Unifier.keeps_structural (sigs : Signatures) : Unifier.structural.Keeps sigs :=
  fun _ _ _ _ ht hu h => (unbound_decompose (Term.plain_within _ _) ht hu
    (Formula.everywhere_top rfl) h).each

variable {voc : Vocabulary} {unifier : Unifier} {mode : SimplifyMode}

theorem Term.agreed_rewrite (voc : Vocabulary) (facts : Facts) {s : Substitution}
    (hs : ∀ entry ∈ s.entries, entry.2.Agreed sigs) {t : Term} (ht : t.Agreed sigs) :
    (t.rewrite voc facts s.get?).Agreed sigs := by
  refine Term.within_evaluate voc facts (Term.within_substitute ht fun v _ => ?_)
  cases hget : s.get? v with
  | none => exact trivial
  | some u => exact hs _ (Substitution.mem_of_get? hget)

theorem Step.agreed_of_classify (hunifier : unifier.Keeps sigs) {names : FreshNames} {e : Equality}
    (he : e.All (Term.WithinHead (fun _ => True) (Symbol.Agrees sigs))) {step : Step}
    (h : classify voc unifier mode names e = .ok step) :
    step.EachPart (Term.WithinHead (fun _ => True) (Symbol.Agrees sigs)) := by
  rcases classify_cases voc unifier mode names e with hunify | hsame
  · rw [h] at hunify
    replace hunify := hunify.symm
    unfold unify at hunify
    split at hunify
    · exact absurd hunify nofun
    · exact absurd hunify nofun
    · rename_i s es ds hok
      obtain ⟨hs, hes, hds⟩ := (Formula.everywhere_all_iff s es ds).mp
        (hunifier mode e.lhs e.rhs _ he.1 he.2 hok)
      dsimp only at hunify
      split at hunify
      · obtain rfl := Except.ok.inj hunify
        exact he
      · obtain rfl := Except.ok.inj hunify
        refine ⟨List.forall_mem_append.mpr ⟨?_, hes⟩, hds⟩
        exact List.forall_mem_map.mpr hs
  · rw [hsame] at h
    exact (each_of_classify (Term.plain_within _ _) he h (fun _ _ _ _ _ => trivial)
      fun _ _ _ _ hf => hf).eachPart

namespace Worklist

variable {w w' : Worklist}

theorem agreed_next (hunifier : unifier.Keeps sigs) (hcurrent : w.Current)
    (hw : w.Each (Term.WithinHead (fun _ => True) (Symbol.Agrees sigs)))
    (h : w.Leads voc unifier mode w') :
    w'.Each (Term.WithinHead (fun _ => True) (Symbol.Agrees sigs)) := by
  have hbindings : ∀ entry ∈ w.bindings.entries, entry.2.Agreed sigs :=
    fun entry hentry => (hw.bindings entry hentry).2
  refine each_next_of_fits (fun _ => trivial) hcurrent.resolved hw
    (fun e rest step hpending hstep => ?_)
    (fun t ht => Term.agreed_rewrite voc .unknown hbindings ht) h
  have he := hw.pending e (hpending ▸ List.mem_cons_self ..)
  have hlooked : (w.looked voc e rest).All
      (Term.WithinHead (fun _ => True) (Symbol.Agrees sigs)) :=
    ⟨Term.agreed_rewrite voc _ hbindings he.1, Term.agreed_rewrite voc _ hbindings he.2⟩
  have hsteps := Step.agreed_of_classify hunifier hlooked hstep
  refine ⟨fits_of_classify hcurrent.resolved hstep, hsteps, fun v t hbind u hu => ?_⟩
  subst hbind
  refine Term.agreed_rewrite voc .unknown (fun entry hentry => ?_) hu
  obtain rfl := List.mem_singleton.mp hentry
  exact hsteps.2

theorem agreed_run (hunifier : unifier.Keeps sigs) (hcurrent : w.Current)
    (hw : w.Each (Term.WithinHead (fun _ => True) (Symbol.Agrees sigs)))
    (h : Relation.ReflTransGen (Leads voc unifier mode) w w') :
    w'.Each (Term.WithinHead (fun _ => True) (Symbol.Agrees sigs)) := by
  induction h with
  | refl => exact hw
  | tail hsteps hleads ih => exact agreed_next hunifier (hcurrent.run hsteps) ih hleads

end Worklist

namespace Formula

variable {φ ψ S : Formula}

/-- A result is coherent if the symbols of the formula have agreed signatures. -/
theorem coherent_simplify (hunifier : unifier.Keeps sigs) (hφ : φ.Agreed sigs)
    (h : φ.simplify voc unifier mode = .ok S) : S.Coherent sigs := by
  refine ⟨?_, kept_tidy.simplify h⟩
  unfold simplify at h
  split at h
  · exact absurd h nofun
  · split at h
    · obtain rfl := Except.ok.inj h
      exact hφ
    · obtain ⟨last, hsteps, hlast⟩ := Worklist.exists_leads_of_run h
      have hcurrent := Worklist.current_ofFormula φ
      have hlastEach := Worklist.agreed_run hunifier hcurrent (Worklist.each_ofFormula hφ) hsteps
      exact Worklist.each_done (fun _ => trivial) hlastEach.bindings hlastEach.visited
        hlastEach.disjunctions (fun t ht => Term.agreed_rewrite voc .unknown
          (fun entry hentry => (hlastEach.bindings entry hentry).2) ht) hlast

end Formula

end Entail
