import Entail.Proofs.FirstOrder
import Entail.Proofs.Live
import Mathlib

set_option autoImplicit false

/-! # Most general unifiers

On the first-order fragment simplification solves every equality. The bindings it leaves unify the
formula, every other unifier is an instance of them, and a formula is refuted only if nothing
unifies it. Unifiers are seen as values of the variables in the algebra of terms. -/

namespace Entail

/-! ## Unifiers -/

/-- Terms of the sorts of the variables that they stand for, in which every list is flat. -/
structure SortPreserving (t : Variable → Term) : Prop where
  sort : ∀ v, (t v).sort = v.sort
  flat : ∀ v, (t v).Flat

namespace Formula

/-- The terms make the two sides of all equalities and bindings the same. A false formula has no
    unifier. -/
def UnifiedBy (t : Variable → Term) (φ : Formula) : Prop :=
  φ.isFalse = false ∧
    ∀ e ∈ φ.allEqualities, e.lhs.substitute (some ∘ t) = e.rhs.substitute (some ∘ t)

/-- The bindings unify the formula, and every other unifier is an instance of them. -/
structure MostGeneral (φ : Formula) (s : Substitution) : Prop where
  preserving : SortPreserving s.image
  unifies : φ.UnifiedBy s.image
  general : ∀ t, SortPreserving t → φ.UnifiedBy t →
    ∀ v, t v = (s.image v).substitute (some ∘ t)

/-- No disjunctions, and all equalities and bindings are first-order. -/
def FirstOrder (Q : Symbol → Prop) (φ : Formula) : Prop :=
  φ.disjunctions = [] ∧ ∀ e ∈ φ.allEqualities, e.FirstOrder Q

end Formula

variable {Q : Symbol → Prop} {voc : Vocabulary} {mode : SimplifyMode}

/-- Constructors are known by their names. -/
theorem Constructors.exists_naming (hQ : Constructors Q) : Nonempty (Naming Q) := by
  classical
  have hsome (name : String) : ∃ f : Symbol, f.name = name ∧ ∀ g, Q g → g.name = name → f = g := by
    by_cases h : ∃ f, Q f ∧ f.name = name
    · obtain ⟨f, hf, rfl⟩ := h
      exact ⟨f, rfl, fun g hg hname => hQ.named f g hf hg hname.symm⟩
    · exact ⟨⟨name, .constructor, []⟩, rfl, fun g hg hname => absurd ⟨g, hg, hname⟩ h⟩
  choose symbolOf hname hsymbol using hsome
  exact ⟨symbolOf, hname, fun f hf => hsymbol f.name f hf rfl⟩

namespace Term

theorem flat_substitute {t : Variable → Term} (ht : ∀ v, (t v).Flat) (u : Term) :
    (u.substitute (some ∘ t)).Flat := by
  refine all_substitute
    { token := fun u hu => ?_
      var := fun v _ => ht v
      app := fun _ _ _ _ => trivial
      builtin := fun _ _ _ => trivial
      closed := fun _ => trivial
      framed := fun _ _ hne hframe => ⟨hne, hframe⟩
      ite := fun _ _ _ _ => trivial } (within_any u)
  cases u <;> trivial

/-- The value of a first-order term among the terms is what substitution makes of it. -/
theorem FirstOrder.eval_eq (hQ : Constructors Q) (N : Naming Q) {t : Variable → Term}
    (ht : ∀ v, (t v).Flat) {u : Term} (hu : u.FirstOrder Q) :
    u.eval (algebra N) t = u.substitute (some ∘ t) := by
  induction hu with
  | app f xs s hf hsignature _ ih =>
    have hresult : f.result = s := by
      rw [Symbol.result, hsignature]
      rfl
    rw [eval_app, Term.substitute, substituteAll_eq, List.map_congr_left ih,
      Algebra.apply_constructor _ (hQ.constructor f hf), make_con, N.symbolOf_name f hf, hresult]
  | closed xs _ ih =>
    rw [eval_list, Term.substitute, substituteAll_eq, List.map_congr_left ih]
    exact prepend_nil_algebra N _
  | framed xs frame _ _ _ _ _ ih ihframe =>
    rw [eval_list, evalFrame, Term.substitute, substituteAll_eq, List.map_congr_left ih, ihframe]
    exact prepend_algebra N _ (flat_substitute ht frame).head
  | _ => rfl

/-- Substituting terms of the sorts of the variables changes no sort. -/
theorem FirstOrder.sort_substitute {t : Variable → Term} (ht : ∀ v, (t v).sort = v.sort) {u : Term}
    (hu : u.FirstOrder Q) : (u.substitute (some ∘ t)).sort = u.sort := by
  cases hu with
  | var v => exact ht v
  | framed xs frame hne =>
    obtain ⟨x, xs, rfl⟩ := List.exists_cons_of_ne_nil hne
    rw [Term.substitute, substituteAll_eq, List.map_cons]
    obtain ⟨ys, frame', hlist⟩ := exists_mkList_cons (x.substitute (some ∘ t))
      (xs.map (Term.substitute (some ∘ t))) (some (frame.substitute (some ∘ t)))
    rw [hlist]
    rfl
  | _ => rfl

/-- Terms stay as they are where the variables that occur do. -/
theorem FirstOrder.substitute_eq_self {t : Variable → Term} {u : Term} (hu : u.FirstOrder Q)
    (ht : ∀ v ∈ u.occurrences, t v = .var v) : u.substitute (some ∘ t) = u := by
  have members {xs : List Term}
      (ih : ∀ x ∈ xs, (∀ v ∈ x.occurrences, t v = .var v) → x.substitute (some ∘ t) = x)
      (hxs : ∀ v ∈ allOccurrences xs, t v = .var v) : xs.map (Term.substitute (some ∘ t)) = xs := by
    rw [allOccurrences_eq] at hxs
    conv_rhs => rw [← List.map_id xs]
    exact List.map_congr_left fun x hx =>
      ih x hx fun v hv => hxs v (List.mem_flatMap.mpr ⟨x, hx, hv⟩)
  induction hu with
  | var v => exact ht v (List.mem_singleton.mpr rfl)
  | app f xs s _ _ _ ih => rw [Term.substitute, substituteAll_eq, members ih ht]
  | closed xs _ ih => rw [Term.substitute, substituteAll_eq, members ih ht]
  | framed xs frame hne _ _ hlist _ ih ihframe =>
    rw [Term.substitute, substituteAll_eq, members ih fun v hv => ht v (List.mem_append_left _ hv),
      ihframe fun v hv => ht v (List.mem_append_right _ hv)]
    exact consFrame_of_not_list hne hlist
  | _ => rfl

end Term

/-- An equality holds among the terms if its sides become the same. -/
theorem Equality.FirstOrder.holds_iff (hQ : Constructors Q) (N : Naming Q) {t : Variable → Term}
    (ht : ∀ v, (t v).Flat) {e : Equality} (he : e.FirstOrder Q) : e.Holds (Term.algebra N) t ↔
      e.lhs.substitute (some ∘ t) = e.rhs.substitute (some ∘ t) := by
  rw [Equality.Holds, he.1.eval_eq hQ N ht, he.2.eval_eq hQ N ht]

namespace Worklist

/-- A worklist of first-order equalities of which none was kept. -/
structure FirstOrder (Q : Symbol → Prop) (w : Worklist) : Prop where
  bindings : ∀ entry ∈ w.bindings.entries, entry.2.FirstOrder Q ∧ entry.2.sort = entry.1.sort
  visited : w.visited = []
  pending : ∀ e ∈ w.pending, e.FirstOrder Q
  disjunctions : w.disjunctions = []

variable {X : Variable → Prop} {w w' : Worklist}

theorem FirstOrder.looked (voc : Vocabulary) (hw : w.FirstOrder Q) {e : Equality}
    {rest : List Equality} (hpending : w.pending = e :: rest) :
    (w.looked voc e rest).FirstOrder Q := by
  have hbound : ∀ v u, w.bindings.get? v = some u → u.FirstOrder Q ∧ u.sort = v.sort :=
    fun v u hu => hw.bindings (v, u) (Substitution.mem_of_get? hu)
  have he := hw.pending e (hpending ▸ List.mem_cons_self ..)
  exact ⟨(he.1.rewrite voc _ hbound).1, (he.2.rewrite voc _ hbound).1⟩

/-- Each step works an equality off. -/
theorem FirstOrder.next (hl : voc.lattice.Discrete) (hQ : Constructors Q)
    (hk : ∀ f, Q f → f.result ≠ .k) (hmode : Unifier.Splits mode Q) (hgood : w.Good X Q)
    (hw : w.FirstOrder Q) (h : w.next voc Unifier.structural mode = .ok (.inl w')) :
    w'.FirstOrder Q ∧ ∀ {V : Type} {A : Algebra V} {ρ : Variable → V}, A.Folds mode →
      w.Holds A ρ → w'.Holds A ρ := by
  rcases next_inl_cases h with ⟨hpending, hended⟩ | ⟨e, rest, hpending, hvisited⟩
  · cases hended with
    | again =>
      refine ⟨⟨hw.bindings, rfl, ?_, hw.disjunctions⟩, fun _ hholds =>
        ⟨hholds.bindings, by simp, hholds.visited, hholds.disjunctions⟩⟩
      dsimp only
      rw [hw.visited]
      simp
    | absorbed a ha hcollapsed =>
      rw [hw.disjunctions] at ha
      obtain rfl := Except.ok.inj ha
      exact absurd hcollapsed (by simp)
  · obtain ⟨step, hstep, happly⟩ := step_of_visit hvisited
    have hfits := (hgood.step_spec hpending hstep).1
    have hsolves := Step.solves_of_classify hl hQ hk hmode (hw.looked voc hpending) hstep
    have hrest : ∀ e ∈ rest, e.FirstOrder Q := fun d hd =>
      hw.pending d (hpending ▸ List.mem_cons_of_mem _ hd)
    refine ⟨?_, fun hfolds hholds => ?_⟩
    · cases step with
      | drop =>
        obtain rfl := Except.ok.inj happly
        exact ⟨hw.bindings, hw.visited, hrest, hw.disjunctions⟩
      | split parts ds =>
        obtain rfl := Except.ok.inj happly
        obtain ⟨rfl, hparts⟩ := hsolves
        refine ⟨hw.bindings, hw.visited, List.forall_mem_append.mpr ⟨hparts, hrest⟩, ?_⟩
        rw [hw.disjunctions, List.append_nil]
      | bind v t =>
        obtain ⟨s, hs, rfl⟩ := apply_bind happly
        refine ⟨?_, hw.visited, hrest, hw.disjunctions⟩
        refine Substitution.forall_mem_compose hgood.resolved hfits.1 hfits.2.1 hfits.2.2 hs
          hsolves fun old hold => ?_
        obtain ⟨hterm, hsort⟩ := hw.bindings old hold
        have hnew := hterm.rewrite voc .unknown (f := (Substitution.singleton v t).get?)
          fun x u hu => ?_
        · exact ⟨hnew.1, hnew.2.trans hsort⟩
        · rw [Substitution.get?_singleton] at hu
          split_ifs at hu with hx
          obtain rfl := Option.some.inj hu
          exact hx ▸ hsolves
      | keep e' => exact absurd hsolves id
      | introduce parts names => exact absurd hsolves id
    · obtain ⟨hrestHolds, he⟩ := rest_holds voc hholds hpending
      have hnone : ∀ parts names', step ≠ .introduce parts names' := by
        rintro parts names' rfl
        exact hsolves
      exact (holds_apply_iff hgood.resolved hfits happly).mpr ⟨hrestHolds,
        Step.holds_of_flat hfolds (Formula.flat_rewrite voc _ _ e) he hstep hnone⟩

end Worklist

namespace Formula

theorem equations_ofFormula {φ : Formula} (hφ : φ.FirstOrder Q) :
    (Worklist.ofFormula φ).FirstOrder Q where
  bindings := nofun
  visited := rfl
  pending := hφ.2
  disjunctions := hφ.1

theorem FirstOrder.within {φ : Formula} (hφ : φ.FirstOrder Q) : φ.Within (fun _ => True) Q := by
  cases φ with
  | falsified w => trivial
  | all s es ds =>
    obtain ⟨hds, hes⟩ := hφ
    change ds = [] at hds
    subst hds
    obtain ⟨hs, hes⟩ := List.forall_mem_append.mp hes
    rw [Substitution.equalities, List.forall_mem_map] at hs
    exact (everywhere_all_iff s es []).mpr
      ⟨fun entry hentry => ⟨trivial, (hs entry hentry).2.within _ fun _ => trivial⟩,
        fun e he => ⟨(hes e he).1.within _ fun _ => trivial, (hes e he).2.within _ fun _ => trivial⟩,
        by simp⟩

/-- Unifiers are the solutions among the terms. -/
theorem FirstOrder.holds_iff (hQ : Constructors Q) (N : Naming Q) {t : Variable → Term}
    (ht : ∀ v, (t v).Flat) {φ : Formula} (hφ : φ.FirstOrder Q) :
    φ.Holds (Term.algebra N) t ↔ φ.UnifiedBy t := by
  cases φ with
  | falsified w => exact ⟨False.elim, fun h => absurd h.1 nofun⟩
  | all s es ds =>
    obtain ⟨hds, hes⟩ := hφ
    change ds = [] at hds
    subst hds
    rw [Step.structural_holds_iff, UnifiedBy]
    have hsame : (∀ part ∈ s.equalities ++ es, part.Holds (Term.algebra N) t) ↔
        ∀ e ∈ (all s es []).allEqualities,
          e.lhs.substitute (some ∘ t) = e.rhs.substitute (some ∘ t) :=
      forall₂_congr fun e he => (hes e he).holds_iff hQ N ht
    exact ⟨fun h => ⟨rfl, hsame.mp h.1⟩, fun h => ⟨hsame.mpr h.2, nofun⟩⟩

/-- The last worklist of a run has worked everything off and has all solutions of the formula. -/
theorem FirstOrder.exists_last (hl : voc.lattice.Discrete) (hQ : Constructors Q)
    (hk : ∀ f, Q f → f.result ≠ .k) (hmode : Unifier.Splits mode Q) {φ : Formula}
    (hφ : φ.FirstOrder Q) (n : Nat) :
    (Worklist.ofFormula φ).run voc Unifier.structural mode n = .error .exhausted ∨
      ∃ X w, Worklist.Good X Q w ∧ w.FirstOrder Q ∧
        (∀ {V : Type} {A : Algebra V} {ρ : Variable → V}, A.Folds mode →
          (Worklist.ofFormula φ).Holds A ρ → w.Holds A ρ) ∧
        ((∃ S, (Worklist.ofFormula φ).run voc Unifier.structural mode n = .ok S ∧
            w.next voc Unifier.structural mode = .ok (.inr S)) ∨
          ∃ r, (Worklist.ofFormula φ).run voc Unifier.structural mode n = .error (.refuted r) ∧
            w.next voc Unifier.structural mode = .error r) := by
  let P : (Variable → Prop) → (Variable → Term) → Worklist → Prop := fun X _ w =>
    Worklist.Good X Q w ∧ w.FirstOrder Q ∧ ∀ {V : Type} {A : Algebra V} {ρ : Variable → V},
      A.Folds mode → (Worklist.ofFormula φ).Holds A ρ → w.Holds A ρ
  have hstart : P (· ∈ φ.occurrences) .var (Worklist.ofFormula φ) :=
    ⟨Worklist.good_ofFormula hφ.within, equations_ofFormula hφ, fun _ hholds => hholds⟩
  have hnext {X : Variable → Prop} {ρ : Variable → Term} {w w' : Worklist} (hw : P X ρ w)
      (h : w.next voc Unifier.structural mode = .ok (.inl w')) :
      ∃ X' ρ', P X' ρ' w' ∧ Worklist.Grown X X' w.fresh w'.fresh ρ ρ' := by
    obtain ⟨hgood, hfirst, hholds⟩ := hw
    obtain ⟨hextends, hgood'⟩ := hgood.next h
    obtain ⟨hfirst', hkept⟩ := hfirst.next hl hQ hk hmode hgood h
    exact ⟨_, ρ, ⟨hgood', hfirst', fun hfolds hφ => hkept hfolds (hholds hfolds hφ)⟩,
      hextends, fun _ _ => rfl⟩
  refine (Worklist.exists_last (P := P) (ρ := .var) (fun hw => hw.1) hnext hstart n).imp_right ?_
  rintro ⟨X, _, w, ⟨hgood, hfirst, hholds⟩, _, hend⟩
  exact ⟨X, w, hgood, hfirst, hholds, hend⟩

/-- The bindings of a result keep sorts. -/
theorem preserving_image {X : Variable → Prop} {w : Worklist} (hgood : w.Good X Q)
    (hw : w.FirstOrder Q) : SortPreserving w.bindings.image := by
  have himage (v : Variable) : w.bindings.image v = .var v ∨
      (w.bindings.image v).FirstOrder Q ∧ (w.bindings.image v).sort = v.sort := by
    by_cases hv : w.bindings.Binds v
    · obtain ⟨entry, hentry, rfl⟩ := hv
      rw [hgood.resolved.image_of_mem hentry]
      exact Or.inr (hw.bindings entry hentry)
    · exact Or.inl (Substitution.image_of_not_binds hv)
  refine ⟨fun v => ?_, fun v => ?_⟩
  · rcases himage v with hv | ⟨_, hsort⟩
    · rw [hv]
      rfl
    · exact hsort
  · rcases himage v with hv | ⟨hfirst, _⟩
    · rw [hv]
      exact trivial
    · exact hfirst.flat

/-- A last worklist that gives a result holds nothing but bindings, which are a most general
    unifier. -/
theorem mostGeneral_of_last (hQ : Constructors Q) {φ S : Formula} (hφ : φ.FirstOrder Q)
    {X : Variable → Prop} {w : Worklist} (hgood : w.Good X Q) (hw : w.FirstOrder Q)
    (hforward : ∀ {V : Type} {A : Algebra V} {ρ : Variable → V}, A.Folds mode →
      φ.Holds A ρ → w.Holds A ρ)
    (hbackward : ∀ {V : Type} {A : Algebra V} {ρ : Variable → V}, S.Holds A ρ → φ.Holds A ρ)
    (h : w.next voc Unifier.structural mode = .ok (.inr S)) :
    ∃ s, S = .all s [] [] ∧ φ.MostGeneral s := by
  obtain ⟨N⟩ := hQ.exists_naming
  obtain ⟨_, a, ha, _, hS⟩ := Worklist.next_inr_cases h
  rw [hw.disjunctions] at ha
  obtain rfl := Except.ok.inj ha
  rw [hw.visited] at hS
  have hpreserving := preserving_image hgood hw
  refine ⟨w.bindings, hS, hpreserving, ?_, fun t ht hunified v => ?_⟩
  · -- the bindings hold among the terms that they give
    refine (hφ.holds_iff hQ N hpreserving.flat).mp
      (hbackward (A := Term.algebra N) ?_)
    rw [hS]
    refine (holds_all_iff _ _ _ _ _).mpr ⟨fun entry hentry => ?_, nofun, nofun⟩
    obtain ⟨hfirst, _⟩ := hw.bindings entry hentry
    rw [hgood.resolved.image_of_mem hentry, hfirst.eval_eq hQ N hpreserving.flat]
    exact (hfirst.substitute_eq_self fun v hv =>
      Substitution.image_of_not_binds (hgood.resolved.unbound entry hentry v hv)).symm
  · by_cases hv : w.bindings.Binds v
    · obtain ⟨entry, hentry, rfl⟩ := hv
      have hholds := hforward (Term.folds_algebra N mode)
        ((hφ.holds_iff hQ N ht.flat).mpr hunified)
      rw [hgood.resolved.image_of_mem hentry,
        ← (hw.bindings entry hentry).1.eval_eq hQ N ht.flat]
      exact hholds.bindings entry hentry
    · rw [Substitution.image_of_not_binds hv]
      rfl

/-- What has a unifier is not refuted. -/
theorem not_unified_of_last (hl : voc.lattice.Discrete) (hQ : Constructors Q)
    (hk : ∀ f, Q f → f.result ≠ .k) {φ : Formula} (hφ : φ.FirstOrder Q) {X : Variable → Prop}
    {w : Worklist} (hgood : w.Good X Q) (hw : w.FirstOrder Q)
    (hforward : ∀ {V : Type} {A : Algebra V} {ρ : Variable → V}, A.Folds mode →
      φ.Holds A ρ → w.Holds A ρ) {r : Refutation}
    (h : w.next voc Unifier.structural mode = .error r) {t : Variable → Term}
    (ht : SortPreserving t) : ¬φ.UnifiedBy t := by
  intro hunified
  obtain ⟨N⟩ := hQ.exists_naming
  have hfolds : (Term.model N).Folds mode := Term.folds_algebra N mode
  have hholds : w.Holds (Term.model N).toAlgebra t :=
    hforward hfolds ((hφ.holds_iff hQ N ht.flat).mpr hunified)
  obtain ⟨e, rest, hpending, _, _, hapart⟩ := Worklist.refuted_of_next hfolds hgood hholds h
  -- the sides that are refuted for their sorts are of one sort
  have hlooked := hw.looked voc hpending
  have hsame := (hlooked.holds_iff hQ N ht.flat).mp
    (Worklist.rest_holds voc hholds hpending).2
  have hsort := congrArg Term.sort hsame
  rw [hlooked.1.sort_substitute ht.sort, hlooked.2.sort_substitute ht.sort] at hsort
  rw [(hl.common_iff (hlooked.1.sort_ne hk) (hlooked.2.sort_ne hk)).mpr hsort] at hapart
  exact absurd hapart nofun

/-- What is true as it is has no bindings, and every unifier is an instance of none. -/
theorem mostGeneral_of_isTrue {φ : Formula} (h : φ.isTrue = true) :
    ∃ s, φ = .all s [] [] ∧ φ.MostGeneral s := by
  have himage (v : Variable) : Substitution.empty.image v = .var v :=
    Substitution.image_of_not_binds fun ⟨_, hentry, _⟩ => absurd hentry List.not_mem_nil
  refine ⟨.empty, eq_top_of_isTrue h, ⟨fun v => ?_, fun v => ?_⟩, ?_, fun t _ _ v => ?_⟩
  · rw [himage]
    rfl
  · rw [himage]
    exact trivial
  · rw [eq_top_of_isTrue h]
    exact ⟨rfl, nofun⟩
  · rw [himage]
    rfl

/-- **Simplification unifies.** On the first-order fragment a result is a most general unifier, and
    only formulas without a unifier are refuted. -/
theorem unifies_of_simplify (hvoc : voc.Unordered) (hQ : Constructors Q)
    (hk : ∀ f, Q f → f.result ≠ .k) (hmode : Unifier.Splits mode Q) {φ : Formula}
    (hφ : φ.FirstOrder Q) :
    (∀ S, φ.simplify voc Unifier.structural mode = .ok S →
        ∃ s, S = .all s [] [] ∧ φ.MostGeneral s) ∧
      ∀ r, φ.simplify voc Unifier.structural mode = .error (.refuted r) →
        ∀ t, SortPreserving t → ¬φ.UnifiedBy t := by
  have hl := hvoc.discrete
  rcases φ.simplify_cases voc mode with ⟨w, rfl, herror⟩ | ⟨htrue, hself⟩ | ⟨s, es, ds, heq, hrun⟩
  · refine ⟨fun S hS => ?_, fun _ _ t _ hunified => absurd hunified.1 nofun⟩
    rw [herror] at hS
    exact absurd hS nofun
  · refine ⟨fun S hS => ?_, fun r hr => ?_⟩
    · rw [hself] at hS
      obtain rfl := Except.ok.inj hS
      exact mostGeneral_of_isTrue htrue
    · rw [hself] at hr
      exact absurd hr nofun
  · have hstart {V : Type} {A : Algebra V} {ρ : Variable → V} :
        (Worklist.ofFormula φ).Holds A ρ ↔ φ.Holds A ρ :=
      heq ▸ Worklist.holds_ofFormula_iff s es ds
    rw [hrun]
    rcases hφ.exists_last hl hQ hk hmode φ.stepBound with
      hexhausted | ⟨X, w, hgood, hw, hholds, hend⟩
    · rw [hexhausted]
      exact ⟨fun _ hS => absurd hS nofun, fun _ hr => absurd hr nofun⟩
    refine ⟨fun S hS => ?_, fun r hr t ht => ?_⟩
    · rcases hend with ⟨S', hS', hdone⟩ | ⟨r, hr, _⟩
      · rw [hS'] at hS
        obtain rfl := Except.ok.inj hS
        exact mostGeneral_of_last hQ hφ hgood hw (fun hfolds hφ => hholds hfolds (hstart.mpr hφ))
          (holds_of_simplify hφ.within (hrun.trans hS')) hdone
      · rw [hr] at hS
        exact absurd hS nofun
    · rcases hend with ⟨S, hS, _⟩ | ⟨r', hr', herror⟩
      · rw [hS] at hr
        exact absurd hr nofun
      · exact not_unified_of_last hl hQ hk hφ hgood hw
          (fun hfolds hφ => hholds hfolds (hstart.mpr hφ)) herror ht

end Formula

/-! ### Pairs and lists -/

namespace Pairs

def pair : Symbol := ⟨"pair", .constructor, [⟨[⟨"S"⟩, ⟨"S"⟩], ⟨"S"⟩⟩]⟩

def vocabulary : Vocabulary := Vocabulary.initial.declareSymbol pair

def x : Variable := ⟨"X", ⟨"S"⟩⟩

def y : Variable := ⟨"Y", ⟨"S"⟩⟩

def z : Variable := ⟨"Z", ⟨"S"⟩⟩

def frame : Variable := ⟨"F", .list⟩

/-- `pair(t, u)` -/
def both (t u : Term) : Term := .app pair [t, u] ⟨"S"⟩

/-- `[X | F] = [pair(Y, Z), Y]` and `Z = pair(Y, Y)` -/
def formula : Formula := .all .empty
  [⟨.list [.var x] (some (.var frame)), .list [both (.var y) (.var z), .var y] none⟩,
    ⟨.var z, both (.var y) (.var y)⟩] []

/-- `F = [Y]`, `X = pair(Y, pair(Y, Y))` and `Z = pair(Y, Y)` -/
def solved : Substitution :=
  ⟨[(frame, .list [.var y] none), (x, both (.var y) (both (.var y) (.var y))),
    (z, both (.var y) (.var y))]⟩

/-- `X = pair(X, Y)` -/
def cyclic : Formula := .all .empty [⟨.var x, both (.var x) (.var y)⟩] []

theorem simplify_formula : formula.simplify vocabulary Unifier.structural .default =
    .ok (.all solved [] []) := by
  cbv

theorem simplify_cyclic : cyclic.simplify vocabulary Unifier.structural .default =
    .error (.refuted (.ofEquality ⟨.var x, both (.var x) (.var y)⟩)) := by
  cbv

theorem constructors : Constructors (· = pair) where
  constructor := fun _ hf => hf ▸ rfl
  named := fun _ _ hf hg _ => hf.trans hg.symm

theorem firstOrder_both {t u : Term} (ht : t.FirstOrder (· = pair)) (hu : u.FirstOrder (· = pair))
    (htsort : t.sort = ⟨"S"⟩) (husort : u.sort = ⟨"S"⟩) : (both t u).FirstOrder (· = pair) := by
  refine .app pair [t, u] ⟨"S"⟩ rfl ?_ ?_
  · rw [List.map_cons, List.map_cons, List.map_nil, htsort, husort]
    rfl
  · rw [List.forall_mem_cons, List.forall_mem_singleton]
    exact ⟨ht, hu⟩

theorem firstOrder_var {v : Variable} (hv : v.sort = ⟨"S"⟩) :
    (Term.var v).FirstOrder (· = pair) :=
  .var v (by rw [hv]; decide)

theorem firstOrder_formula : formula.FirstOrder (· = pair) := by
  refine ⟨rfl, fun e he => ?_⟩
  simp only [Formula.allEqualities, formula, Formula.bindings, Formula.equalities,
    Substitution.equalities, Substitution.empty, List.map_nil, List.nil_append, List.mem_cons,
    List.not_mem_nil, or_false] at he
  have hy := firstOrder_var (v := y) rfl
  rcases he with rfl | rfl
  · refine ⟨.framed _ _ (by simp) (List.forall_mem_singleton.mpr (firstOrder_var rfl))
      (.var frame (by decide)) rfl rfl, .closed _ ?_⟩
    rw [List.forall_mem_cons, List.forall_mem_singleton]
    exact ⟨firstOrder_both hy (firstOrder_var rfl) rfl rfl, hy⟩
  · exact ⟨firstOrder_var rfl, firstOrder_both hy hy rfl rfl⟩

theorem firstOrder_cyclic : cyclic.FirstOrder (· = pair) :=
  ⟨rfl, List.forall_mem_singleton.mpr ⟨firstOrder_var rfl,
    firstOrder_both (firstOrder_var rfl) (firstOrder_var rfl) rfl rfl⟩⟩

/-- The result for the one formula is a most general unifier, the other has no unifier. -/
theorem unifies_formula : vocabulary.Unordered ∧ formula.MostGeneral solved ∧
    ∀ t, SortPreserving t → ¬cyclic.UnifiedBy t := by
  have hvoc : vocabulary.Unordered := .declareSymbol _ .initial
  have hk : ∀ f, f = pair → f.result ≠ .k := by
    rintro f rfl
    decide
  have hmode : Unifier.Splits .default (· = pair) := Or.inl rfl
  refine ⟨hvoc, ?_, fun t ht => ?_⟩
  · obtain ⟨s, hs, hgeneral⟩ := (Formula.unifies_of_simplify hvoc constructors hk hmode
      firstOrder_formula).1 _ simplify_formula
    rw [(Formula.all.inj hs).1]
    exact hgeneral
  · exact (Formula.unifies_of_simplify hvoc constructors hk hmode firstOrder_cyclic).2 _
      simplify_cyclic t ht

end Pairs

/-! ### What stays pending

An application of the top sort is bound to no variable of another sort, and the mode that splits
lists only as a whole gives up on frames that are no variables. -/

namespace Unsolved

/-- `c()` is of the top sort. -/
def c : Symbol := ⟨"c", .constructor, [⟨[], .k⟩]⟩

/-- `d(n)` is of the sort of lists. -/
def d : Symbol := ⟨"d", .constructor, [⟨[.int], .list⟩]⟩

def vocabulary : Vocabulary :=
  ((Vocabulary.initial.declareSort ⟨"A"⟩).declareSymbol c).declareSymbol d

def a : Variable := ⟨"X", ⟨"A"⟩⟩

def x : Variable := ⟨"X", .int⟩

def y : Variable := ⟨"Y", .int⟩

def frame : Variable := ⟨"F", .list⟩

def frame' : Variable := ⟨"G", .list⟩

/-- `X = c()` -/
def topSort : Formula := .all .empty [⟨.var a, .app c [] .k⟩] []

/-- `F = d(X)`, `G = d(Y)` and `[X | F] = [Y | G]` -/
def lists : Formula := .all .empty
  [⟨.var frame, .app d [.var x] .list⟩, ⟨.var frame', .app d [.var y] .list⟩,
    ⟨.list [.var x] (some (.var frame)), .list [.var y] (some (.var frame'))⟩] []

/-- The bindings of the frames are put in, and `[X | d(X)] = [Y | d(Y)]` stays. -/
def unsplit : Formula := .all
  ⟨[(frame, .app d [.var x] .list), (frame', .app d [.var y] .list)]⟩
  [⟨.list [.var x] (some (.app d [.var x] .list)), .list [.var y] (some (.app d [.var y] .list))⟩] []

theorem simplify_topSort :
    topSort.simplify vocabulary Unifier.structural .default = .ok topSort := by
  cbv

theorem simplify_lists :
    lists.simplify vocabulary Unifier.structural .beforePatternFolding = .ok unsplit := by
  cbv

theorem constructors : Constructors fun f => f = c ∨ f = d where
  constructor := by
    rintro f (rfl | rfl) <;> rfl
  named := by
    rintro f g (rfl | rfl) (rfl | rfl) hname
    · rfl
    · exact absurd hname (by decide)
    · exact absurd hname (by decide)
    · rfl

theorem firstOrder_topSort : topSort.FirstOrder fun f => f = c ∨ f = d :=
  ⟨rfl, List.forall_mem_singleton.mpr
    ⟨.var a (by decide), .app c [] .k (Or.inl rfl) rfl nofun⟩⟩

theorem firstOrder_lists : lists.FirstOrder fun f => f = c ∨ f = d := by
  have hx : (Term.var x).FirstOrder fun f => f = c ∨ f = d := .var x (by decide)
  have hy : (Term.var y).FirstOrder fun f => f = c ∨ f = d := .var y (by decide)
  have hframe : (Term.var frame).FirstOrder fun f => f = c ∨ f = d := .var frame (by decide)
  have hframe' : (Term.var frame').FirstOrder fun f => f = c ∨ f = d := .var frame' (by decide)
  have hd {t : Term} (ht : t.FirstOrder fun f => f = c ∨ f = d) (hsort : t.sort = .int) :
      (Term.app d [t] .list).FirstOrder fun f => f = c ∨ f = d :=
    .app d [t] .list (Or.inr rfl) (by rw [List.map_cons, List.map_nil, hsort]; rfl)
      (List.forall_mem_singleton.mpr ht)
  refine ⟨rfl, fun e he => ?_⟩
  simp only [Formula.allEqualities, lists, Formula.bindings, Formula.equalities,
    Substitution.equalities, Substitution.empty, List.map_nil, List.nil_append, List.mem_cons,
    List.not_mem_nil, or_false] at he
  rcases he with rfl | rfl | rfl
  · exact ⟨hframe, hd hx rfl⟩
  · exact ⟨hframe', hd hy rfl⟩
  · exact ⟨.framed _ _ (by simp) (List.forall_mem_singleton.mpr hx) hframe rfl rfl,
      .framed _ _ (by simp) (List.forall_mem_singleton.mpr hy) hframe' rfl rfl⟩

/-- Not every result is solved: once for an application of the top sort, once for lists with frames
    that are no variables. -/
theorem pending_equalities : vocabulary.Unordered ∧ Constructors (fun f => f = c ∨ f = d) ∧
    (∃ S, topSort.FirstOrder (fun f => f = c ∨ f = d) ∧
      topSort.simplify vocabulary Unifier.structural .default = .ok S ∧ S.equalities ≠ []) ∧
    ∃ S, lists.FirstOrder (fun f => f = c ∨ f = d) ∧
      lists.simplify vocabulary Unifier.structural .beforePatternFolding = .ok S ∧
        S.equalities ≠ [] :=
  ⟨.declareSymbol _ (.declareSymbol _ (.declareSort _ .initial)), constructors,
    ⟨topSort, firstOrder_topSort, simplify_topSort, nofun⟩,
    ⟨unsplit, firstOrder_lists, simplify_lists, nofun⟩⟩

end Unsolved

end Entail
