import Entail.Proofs.Applied

set_option autoImplicit false

/-! # What simplification carries along

A property of bindings is carried through a run together with a property of terms: rewriting with
bindings that have the one keeps the other, a binding has it when it is found, and older bindings
keep it when they are rewritten with a new one. -/

namespace Entail

/-- All bindings of a substitution have a property. -/
def Substitution.EachBinding (B : Variable → Term → Prop) (s : Substitution) : Prop :=
  ∀ entry ∈ s.entries, B entry.1 entry.2

namespace Worklist

variable {voc : Vocabulary} {p : Term → Prop} {B : Variable → Term → Prop}

/-- What is asked of a property of terms and one of bindings so that a step keeps both. -/
structure Maintained (voc : Vocabulary) (p : Term → Prop) (B : Variable → Term → Prop) :
    Prop where
  plain : Term.Plain p
  var : ∀ v, p (.var v)
  apply : ∀ f xs s ys, p (.app f xs s) → p (voc.apply f ys)
  rewrite : ∀ {s : Substitution}, s.EachBinding B → ∀ facts, ∀ t : Term, t.All p →
    (t.rewrite voc facts s.get?).All p
  bind : ∀ {s : Substitution}, s.EachBinding B → ∀ facts, ∀ t : Term, t.All p → ∀ v,
    voc.lattice.isSubsortEq v.sort (t.rewrite voc facts s.get?).sort = true →
    B v (t.rewrite voc facts s.get?)
  rebind : ∀ {s : Substitution}, s.EachBinding B → ∀ v t, B v t →
    B v (t.rewrite voc .unknown s.get?)

/-- A property of heads whatever is below them is kept if it holds of variables. -/
theorem maintained_of_shallow (hp : Term.Shallow voc p) (hvar : ∀ v, p (.var v)) :
    Maintained voc p fun _ t => t.All p := by
  have rewritten {s : Substitution} (hs : s.EachBinding fun _ t => t.All p) (facts : Facts)
      {t : Term} (ht : t.All p) : (t.rewrite voc facts s.get?).All p := by
    refine hp.evaluate facts (hp.substitute ht fun v _ => ?_)
    cases hget : s.get? v with
    | none => exact hvar v
    | some u => exact hs _ (Substitution.mem_of_get? hget)
  exact
    { plain := ⟨fun b => hp.token (.bool b) rfl, fun xs => hp.list xs none,
        fun xs frame _ _ => hp.list xs (some frame)⟩
      var := hvar
      apply := hp.apply
      rewrite := fun hs facts _ ht => rewritten hs facts ht
      bind := fun hs facts _ ht _ _ => rewritten hs facts ht
      rebind := fun hs _ _ ht => rewritten hs .unknown ht }

/-- The terms of a worklist have property `p`, and its bindings have property `B`. -/
structure Carries (p : Term → Prop) (B : Variable → Term → Prop) (w : Worklist) : Prop where
  each : w.Each p
  bindings : w.bindings.EachBinding B

variable {X : Variable → Prop} {Q : Symbol → Prop} {mode : SimplifyMode} {w w' : Worklist}

/-- What an equality comes down to has the property of terms, and what it binds that of bindings. -/
theorem Carries.step (hB : Maintained voc p B) (hw : w.Carries p B) {e : Equality}
    {rest : List Equality} (hpending : w.pending = e :: rest) {step : Step}
    (h : Step.classify voc Unifier.structural mode w.fresh (w.looked voc e rest) = .ok step) :
    step.Each p ∧ ∀ v t, step = .bind v t → (Substitution.singleton v t).EachBinding B := by
  have he := hw.each.pending e (hpending ▸ List.mem_cons_self ..)
  have hlooked : (w.looked voc e rest).All p :=
    ⟨hB.rewrite hw.bindings _ _ he.1, hB.rewrite hw.bindings _ _ he.2⟩
  refine ⟨Step.each_of_classify hB.plain hlooked h (fun _ _ _ v _ => hB.var v) hB.apply,
    fun v t hbind entry hentry => ?_⟩
  subst hbind
  obtain rfl := List.mem_singleton.mp hentry
  have hstep := Step.classified voc mode w.fresh (w.looked voc e rest)
  rw [h] at hstep
  cases hstep with
  | bind _ _ hrelates _ hsort =>
    -- the bound term is one of the rewritten sides
    rcases hrelates with heq | heq
    · obtain rfl : (w.looked voc e rest).rhs = t := by rw [heq]
      exact hB.bind hw.bindings _ _ he.2 v hsort
    · obtain rfl : (w.looked voc e rest).lhs = t := by rw [heq]
      exact hB.bind hw.bindings _ _ he.1 v hsort

theorem Carries.next (hB : Maintained voc p B) (hgood : w.Good X Q) (hw : w.Carries p B)
    (h : w.next voc Unifier.structural mode = .ok (.inl w')) : w'.Carries p B := by
  refine ⟨each_next hB.plain.bool hgood hw.each (fun e rest step hpending hstep => ?_)
    (hB.rewrite hw.bindings .unknown) h, ?_⟩
  · obtain ⟨hsteps, hbinds⟩ := hw.step hB hpending hstep
    exact ⟨hsteps, fun v t hbind => hB.rewrite (hbinds v t hbind) .unknown⟩
  rcases next_inl_cases h with ⟨_, hended⟩ | ⟨e, rest, hpending, hvisited⟩
  · cases hended <;> exact hw.bindings
  obtain ⟨step, hstep, happly⟩ := step_of_visit hvisited
  have hfits := (hgood.step_spec hpending hstep).1
  cases step with
  | bind v t =>
    obtain ⟨s, hs, rfl⟩ := apply_bind happly
    have hbind := (hw.step hB hpending hstep).2 v t rfl
    -- older bindings are rewritten with the new one
    exact Substitution.forall_mem_compose hgood.resolved hfits.1 hfits.2.1 hfits.2.2 hs
      (hbind (v, t) (List.mem_singleton.mpr rfl)) fun old hold =>
        hB.rebind hbind old.1 old.2 (hw.bindings old hold)
  | _ =>
    obtain rfl := Except.ok.inj happly
    exact hw.bindings

/-- A run carries what the formula has that it starts with. -/
theorem carries_run (hB : Maintained voc p B) {φ : Formula} (hφ : φ.Each p)
    (h : Relation.ReflTransGen (Leads voc Unifier.structural mode) (ofFormula φ) w) :
    w.Carries p B := by
  have hcarries : (∃ X, w.Good X fun _ => True) ∧ w.Carries p B := by
    induction h with
    | refl => exact ⟨⟨_, good_ofFormula φ.within_any⟩, each_ofFormula hφ, nofun⟩
    | tail _ hleads ih =>
      obtain ⟨⟨X, hgood⟩, hcarries⟩ := ih
      exact ⟨⟨_, (hgood.next hleads).2⟩, hcarries.next hB hgood hleads⟩
  exact hcarries.2

end Worklist

namespace Formula

variable {voc : Vocabulary} {p : Term → Prop} {B : Variable → Term → Prop} {mode : SimplifyMode}
  {φ S : Formula}

theorem maintained_simplifyWithin (hB : Worklist.Maintained voc p B) (hφ : φ.Each p) {steps : Nat}
    (h : φ.simplifyWithin voc Unifier.structural mode steps = .ok S) :
    S.Each p ∧ S.bindings.EachBinding B := by
  obtain ⟨last, hsteps, hlast⟩ := Worklist.exists_leads_of_run h
  obtain ⟨heach, hbindings⟩ := Worklist.carries_run hB hφ hsteps
  refine ⟨Worklist.each_done hB.plain.bool heach.bindings heach.visited heach.disjunctions
    (hB.rewrite hbindings .unknown) hlast, ?_⟩
  obtain ⟨_, a, _, _, rfl⟩ := Worklist.next_inr_cases hlast
  exact hbindings

/-- A result has what is carried along on the way to it. -/
theorem maintained_simplify (hB : Worklist.Maintained voc p B) (hφ : φ.Each p)
    (h : φ.simplify voc Unifier.structural mode = .ok S) :
    S.Each p ∧ S.bindings.EachBinding B := by
  rcases simplify_result h with rfl | hrun
  · exact ⟨each_of_isTrue rfl, nofun⟩
  · exact maintained_simplifyWithin hB hφ hrun

end Formula

end Entail
